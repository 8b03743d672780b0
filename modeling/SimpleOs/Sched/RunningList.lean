import Mathlib.Data.List.Count
import SimpleOs.Sched.Mlq

/-!
# `running_list`

* `LifeAct`, `lifeStep` : the calls of the scheduler, and a process that finishes and is freed;
* `Orderly` : each process is added once, and put back or finished while it is alive;
* `RunningListLive` : `running_list` holds the processes alive, each once, and none that was freed;
* `ListSpared` : a process finds room when it is added and no room when it is put back, and none finishes;
* `live_step` : a step keeps the list if and only if it spares it;
* `runningList_iff` : the list is right in every state of a run if and only if every step spares it;
* `runningList_duplicate` : a process in the list twice.
-/

namespace SimpleOs.Sched

variable {P : Type}

inductive LifeAct (P : Type)
  | call (act : SchedAct P)
  | finish (proc : P)
  deriving DecidableEq

/-- A call of the scheduler; `cpu_routine` frees a process that finishes and tells the scheduler nothing. -/
def lifeStep (F : PcbFields P) (s : SchedT P) : LifeAct P → Exec (Option P × SchedT P)
  | .call act => schedStep F s act
  | .finish _ => .ok (none, s)

abbrev LifeHistory (P : Type) := List (Entry (SchedT P) (LifeAct P) (Option P))

def Added (h : LifeHistory P) (proc : P) : Prop := ∃ e ∈ h, e.act = .call (.add proc)

def Finished (h : LifeHistory P) (proc : P) : Prop := ∃ e ∈ h, e.act = .finish proc

def Alive (h : LifeHistory P) (proc : P) : Prop := Added h proc ∧ ¬ Finished h proc

/-- A process is added once, and put back or finished while it is alive (in particular when a CPU holds it). -/
def LifeAllowed (h : LifeHistory P) : LifeAct P → Prop
  | .call (.add proc) => ¬ Added h proc
  | .call (.put proc) => Alive h proc
  | .call .get => True
  | .finish proc => Alive h proc

def Orderly : LifeHistory P → Prop
  | [] => True
  | e :: h => LifeAllowed h e.act ∧ Orderly h

/-- The list holds the processes alive, each once, and none that finished. -/
def RunningListLive [DecidableEq P] (h : LifeHistory P) (s : SchedT P) : Prop :=
  (∀ proc, Alive h proc → s.runningList.proc.count proc = 1) ∧
  ∀ proc, Finished h proc → proc ∉ s.runningList.proc

/-- It does so in every state of the run `h` that ends in `s`. -/
def LiveThroughout [DecidableEq P] : LifeHistory P → SchedT P → Prop
  | [], s => RunningListLive [] s
  | e :: h, s => LiveThroughout h e.before ∧ RunningListLive (e :: h) s

/-- A process that is added finds room in the list, one that is put back finds the list full, and none
finishes. -/
def ListSpared (s : SchedT P) : LifeAct P → Prop
  | .call (.add _) => s.runningList.proc.length < MAX_QUEUE_SIZE
  | .call (.put _) => MAX_QUEUE_SIZE ≤ s.runningList.proc.length
  | .call .get => True
  | .finish _ => False

instance (s : SchedT P) : DecidablePred (ListSpared s)
  | .call (.add _) => inferInstanceAs (Decidable (_ < _))
  | .call (.put _) => inferInstanceAs (Decidable (_ ≤ _))
  | .call .get => inferInstanceAs (Decidable True)
  | .finish _ => inferInstanceAs (Decidable False)

section Decidable
variable [DecidableEq P]

instance (h : LifeHistory P) (proc : P) : Decidable (Added h proc) := inferInstanceAs (Decidable (∃ e ∈ h, _))

instance (h : LifeHistory P) (proc : P) : Decidable (Finished h proc) := inferInstanceAs (Decidable (∃ e ∈ h, _))

instance (h : LifeHistory P) (proc : P) : Decidable (Alive h proc) := inferInstanceAs (Decidable (_ ∧ _))

instance (h : LifeHistory P) : DecidablePred (LifeAllowed h)
  | .call (.add _) => inferInstanceAs (Decidable (¬ _))
  | .call (.put _) => inferInstanceAs (Decidable (Alive _ _))
  | .call .get => inferInstanceAs (Decidable True)
  | .finish _ => inferInstanceAs (Decidable (Alive _ _))

instance Orderly.decidable : DecidablePred (Orderly (P := P))
  | [] => inferInstanceAs (Decidable True)
  | e :: h =>
    have := Orderly.decidable h
    inferInstanceAs (Decidable (LifeAllowed h e.act ∧ Orderly h))

end Decidable

variable {F : PcbFields P} {s s' : SchedT P} {h : LifeHistory P} {act : LifeAct P} {r : Option P} {proc x : P}
  {e : Entry (SchedT P) (LifeAct P) (Option P)}

theorem added_cons : Added (e :: h) x ↔ e.act = .call (.add x) ∨ Added h x := by
  simp only [Added, List.mem_cons, exists_eq_or_imp]

theorem finished_cons : Finished (e :: h) x ↔ e.act = .finish x ∨ Finished h x := by
  simp only [Finished, List.mem_cons, exists_eq_or_imp]

theorem alive_of_ne (hadd : e.act ≠ .call (.add x)) (hfin : e.act ≠ .finish x) : Alive (e :: h) x ↔ Alive h x := by
  rw [Alive, Alive, added_cons, finished_cons, or_iff_right hadd, or_iff_right hfin]

theorem schedStep_runningList (act : SchedAct P) (hx : schedStep F s act = .ok (r, s')) : s'.runningList =
    match act.enters with
    | some proc => enqueue s.runningList proc
    | none => s.runningList := by
  cases schedStep_cases hx with
  | enter hact => rw [hact]; rfl
  | idle => rfl
  | dispatch => exact updateSlot_runningList ..

/-- What the list and the history know: listed and finished processes were added. -/
structure Known (h : LifeHistory P) (s : SchedT P) : Prop where
  listed : ∀ proc ∈ s.runningList.proc, Added h proc
  finished : ∀ proc, Finished h proc → Added h proc

theorem known_init : Known [] (SchedT.init : SchedT P) where
  listed := fun _ hin => absurd hin List.not_mem_nil
  finished := fun _ hfin => absurd hfin.choose_spec.1 List.not_mem_nil

theorem mem_enqueue {q : QueueT P} (hx : x ∈ (enqueue q proc).proc) : x = proc ∨ x ∈ q.proc := by
  by_cases hroom : q.proc.length < MAX_QUEUE_SIZE
  · rw [enqueue_of_lt hroom] at hx
    rcases List.mem_append.mp hx with hx | hx
    · exact .inr hx
    · exact .inl (List.mem_singleton.mp hx)
  · rw [enqueue_of_full (Nat.le_of_not_lt hroom)] at hx
    exact .inr hx

theorem known_step (hk : Known h s) (ha : LifeAllowed h act) (hx : lifeStep F s act = .ok (r, s')) :
    Known (⟨s, act, r⟩ :: h) s' := by
  cases act with
  | finish proc =>
    cases hx
    refine ⟨fun x hin => added_cons.mpr (.inr (hk.listed x hin)), fun x hfin => added_cons.mpr (.inr ?_)⟩
    rcases finished_cons.mp hfin with hact | hfin
    · cases hact
      exact ha.1
    · exact hk.finished x hfin
  | call act =>
    have hlist := schedStep_runningList act hx
    refine ⟨fun x hin => added_cons.mpr ?_, fun x hfin => added_cons.mpr (.inr ?_)⟩
    · rw [hlist] at hin
      cases act with
      | add proc =>
        rcases mem_enqueue hin with rfl | hin
        · exact .inl rfl
        · exact .inr (hk.listed x hin)
      | put proc =>
        rcases mem_enqueue hin with rfl | hin
        · exact .inr ha.1
        · exact .inr (hk.listed x hin)
      | get => exact .inr (hk.listed x hin)
    · rcases finished_cons.mp hfin with hact | hfin
      · cases hact
      · exact hk.finished x hfin

theorem known_run (hrun : Run (lifeStep F) SchedT.init h s) (ho : Orderly h) : Known h s := by
  induction hrun with
  | start => exact known_init
  | next _ hx ih => exact known_step (ih ho.2) ho.1 hx

/-! ## The steps -/

variable [DecidableEq P]

/-- Enlisting a process that is not in the list makes it right if and only if there is room. -/
theorem live_add (hk : Known h s) (hlive : RunningListLive h s) (ha : ¬ Added h proc)
    (hlist : s'.runningList = enqueue s.runningList proc) :
    RunningListLive (⟨s, .call (.add proc), r⟩ :: h) s' ↔ s.runningList.proc.length < MAX_QUEUE_SIZE := by
  have hnot : proc ∉ s.runningList.proc := fun hin => ha (hk.listed proc hin)
  have hfin : ¬ Finished h proc := fun hfin => ha (hk.finished proc hfin)
  have hfin' : ∀ x, Finished (⟨s, .call (.add proc), r⟩ :: h) x ↔ Finished h x := fun x => by
    rw [finished_cons]
    exact or_iff_right (by simp)
  constructor
  · intro hlive'
    by_contra hfull
    have hcount := hlive'.1 proc ⟨added_cons.mpr (.inl rfl), fun hf => hfin ((hfin' proc).mp hf)⟩
    rw [hlist, enqueue_of_full (Nat.le_of_not_lt hfull), List.count_eq_zero_of_not_mem hnot] at hcount
    cases hcount
  · intro hroom
    rw [RunningListLive, hlist, enqueue_of_lt hroom]
    refine ⟨fun x halive => ?_, fun x hx => ?_⟩
    · rw [List.count_append]
      by_cases hxp : x = proc
      · rw [hxp, List.count_eq_zero_of_not_mem hnot, List.count_singleton_self]
      · have hne : ¬ LifeAct.call (.add proc) = .call (.add x) := fun he => hxp (by cases he; rfl)
        rw [List.count_eq_zero_of_not_mem (mt List.mem_singleton.mp hxp), Nat.add_zero]
        exact hlive.1 x ((alive_of_ne hne (by simp)).mp halive)
    · rw [hfin'] at hx
      rw [List.mem_append, List.mem_singleton, not_or]
      refine ⟨hlive.2 x hx, fun he => ?_⟩
      rw [he] at hx
      exact hfin hx

/-- Enlisting a process again leaves the list right if and only if there is no room. -/
theorem live_put (hlive : RunningListLive h s) (ha : Alive h proc)
    (hlist : s'.runningList = enqueue s.runningList proc) :
    RunningListLive (⟨s, .call (.put proc), r⟩ :: h) s' ↔ MAX_QUEUE_SIZE ≤ s.runningList.proc.length := by
  have halive : ∀ x, Alive (⟨s, .call (.put proc), r⟩ :: h) x ↔ Alive h x := fun x =>
    alive_of_ne (by simp) (by simp)
  constructor
  · intro hlive'
    by_contra hfull
    have hcount := hlive'.1 proc ((halive proc).mpr ha)
    rw [hlist, enqueue_of_lt (Nat.lt_of_not_ge hfull), List.count_append, hlive.1 proc ha,
      List.count_singleton_self] at hcount
    cases hcount
  · intro hfull
    rw [RunningListLive, hlist, enqueue_of_full hfull]
    refine ⟨fun x hx => hlive.1 x ((halive x).mp hx), fun x hx => hlive.2 x ?_⟩
    rcases finished_cons.mp hx with hact | hx
    · cases hact
    · exact hx

/-- A step keeps the list right if and only if it spares it. -/
theorem live_step (hk : Known h s) (hlive : RunningListLive h s) (ha : LifeAllowed h act)
    (hx : lifeStep F s act = .ok (r, s')) : RunningListLive (⟨s, act, r⟩ :: h) s' ↔ ListSpared s act := by
  cases act with
  | call act =>
    have hlist := schedStep_runningList act hx
    cases act with
    | add proc => exact live_add hk hlive ha hlist
    | put proc => exact live_put hlive ha hlist
    | get =>
      refine iff_of_true ⟨fun x halive => ?_, fun x hfin => ?_⟩ trivial
      · rw [hlist]
        exact hlive.1 x ((alive_of_ne (by simp) (by simp)).mp halive)
      · rw [hlist]
        rcases finished_cons.mp hfin with hact | hfin
        · cases hact
        · exact hlive.2 x hfin
  | finish proc =>
    cases hx
    refine iff_of_false (fun hlive' => ?_) (fun hfalse => hfalse)
    have hcount := hlive.1 proc ha
    rw [List.count_eq_zero_of_not_mem (hlive'.2 proc (finished_cons.mpr (.inl rfl)))] at hcount
    cases hcount

theorem live_init : RunningListLive [] (SchedT.init : SchedT P) where
  left := fun _ halive => absurd halive.1.choose_spec.1 List.not_mem_nil
  right := fun _ _ => List.not_mem_nil

theorem LiveThroughout.last (hlive : LiveThroughout h s) : RunningListLive h s := by
  cases h with
  | nil => exact hlive
  | cons e h => exact hlive.2

/-- `running_list` is the set of live processes in every state of a run if and only if every step
spares it. -/
theorem runningList_iff (hrun : Run (lifeStep F) SchedT.init h s) (ho : Orderly h) :
    LiveThroughout h s ↔ ∀ e ∈ h, ListSpared e.before e.act := by
  induction hrun with
  | start => exact iff_of_true live_init (List.forall_mem_nil _)
  | @next h s s' act r hrun hx ih =>
    have hk := known_run hrun ho.2
    rw [LiveThroughout, List.forall_mem_cons, ih ho.2]
    constructor
    · intro ⟨hspared, hlive'⟩
      have hlive := ((ih ho.2).mpr hspared).last
      exact ⟨(live_step hk hlive ho.1 hx).mp hlive', hspared⟩
    · intro ⟨hact, hspared⟩
      have hlive := ((ih ho.2).mpr hspared).last
      exact ⟨hspared, (live_step hk hlive ho.1 hx).mpr hact⟩

def listFields : PcbFields Nat := ⟨fun _ => 0, fun _ => 3⟩

/-- A run that spares the list. -/
theorem runningList_iff_spared :
    ∃ (h : LifeHistory Nat) (s : SchedT Nat), h.map Entry.act = [.call .get, .call (.add 1), .call (.add 0)] ∧
      (LiveThroughout h s ↔ ∀ e ∈ h, ListSpared e.before e.act) := by
  obtain ⟨h, s, hrun, hact, hp⟩ := exists_run_of_replay (lifeStep listFields) SchedT.init
    [.call .get, .call (.add 1), .call (.add 0)] (fun h _ => decide (Orderly h)) (by decide +kernel)
  exact ⟨h, s, hact, runningList_iff hrun (of_decide_eq_true hp)⟩

/-- A process in the list twice: it is enlisted when it is added, and again when it is put back. -/
theorem runningList_duplicate :
    ∃ (h : LifeHistory Nat) (s : SchedT Nat), Run (lifeStep listFields) SchedT.init h s ∧ Orderly h ∧
      h.map Entry.act = [.call (.put 0), .call .get, .call (.add 0)] ∧ Alive h 0 ∧
      s.runningList.proc.count 0 = 2 ∧ ¬ LiveThroughout h s := by
  obtain ⟨h, s, hrun, hact, hp⟩ := exists_run_of_replay (lifeStep listFields) SchedT.init
    [.call (.put 0), .call .get, .call (.add 0)]
    (fun h s => decide (Orderly h ∧ Alive h 0 ∧ s.runningList.proc.count 0 = 2)) (by decide +kernel)
  obtain ⟨ho, halive, hcount⟩ := of_decide_eq_true hp
  refine ⟨h, s, hrun, ho, hact, halive, hcount, fun hlive => ?_⟩
  have hone := hlive.last.1 0 halive
  rw [hcount] at hone
  cases hone

end SimpleOs.Sched
