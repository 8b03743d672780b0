import Mathlib.Data.List.Count
import SimpleOs.Sched.Mlq

/-!
# Where the processes are

* `place` : where the calls made so far have put a process;
* `Disciplined` : each process is added once, and only processes held are put back;
* `Located`, `located_step` : the levels hold the processes that are ready, each once;
* `process_located` : a process added is held, once in its level, or was refused by a full level;
* `process_lost` : eleven processes in one level.
-/

namespace SimpleOs.Sched

variable {P : Type} [DecidableEq P]

/-- The places of a process: not yet added, in its level, held by the caller of `get_proc`, or refused by
its level, which was full. -/
inductive Place
  | outside
  | ready
  | held
  | refused
  deriving DecidableEq

/-- Where the calls have put process `proc`. -/
def place (F : PcbFields P) (proc : P) : SchedHistory P → Place
  | [] => .outside
  | e :: h =>
    if e.act.enters = some proc then
      if (e.before.level (F.prio proc)).length < MAX_QUEUE_SIZE then .ready else .refused
    else if e.res = some proc then .held
    else place F proc h

/-- A process is added once, and put back when it is held. -/
def Allowed (F : PcbFields P) (h : SchedHistory P) : SchedAct P → Prop
  | .add proc => ∀ e ∈ h, e.act ≠ .add proc
  | .put proc => place F proc h = .held
  | .get => True

def Disciplined (F : PcbFields P) : SchedHistory P → Prop
  | [] => True
  | e :: h => Allowed F h e.act ∧ Disciplined F h

instance (F : PcbFields P) (h : SchedHistory P) : DecidablePred (Allowed F h)
  | .add proc => inferInstanceAs (Decidable (∀ e ∈ h, e.act ≠ .add proc))
  | .put _ => inferInstanceAs (Decidable (_ = _))
  | .get => inferInstanceAs (Decidable True)

instance Disciplined.decidable (F : PcbFields P) : DecidablePred (Disciplined F)
  | [] => inferInstanceAs (Decidable True)
  | e :: h =>
    have := Disciplined.decidable F h
    inferInstanceAs (Decidable (Allowed F h e.act ∧ Disciplined F h))

/-- The levels hold the processes that are ready, each once and in the level of its `prio`; a process that
has left the outside was added. -/
structure Located (F : PcbFields P) (h : SchedHistory P) (s : SchedT P) : Prop where
  count : ∀ proc l, (s.level l).count proc = if place F proc h = .ready ∧ l = F.prio proc then 1 else 0
  added : ∀ proc, place F proc h ≠ .outside → ∃ e ∈ h, e.act = .add proc

variable {F : PcbFields P} {s s' : SchedT P} {h : SchedHistory P} {act : SchedAct P} {r : Option P} {proc : P}

theorem Allowed.not_ready (hL : Located F h s) (ha : Allowed F h act) (hact : act.enters = some proc) :
    place F proc h ≠ .ready := by
  cases act with
  | add =>
    cases hact
    intro hready
    obtain ⟨e, he, hadd⟩ := hL.added _ (by rw [hready]; decide)
    exact ha e he hadd
  | put =>
    cases hact
    intro hready
    have hheld : place F proc h = .held := ha
    rw [hheld] at hready
    cases hready
  | get => cases hact

/-! ## Step by step -/

theorem place_enter {q : P} (hact : act.enters = some q) (proc : P) :
    place F proc (⟨s, act, none⟩ :: h) =
      if proc = q then
        if (s.level (F.prio proc)).length < MAX_QUEUE_SIZE then .ready else .refused
      else place F proc h := by
  have hres : ¬ (none : Option P) = some proc := by simp
  simp only [place, hact, if_neg hres, Option.some_inj, eq_comm (a := proc)]

theorem place_dispatch (q proc : P) :
    place F proc (⟨s, .get, some q⟩ :: h) = if proc = q then .held else place F proc h := by
  have hact : ¬ (SchedAct.get : SchedAct P).enters = some proc := by simp [SchedAct.enters]
  simp only [place, if_neg hact, Option.some_inj, eq_comm (a := proc)]

theorem Located.enter {q : P} (hL : Located F h s) (ha : Allowed F h act) (hact : act.enters = some q) :
    Located F (⟨s, act, none⟩ :: h) (s.enter F q) := by
  have hnot := ha.not_ready hL hact
  refine ⟨fun x l => ?_, fun x hne => ?_⟩
  · have hcount := hL.count x l
    rw [place_enter hact, enter_level]
    by_cases hxq : x = q
    · subst hxq
      rw [if_neg fun h => hnot h.1] at hcount
      rw [if_pos rfl]
      by_cases hl : l = F.prio x
      · subst hl
        by_cases hroom : (s.level (F.prio x)).length < MAX_QUEUE_SIZE
        · simp [hroom, hcount]
        · simp [hroom, hcount]
      · simp [hl, hcount]
    · rw [if_neg hxq, ← hcount]
      split
      · rw [List.count_append, List.count_eq_zero_of_not_mem (mt List.mem_singleton.mp hxq), Nat.add_zero]
      · rfl
  · rw [place_enter hact] at hne
    by_cases hxq : x = q
    · subst hxq
      cases act with
      | add =>
        cases hact
        exact ⟨_, List.mem_cons_self .., rfl⟩
      | put =>
        cases hact
        have hheld : place F x h = .held := ha
        obtain ⟨e, he, hadd⟩ := hL.added x (by rw [hheld]; decide)
        exact ⟨e, List.mem_cons_of_mem _ he, hadd⟩
      | get => cases hact
    · rw [if_neg hxq] at hne
      obtain ⟨e, he, hadd⟩ := hL.added x hne
      exact ⟨e, List.mem_cons_of_mem _ he, hadd⟩

theorem Located.idle (hL : Located F h s) (currPrio currSlot : Nat) :
    Located F (⟨s, .get, none⟩ :: h) { s with currPrio := currPrio, currSlot := currSlot } := by
  refine ⟨fun x l => hL.count x l, fun x hne => ?_⟩
  obtain ⟨e, he, hadd⟩ := hL.added x hne
  exact ⟨e, List.mem_cons_of_mem _ he, hadd⟩

theorem Located.dispatch {prio : Nat} {q : P} {q' : QueueT P} {l₁ l₂ : List P} (hL : Located F h s)
    (hq : Dequeued F.priority (s.mlqReadyQueue prio) q q' l₁ l₂) :
    Located F (⟨s, .get, some q⟩ :: h)
      (updateSlot { s with mlqReadyQueue := Function.update s.mlqReadyQueue prio q' } prio) := by
  have hbefore : s.level prio = l₁ ++ q :: l₂ := hq.before
  have hcq := hL.count q prio
  rw [hbefore, List.count_append, List.count_cons_self] at hcq
  have hready : place F q h = .ready ∧ prio = F.prio q := by
    by_contra hnot
    rw [if_neg hnot] at hcq
    omega
  rw [if_pos hready] at hcq
  refine ⟨fun x l => ?_, fun x hne => ?_⟩
  · have hcount := hL.count x l
    rw [place_dispatch, dispatch_level hq]
    by_cases hxq : x = q
    · subst hxq
      rw [if_pos rfl]
      by_cases hl : l = prio
      · simp only [if_pos hl, List.count_append]
        simp only [reduceCtorEq, false_and, if_false]
        omega
      · have hlx : l ≠ F.prio x := fun he => hl (he.trans hready.2.symm)
        simp [hl, hcount, hlx]
    · rw [if_neg hxq, ← hcount]
      split
      · next hl => rw [hl, hbefore, List.count_append, List.count_append, List.count_cons_of_ne (Ne.symm hxq)]
      · rfl
  · have hx : place F x h ≠ .outside := by
      rw [place_dispatch] at hne
      by_cases hxq : x = q
      · rw [hxq, hready.1]
        decide
      · rw [if_neg hxq] at hne
        exact hne
    obtain ⟨e, he, hadd⟩ := hL.added x hx
    exact ⟨e, List.mem_cons_of_mem _ he, hadd⟩

/-- A step keeps the processes located. -/
theorem located_step (hL : Located F h s) (ha : Allowed F h act) (hx : schedStep F s act = .ok (r, s')) :
    Located F (⟨s, act, r⟩ :: h) s' := by
  cases schedStep_cases hx with
  | enter hact hprio => exact hL.enter ha hact
  | idle => exact hL.idle 0 0
  | dispatch hprio hlow hq => exact hL.dispatch hq

theorem located_init : Located F [] (SchedT.init : SchedT P) where
  count := fun _ _ => rfl
  added := fun _ hne => absurd rfl hne

theorem located_run (hrun : Run (schedStep F) SchedT.init h s) (hd : Disciplined F h) : Located F h s := by
  induction hrun with
  | start => exact located_init
  | next _ hx ih => exact located_step (ih hd.2) hd.1 hx

/-- Process `proc` is held and in no level, or not held and exactly once in its level. -/
def InOnePlace (F : PcbFields P) (h : SchedHistory P) (s : SchedT P) (proc : P) : Prop :=
  (place F proc h = .held ∧ ∀ l, proc ∉ s.level l) ∨
  (place F proc h = .ready ∧ (s.level (F.prio proc)).count proc = 1 ∧ ∀ l ≠ F.prio proc, proc ∉ s.level l)

/-- No process is lost or duplicated, except by a full level: a process added is held, or exactly once
in its level, or the level was full when it last came back, and it is in no level. -/
theorem process_located (hrun : Run (schedStep F) SchedT.init h s) (hd : Disciplined F h)
    (hadd : ∃ e ∈ h, e.act = .add proc) :
    InOnePlace F h s proc ∨ (place F proc h = .refused ∧ ∀ l, proc ∉ s.level l) := by
  have hL := located_run hrun hd
  have hnone : place F proc h ≠ .ready → ∀ l, proc ∉ s.level l := by
    intro hne l
    rw [← List.count_eq_zero, hL.count, if_neg fun h => hne h.1]
  have hout : place F proc h ≠ .outside := by
    obtain ⟨e, he, hact⟩ := hadd
    clear hrun hd hL hnone
    induction h with
    | nil => cases he
    | cons e' h ih =>
      rw [place]
      split
      · split <;> decide
      · next hne =>
        split
        · decide
        · rcases List.mem_cons.mp he with rfl | he
          · rw [hact] at hne
            exact absurd rfl hne
          · exact ih he
  cases hp : place F proc h with
  | outside => exact absurd hp hout
  | held => exact .inl (.inl ⟨hp, hnone (by rw [hp]; decide)⟩)
  | refused => exact .inr ⟨rfl, hnone (by rw [hp]; decide)⟩
  | ready =>
    refine .inl (.inr ⟨hp, ?_, fun l hl => ?_⟩)
    · rw [hL.count, if_pos ⟨hp, rfl⟩]
    · rw [← List.count_eq_zero, hL.count, if_neg fun h => hl h.2]

/-- A process put back while its level has room. -/
theorem process_located_put :
    ∃ (h : SchedHistory Nat) (s : SchedT Nat), h.map Entry.act = [.get, .put 0, .get, .add 1, .add 0] ∧
      (InOnePlace ⟨fun _ => 0, fun _ => 3⟩ h s 0 ∨ (place ⟨fun _ => 0, fun _ => 3⟩ 0 h = .refused ∧
        ∀ l, 0 ∉ s.level l)) := by
  obtain ⟨h, s, hrun, hact, hp⟩ := exists_run_of_replay (schedStep (P := Nat) ⟨fun _ => 0, fun _ => 3⟩) SchedT.init
    [.get, .put 0, .get, .add 1, .add 0]
    (fun h _ => decide (Disciplined ⟨fun _ => 0, fun _ => 3⟩ h ∧ ∃ e ∈ h, e.act = .add 0)) (by decide +kernel)
  have hp' := of_decide_eq_true hp
  exact ⟨h, s, hact, process_located hrun hp'.1 hp'.2⟩

/-- A full level loses a process: the eleventh process added to a level is in no queue. -/
theorem process_lost :
    ∃ (F : PcbFields Nat) (h : SchedHistory Nat) (s : SchedT Nat), Run (schedStep F) SchedT.init h s ∧
      (∀ proc, F.prio proc < MAX_PRIO) ∧ Disciplined F h ∧ (∃ e ∈ h, e.act = .add 10) ∧ ¬ InOnePlace F h s 10 := by
  obtain ⟨h, s, hrun, hact, hp⟩ := exists_run_of_replay (schedStep (P := Nat) ⟨fun _ => 0, fun _ => 0⟩) SchedT.init
    ((List.range 11).reverse.map .add)
    (fun h _ => decide (Disciplined ⟨fun _ => 0, fun _ => 0⟩ h ∧ (∃ e ∈ h, e.act = .add 10) ∧
      place ⟨fun _ => 0, fun _ => 0⟩ 10 h = .refused)) (by decide +kernel)
  obtain ⟨hd, hadd, hrefused⟩ := of_decide_eq_true hp
  refine ⟨⟨fun _ => 0, fun _ => 0⟩, h, s, hrun, fun _ => (by decide : 0 < MAX_PRIO), hd, hadd, fun hone => ?_⟩
  rcases hone with ⟨hheld, _⟩ | ⟨hready, _⟩
  · rw [hrefused] at hheld
    cases hheld
  · rw [hrefused] at hready
    cases hready

end SimpleOs.Sched
