import Mathlib.Logic.Function.Basic
import SimpleOs.Lib.Run
import SimpleOs.Sched.Queue
import SimpleOs.Ub

/-!
# The multi-level queue scheduler (`sched.c`)

* `SchedT` : the static variables of the scheduler; `initScheduler`, `getProc`, `putProc`, `addProc` : its
  functions, `getMlqProc` with its search of the levels;
* `schedStep` : a call; `SchedOutcome`, `schedStep_cases` : what calls do;
* `SchedT.Ok`, `run_ok` : a process waits in the level of its `prio`, in every state reached.
-/

namespace SimpleOs.Sched

def MAX_PRIO : Nat := 140

structure PcbFields (P : Type) where
  priority : P → Nat
  prio : P → Nat

/-- The static variables of `sched.c` and of `get_mlq_proc`. -/
structure SchedT (P : Type) where
  mlqReadyQueue : Nat → QueueT P
  runningList : QueueT P
  slot : Nat → Nat
  currPrio : Nat
  currSlot : Nat

variable {P : Type}

def SchedT.zeroed : SchedT P := ⟨fun _ => .nil, .nil, fun _ => 0, 0, 0⟩

def initScheduler (s : SchedT P) : SchedT P :=
  { s with mlqReadyQueue := fun _ => .nil, slot := fun i => MAX_PRIO - i }

/-- The update of `curr_prio` and `curr_slot` when level `prio` was served. -/
def updateSlot (s : SchedT P) (prio : Nat) : SchedT P :=
  if s.currPrio = prio then
    let currSlot := (s.currSlot + 1) % s.slot prio
    if currSlot = 0 then { s with currPrio := (s.currPrio + 1) % MAX_PRIO, currSlot := 0 }
    else { s with currSlot := currSlot }
  else { s with currPrio := prio, currSlot := 0 }

/-- The loop of `get_mlq_proc` over the `left` last levels. -/
def getMlqProcLoop (F : PcbFields P) (s : SchedT P) : Nat → Option (P × SchedT P)
  | 0 => none
  | left + 1 =>
    let prio := MAX_PRIO - (left + 1)
    if !empty (s.mlqReadyQueue prio) then
      match dequeue F.priority (s.mlqReadyQueue prio) with
      | (some proc, q) =>
        some (proc, updateSlot { s with mlqReadyQueue := Function.update s.mlqReadyQueue prio q } prio)
      | (none, q) => getMlqProcLoop F { s with mlqReadyQueue := Function.update s.mlqReadyQueue prio q } left
    else getMlqProcLoop F s left

def getMlqProc (F : PcbFields P) (s : SchedT P) : Option P × SchedT P :=
  match getMlqProcLoop F s MAX_PRIO with
  | some (proc, s) => (some proc, s)
  | none => (none, { s with currPrio := 0, currSlot := 0 })

def putMlqProc (F : PcbFields P) (s : SchedT P) (proc : P) : Exec (SchedT P) :=
  let prio := F.prio proc
  if prio < MAX_PRIO then
    .ok { s with mlqReadyQueue := Function.update s.mlqReadyQueue prio (enqueue (s.mlqReadyQueue prio) proc) }
  else .error (.mlqReadyQueue prio)

def addMlqProc (F : PcbFields P) (s : SchedT P) (proc : P) : Exec (SchedT P) := putMlqProc F s proc

def getProc (F : PcbFields P) (s : SchedT P) : Option P × SchedT P := getMlqProc F s

def putProc (F : PcbFields P) (s : SchedT P) (proc : P) : Exec (SchedT P) :=
  putMlqProc F { s with runningList := enqueue s.runningList proc } proc

def addProc (F : PcbFields P) (s : SchedT P) (proc : P) : Exec (SchedT P) :=
  addMlqProc F { s with runningList := enqueue s.runningList proc } proc

/-! ## Calls -/

inductive SchedAct (P : Type)
  | add (proc : P)
  | put (proc : P)
  | get
  deriving DecidableEq

/-- A call of the scheduler, with the process that `get_proc` returns. -/
def schedStep (F : PcbFields P) (s : SchedT P) : SchedAct P → Exec (Option P × SchedT P)
  | .add proc => do
    let s ← addProc F s proc
    return (none, s)
  | .put proc => do
    let s ← putProc F s proc
    return (none, s)
  | .get => .ok (getProc F s)

abbrev SchedHistory (P : Type) := List (Entry (SchedT P) (SchedAct P) (Option P))

def SchedT.init : SchedT P := initScheduler .zeroed

def SchedAct.enters : SchedAct P → Option P
  | .add proc => some proc
  | .put proc => some proc
  | .get => none

def SchedT.level (s : SchedT P) (l : Nat) : List P := (s.mlqReadyQueue l).proc

/-- The scheduler with `proc` in its level, and in `running_list`, where they have room. -/
def SchedT.enter (F : PcbFields P) (s : SchedT P) (proc : P) : SchedT P :=
  { s with
    mlqReadyQueue := Function.update s.mlqReadyQueue (F.prio proc) (enqueue (s.mlqReadyQueue (F.prio proc)) proc)
    runningList := enqueue s.runningList proc }

variable {F : PcbFields P} {s s' : SchedT P} {act : SchedAct P} {r : Option P} {proc : P}

inductive SchedOutcome (F : PcbFields P) (s : SchedT P) : SchedAct P → Option P → SchedT P → Prop
  | enter {act : SchedAct P} {proc : P} (hact : act.enters = some proc) (hprio : F.prio proc < MAX_PRIO) :
      SchedOutcome F s act none (s.enter F proc)
  | idle (h : ∀ l < MAX_PRIO, s.level l = []) : SchedOutcome F s .get none { s with currPrio := 0, currSlot := 0 }
  | dispatch {prio : Nat} {proc : P} {q : QueueT P} {l₁ l₂ : List P} (hprio : prio < MAX_PRIO)
      (hlow : ∀ l < prio, s.level l = []) (hq : Dequeued F.priority (s.mlqReadyQueue prio) proc q l₁ l₂) :
      SchedOutcome F s .get (some proc)
        (updateSlot { s with mlqReadyQueue := Function.update s.mlqReadyQueue prio q } prio)

theorem getMlqProcLoop_spec (F : PcbFields P) (s : SchedT P) {left : Nat} (hleft : left ≤ MAX_PRIO)
    (hlow : ∀ l < MAX_PRIO - left, s.level l = []) :
    (getMlqProcLoop F s left = none ∧ ∀ l < MAX_PRIO, s.level l = []) ∨
    ∃ prio proc q l₁ l₂, prio < MAX_PRIO ∧ (∀ l < prio, s.level l = []) ∧
      Dequeued F.priority (s.mlqReadyQueue prio) proc q l₁ l₂ ∧ getMlqProcLoop F s left =
        some (proc, updateSlot { s with mlqReadyQueue := Function.update s.mlqReadyQueue prio q } prio) := by
  induction left with
  | zero => exact .inl ⟨rfl, hlow⟩
  | succ left ih =>
    rw [getMlqProcLoop]
    obtain ⟨prio, hp⟩ : ∃ prio, prio = MAX_PRIO - (left + 1) := ⟨_, rfl⟩
    rw [← hp] at hlow ⊢
    by_cases he : s.level prio = []
    · rw [if_neg (by rw [empty_iff.mpr he]; decide)]
      refine ih (by omega) fun l hl => ?_
      by_cases hl' : l < prio
      · exact hlow l hl'
      · rw [show l = prio by omega]
        exact he
    · have hempty : empty (s.mlqReadyQueue prio) = false := by
        rw [← Bool.not_eq_true, empty_iff]
        exact he
      obtain ⟨proc, q, l₁, l₂, hdeq, hq⟩ : ∃ proc q l₁ l₂,
          dequeue F.priority (s.mlqReadyQueue prio) = (some proc, q) ∧ Dequeued _ _ proc q l₁ l₂ := dequeue_spec he
      rw [hempty]
      simp only [Bool.not_false, if_true, hdeq]
      exact .inr ⟨_, proc, q, l₁, l₂, by omega, hlow, hq, rfl⟩

theorem putProc_ok (h : putProc F s proc = .ok s') : F.prio proc < MAX_PRIO ∧ s' = s.enter F proc := by
  simp only [putProc, putMlqProc] at h
  split at h
  · next hprio =>
    cases h
    exact ⟨hprio, rfl⟩
  · cases h

theorem addProc_ok (h : addProc F s proc = .ok s') : F.prio proc < MAX_PRIO ∧ s' = s.enter F proc := putProc_ok h

/-- A call succeeds with one of its outcomes. -/
theorem schedStep_cases (h : schedStep F s act = .ok (r, s')) : SchedOutcome F s act r s' := by
  cases act with
  | add proc =>
    obtain ⟨s₁, hadd, hret⟩ := Exec.bind_ok.mp h
    cases hret
    obtain ⟨hprio, rfl⟩ := addProc_ok hadd
    exact .enter rfl hprio
  | put proc =>
    obtain ⟨s₁, hput, hret⟩ := Exec.bind_ok.mp h
    cases hret
    obtain ⟨hprio, rfl⟩ := putProc_ok hput
    exact .enter rfl hprio
  | get =>
    have hret : getProc F s = (r, s') := Except.ok.inj h
    rw [getProc, getMlqProc] at hret
    rcases getMlqProcLoop_spec F s (Nat.le_refl MAX_PRIO) (fun l hl => by omega) with
      ⟨hnone, hall⟩ | ⟨prio, proc, q, l₁, l₂, hprio, hlow, hq, hsome⟩
    · rw [hnone] at hret
      cases hret
      exact .idle hall
    · rw [hsome] at hret
      cases hret
      exact .dispatch hprio hlow hq

theorem getProc_outcome (F : PcbFields P) (s : SchedT P) : SchedOutcome F s .get (getProc F s).1 (getProc F s).2 :=
  schedStep_cases rfl

/-! ## Levels -/

theorem updateSlot_level (s : SchedT P) (prio l : Nat) : (updateSlot s prio).level l = s.level l := by
  unfold updateSlot
  dsimp only
  split
  · split
    · rfl
    · rfl
  · rfl

theorem updateSlot_slot (s : SchedT P) (prio : Nat) : (updateSlot s prio).slot = s.slot := by
  unfold updateSlot
  dsimp only
  split
  · split
    · rfl
    · rfl
  · rfl

theorem updateSlot_runningList (s : SchedT P) (prio : Nat) : (updateSlot s prio).runningList = s.runningList := by
  unfold updateSlot
  dsimp only
  split
  · split
    · rfl
    · rfl
  · rfl

theorem level_update (s : SchedT P) (prio : Nat) (q : QueueT P) (l : Nat) :
    SchedT.level { s with mlqReadyQueue := Function.update s.mlqReadyQueue prio q } l =
      if l = prio then q.proc else s.level l := by
  simp only [SchedT.level, Function.update_apply]
  split <;> rfl

theorem enter_level (s : SchedT P) (proc : P) (l : Nat) : (s.enter F proc).level l =
    if l = F.prio proc ∧ (s.level l).length < MAX_QUEUE_SIZE then s.level l ++ [proc] else s.level l := by
  show (Function.update s.mlqReadyQueue (F.prio proc) (enqueue (s.mlqReadyQueue (F.prio proc)) proc) l).proc = _
  rw [Function.update_apply]
  by_cases hl : l = F.prio proc
  · subst hl
    rw [if_pos rfl]
    by_cases hfull : (s.level (F.prio proc)).length < MAX_QUEUE_SIZE
    · rw [if_pos ⟨rfl, hfull⟩, enqueue_of_lt hfull]
      rfl
    · rw [if_neg fun h => hfull h.2, enqueue_of_full (Nat.le_of_not_lt hfull)]
      rfl
  · rw [if_neg hl, if_neg fun h => hl h.1]
    rfl

theorem dispatch_level {prio : Nat} {q : QueueT P} {l₁ l₂ : List P}
    (hq : Dequeued F.priority (s.mlqReadyQueue prio) proc q l₁ l₂) (l : Nat) :
    (updateSlot { s with mlqReadyQueue := Function.update s.mlqReadyQueue prio q } prio).level l =
      if l = prio then l₁ ++ l₂ else s.level l := by
  rw [updateSlot_level, level_update, hq.after]

theorem enter_level_ne_nil {proc : P} {l : Nat} (hl : s.level l ≠ []) : (s.enter F proc).level l ≠ [] := by
  rw [enter_level]
  split
  · exact List.append_ne_nil_of_left_ne_nil hl _
  · exact hl

theorem dispatch_level_of_ne {prio l : Nat} {proc : P} {q : QueueT P} {l₁ l₂ : List P}
    (hq : Dequeued F.priority (s.mlqReadyQueue prio) proc q l₁ l₂) (hl : l ≠ prio) :
    (updateSlot { s with mlqReadyQueue := Function.update s.mlqReadyQueue prio q } prio).level l = s.level l := by
  rw [dispatch_level hq, if_neg hl]

/-- Processes wait in the level of their `prio`, and the quotas are as initialised. -/
structure SchedT.Ok (F : PcbFields P) (s : SchedT P) : Prop where
  prio : ∀ l, ∀ proc ∈ s.level l, F.prio proc = l
  slot : ∀ l, s.slot l = MAX_PRIO - l

theorem Dequeued.prio_eq {prio : Nat} {proc : P} {q : QueueT P} {l₁ l₂ : List P} (hs : s.Ok F)
    (hq : Dequeued F.priority (s.mlqReadyQueue prio) proc q l₁ l₂) : F.prio proc = prio := by
  apply hs.prio prio proc
  rw [SchedT.level, hq.before]
  exact List.mem_append_right _ List.mem_cons_self

theorem init_ok : (SchedT.init : SchedT P).Ok F where
  prio := fun _ _ h => absurd h List.not_mem_nil
  slot := fun _ => rfl

theorem SchedOutcome.ok (hs : s.Ok F) (h : SchedOutcome F s act r s') : s'.Ok F := by
  cases h with
  | @enter _ proc hact hprio =>
    refine ⟨fun l x hx => ?_, hs.slot⟩
    rw [enter_level] at hx
    split at hx
    · next hl =>
      rcases List.mem_append.mp hx with hx | hx
      · exact hs.prio l x hx
      · rw [List.mem_singleton.mp hx]
        exact hl.1.symm
    · exact hs.prio l x hx
  | idle => exact ⟨hs.prio, hs.slot⟩
  | @dispatch prio proc q l₁ l₂ hprio hlow hq =>
    refine ⟨fun l x hx => ?_, fun l => by rw [updateSlot_slot]; exact hs.slot l⟩
    rw [dispatch_level hq] at hx
    split at hx
    · next hl =>
      subst hl
      refine hs.prio l x ?_
      rw [SchedT.level, hq.before]
      rcases List.mem_append.mp hx with hx | hx
      · exact List.mem_append_left _ hx
      · exact List.mem_append_right _ (List.mem_cons_of_mem _ hx)
    · exact hs.prio l x hx

theorem SchedT.Ok.enter (hs : s.Ok F) (hprio : F.prio proc < MAX_PRIO) : (s.enter F proc).Ok F := by
  have hput : SchedOutcome F s (.put proc) none (s.enter F proc) := .enter rfl hprio
  exact hput.ok hs

theorem schedStep_ok (hs : s.Ok F) (h : schedStep F s act = .ok (r, s')) : s'.Ok F := (schedStep_cases h).ok hs

/-- In every state reached processes wait in the level of their `prio`. -/
theorem run_ok {h : SchedHistory P} (hrun : Run (schedStep F) SchedT.init h s) : s.Ok F :=
  hrun.invariant (I := fun _ s => s.Ok F) init_ok fun _ _ _ _ _ _ hs h => schedStep_ok hs h

end SimpleOs.Sched
