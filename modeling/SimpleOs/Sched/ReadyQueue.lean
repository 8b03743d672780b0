import SimpleOs.Lib.StableQueue
import SimpleOs.Sched.Mlq

/-!
# The scheduler as one queue

* `readyStep` : one stable queue for all processes, by `prio` and then `priority`, with room for `MAX_QUEUE_SIZE` of
  each `prio`;
* `Represents` : the levels are the parts of the queue; `represents_step` : a call keeps them so;
* `scheduler_refines_queue` : to its callers the scheduler is that queue;
* `aheadOf`, `bounded_bypass` : what goes before a process that waits.
-/

namespace SimpleOs.Sched

variable {P : Type}

/-- What decides who is next. -/
abbrev PcbFields.key (F : PcbFields P) : P → Nat ×ₗ Nat := classKey F.prio F.priority

/-- The queue with `proc` at its end, if there is room. -/
def insertReady (F : PcbFields P) (w : List P) (proc : P) : List P :=
  if (w.filter (F.prio · = F.prio proc)).length < MAX_QUEUE_SIZE then w ++ [proc] else w

/-- A call, for one queue. -/
def readyStep (F : PcbFields P) (w : List P) : SchedAct P → Exec (Option P × List P)
  | .add proc | .put proc =>
    if F.prio proc < MAX_PRIO then .ok (none, insertReady F w proc) else .error (.mlqReadyQueue (F.prio proc))
  | .get =>
    match takeLeast F.key w with
    | none => .ok (none, w)
    | some (proc, w) => .ok (some proc, w)

/-- A level is the part of the queue with its `prio`. -/
structure Represents (F : PcbFields P) (s : SchedT P) (w : List P) : Prop where
  level : ∀ l, s.level l = w.filter (F.prio · = l)
  prio : ∀ x ∈ w, F.prio x < MAX_PRIO

variable {F : PcbFields P} {s s' : SchedT P} {w w' : List P} {act : SchedAct P} {r : Option P} {proc : P}
  {l₁ l₂ : List P}

theorem represents_init : Represents F SchedT.init [] where
  level := fun _ => rfl
  prio := fun _ h => absurd h List.not_mem_nil

theorem readyStep_enter (hact : act.enters = some proc) (hprio : F.prio proc < MAX_PRIO) :
    readyStep F w act = .ok (none, insertReady F w proc) := by
  cases act with
  | add x | put x =>
    cases hact
    exact if_pos hprio
  | get => cases hact

theorem enter_prio (hx : readyStep F w act = .ok (r, w')) (hact : act.enters = some proc) : F.prio proc < MAX_PRIO := by
  by_contra hprio
  cases act with
  | add x | put x =>
    cases hact
    dsimp only [readyStep] at hx
    rw [if_neg hprio] at hx
    cases hx
  | get => cases hact

theorem Represents.enter (hR : Represents F s w) (hprio : F.prio proc < MAX_PRIO) :
    Represents F (s.enter F proc) (insertReady F w proc) := by
  have hroom : (s.level (F.prio proc)).length < MAX_QUEUE_SIZE ↔
      (w.filter (F.prio · = F.prio proc)).length < MAX_QUEUE_SIZE := by rw [hR.level]
  refine ⟨fun l => ?_, fun x hx => ?_⟩
  · rw [enter_level]
    unfold insertReady
    by_cases hl : l = F.prio proc
    · subst hl
      by_cases hlt : (s.level (F.prio proc)).length < MAX_QUEUE_SIZE
      · rw [if_pos ⟨rfl, hlt⟩, if_pos (hroom.mp hlt), List.filter_append, hR.level]
        simp
      · rw [if_neg fun h => hlt h.2, if_neg fun h => hlt (hroom.mpr h), hR.level]
    · rw [if_neg fun h => hl h.1, hR.level]
      split
      · rw [List.filter_append, List.filter_cons_of_neg (by simpa using Ne.symm hl), List.filter_nil, List.append_nil]
      · rfl
  · unfold insertReady at hx
    split at hx
    · rcases List.mem_append.mp hx with hx | hx
      · exact hR.prio x hx
      · rwa [List.mem_singleton.mp hx]
    · exact hR.prio x hx

theorem Represents.eq_nil (hR : Represents F s w) (hall : ∀ l < MAX_PRIO, s.level l = []) : w = [] := by
  rw [List.eq_nil_iff_forall_not_mem]
  intro x hx
  have hlevel := hall (F.prio x) (hR.prio x hx)
  rw [hR.level, List.filter_eq_nil_iff] at hlevel
  exact hlevel x hx (decide_eq_true rfl)

/-- The process dispatched is the next of the queue. -/
theorem Represents.dispatch (hR : Represents F s w) {prio : Nat} {q : QueueT P}
    (hlow : ∀ l < prio, s.level l = []) (hq : Dequeued F.priority (s.mlqReadyQueue prio) proc q l₁ l₂) :
    ∃ w', takeLeast F.key w = some (proc, w') ∧
      Represents F (updateSlot { s with mlqReadyQueue := Function.update s.mlqReadyQueue prio q } prio) w' := by
  have hw : w.filter (F.prio · = prio) = l₁ ++ proc :: l₂ := (hR.level prio).symm.trans hq.before
  have hleast : ∀ y ∈ w, prio ≤ F.prio y := by
    intro y hy
    by_contra hlt
    have hlevel := hlow (F.prio y) (Nat.lt_of_not_le hlt)
    rw [hR.level, List.filter_eq_nil_iff] at hlevel
    exact hlevel y hy (decide_eq_true rfl)
  have hfirst : FirstLeast F.priority l₁ proc l₂ := ⟨hq.left, hq.right⟩
  obtain ⟨w₁, w₂, rfl, hproc, hnext, hw₁, hw₂⟩ := hfirst.of_class hw hleast
  refine ⟨w₁ ++ w₂, takeLeast_eq hnext, fun l => ?_, fun x hx => hR.prio x ?_⟩
  · rw [dispatch_level hq]
    by_cases hl : l = prio
    · subst hl
      rw [if_pos rfl, List.filter_append, hw₁, hw₂]
    · rw [if_neg hl, hR.level, List.filter_append, List.filter_append,
        List.filter_cons_of_neg (by rw [hproc]; simpa using Ne.symm hl)]
  · rcases List.mem_append.mp hx with hx | hx
    · exact List.mem_append_left _ hx
    · exact List.mem_append_right _ (List.mem_cons_of_mem _ hx)

/-- A call of the scheduler is a call of the queue, with the same result. -/
theorem represents_step (hR : Represents F s w) (hx : schedStep F s act = .ok (r, s')) :
    ∃ w', readyStep F w act = .ok (r, w') ∧ Represents F s' w' := by
  cases schedStep_cases hx with
  | enter hact hprio => exact ⟨_, readyStep_enter hact hprio, hR.enter hprio⟩
  | idle hall =>
    obtain rfl := hR.eq_nil hall
    exact ⟨[], rfl, hR.level, hR.prio⟩
  | dispatch hprio hlow hq =>
    obtain ⟨w', htake, hR'⟩ := hR.dispatch hlow hq
    refine ⟨w', ?_, hR'⟩
    unfold readyStep
    rw [htake]

/-- And the other way round: the scheduler serves every call that the queue serves. -/
theorem represented_step (hR : Represents F s w) (hx : readyStep F w act = .ok (r, w')) :
    ∃ s', schedStep F s act = .ok (r, s') ∧ Represents F s' w' := by
  obtain ⟨r', s', hs⟩ : ∃ r' s', schedStep F s act = .ok (r', s') := by
    cases act with
    | get => exact ⟨_, _, rfl⟩
    | add proc | put proc =>
      have hprio := enter_prio hx rfl
      refine ⟨none, s.enter F proc, ?_⟩
      simp [schedStep, addProc, addMlqProc, putProc, putMlqProc, hprio, SchedT.enter]
  obtain ⟨w'', hw, hR'⟩ := represents_step hR hs
  cases hw.symm.trans hx
  exact ⟨s', hs, hR'⟩

/-- The scheduler is one stable priority queue: its calls and their results are those of a queue that is ordered by
`prio`, then `priority`, then arrival, and that has room for `MAX_QUEUE_SIZE` processes of each `prio` (one more is
dropped). The round of the levels by `curr_prio` and `curr_slot` does not show. -/
theorem scheduler_refines_queue (F : PcbFields P) (l : List (SchedAct P × Option P)) :
    Trace (schedStep F) SchedT.init l ↔ Trace (readyStep F) [] l := by
  constructor
  · exact Trace.simulate represents_init fun _ _ _ _ _ hR hx => represents_step hR hx
  · apply Trace.simulate (R := fun w s => Represents F s w) represents_init
    intro w s act r w' hR hx
    exact represented_step hR hx

/-! ## Who goes first -/

def waitingBelow (s : SchedT P) : Nat → Nat
  | 0 => 0
  | l + 1 => waitingBelow s l + (s.level l).length

/-- The processes that go before `x`, which waits in its level between `l₁` and `l₂`: those in the levels below,
before it those of no greater `priority`, and behind it those of a lesser one. Neither `x` nor its equals behind
it are counted. -/
def aheadOf (F : PcbFields P) (s : SchedT P) (l₁ : List P) (x : P) (l₂ : List P) : Nat :=
  waitingBelow s (F.prio x) + ahead F.priority l₁ x l₂

def SchedAct.isGet : SchedAct P → Bool
  | .get => true
  | _ => false

/-- A process enters that goes before `x` whenever it enters. -/
def SchedAct.overtakes (F : PcbFields P) (x : P) (act : SchedAct P) : Bool := act.enters.any fun y => F.key y < F.key x

variable {x y : P}

theorem Represents.waitingBelow_eq (hR : Represents F s w) (l : Nat) : waitingBelow s l = w.countP (F.prio · < l) := by
  induction l with
  | zero => simp [waitingBelow]
  | succ l ih =>
    have hsplit (w : List P) : w.countP (F.prio · < l + 1) = w.countP (F.prio · < l) + w.countP (F.prio · = l) := by
      induction w with
      | nil => rfl
      | cons y w ih =>
        simp only [List.countP_cons, ih, decide_eq_true_eq]
        split_ifs <;> omega
    rw [waitingBelow, ih, hR.level, ← List.countP_eq_length_filter, hsplit]

theorem Represents.split (hR : Represents F s w) (hx : s.level (F.prio x) = l₁ ++ x :: l₂) :
    ∃ w₁ w₂, w = w₁ ++ x :: w₂ ∧ ahead F.key w₁ x w₂ = aheadOf F s l₁ x l₂ := by
  have hlevel : w.filter (F.prio · = F.prio x) = l₁ ++ x :: l₂ := (hR.level _).symm.trans hx
  obtain ⟨a, b, rfl, ha, hb⟩ := List.filter_eq_append_iff.mp hlevel
  obtain ⟨c, w₂, rfl, hc, -, hw₂⟩ := List.filter_eq_cons_iff.mp hb
  have hw₁ : (a ++ c).filter (F.prio · = F.prio x) = l₁ := by
    rw [List.filter_append, ha, List.filter_eq_nil_iff.mpr hc, List.append_nil]
  refine ⟨a ++ c, w₂, (List.append_assoc a c _).symm, ?_⟩
  rw [ahead_classKey, hw₁, hw₂, aheadOf, hR.waitingBelow_eq, List.append_assoc]

theorem exists_represents {h : SchedHistory P} (hrun : Run (schedStep F) SchedT.init h s) : ∃ w, Represents F s w :=
  hrun.invariant (I := fun _ s => ∃ w, Represents F s w) ⟨[], represents_init⟩ fun _ _ _ _ _ _ hw hx => by
    obtain ⟨w, hR⟩ := hw
    obtain ⟨w', -, hR'⟩ := represents_step hR hx
    exact ⟨w', hR'⟩

/-- A call while `x` waits: it serves a process ahead of `x`, and only a process that overtakes gets ahead of it. -/
theorem ahead_step (hR : Represents F s (l₁ ++ x :: l₂)) (hx : schedStep F s act = .ok (r, s')) (hne : r ≠ some x) :
    ∃ l₁' l₂', Represents F s' (l₁' ++ x :: l₂') ∧
      (if act.isGet then 1 else 0) + ahead F.key l₁' x l₂' ≤
        ahead F.key l₁ x l₂ + if act.overtakes F x then 1 else 0 := by
  obtain ⟨w', hready, hR'⟩ := represents_step hR hx
  cases act with
  | add y | put y =>
    have hprio := enter_prio hready rfl
    rw [readyStep_enter rfl hprio] at hready
    cases hready
    unfold insertReady at hR'
    split at hR'
    · refine ⟨l₁, l₂ ++ [y], by rw [List.append_assoc] at hR'; exact hR', ?_⟩
      rw [ahead_insert]
      by_cases hlt : F.key y < F.key x
      · simp [SchedAct.isGet, SchedAct.overtakes, SchedAct.enters, hlt]
      · simp [SchedAct.isGet, SchedAct.overtakes, SchedAct.enters, hlt]
    · refine ⟨l₁, l₂, hR', ?_⟩
      simp [SchedAct.isGet]
  | get =>
    unfold readyStep at hready
    dsimp only at hready
    split at hready
    · next hnone => simp [takeLeast_eq_none] at hnone
    · next y rest hsome =>
      cases hready
      have hyx : y ≠ x := fun h => hne (congrArg some h)
      obtain ⟨l₁', l₂', rfl, hahead⟩ := ahead_take hsome hyx
      refine ⟨l₁', l₂', hR', ?_⟩
      rw [SchedAct.isGet, if_pos rfl]
      omega

/-- A process that waits is overtaken by lesser ones only: until it is dispatched, `get_proc` is called at most
as often as there are processes that go before it, and processes that enter meanwhile with a lesser `prio`, or
the same `prio` and a lesser `priority`. -/
theorem bounded_bypass {k h : SchedHistory P} {s₀ : SchedT P} (hrun₀ : Run (schedStep F) SchedT.init h s₀)
    (hx : s₀.level (F.prio x) = l₁ ++ x :: l₂) (hrun : Run (schedStep F) s₀ k s) (hwait : ∀ e ∈ k, e.res ≠ some x) :
    k.countP (·.act.isGet) ≤ aheadOf F s₀ l₁ x l₂ + k.countP (·.act.overtakes F x) := by
  suffices ∃ w₁ w₂, Represents F s (w₁ ++ x :: w₂) ∧
      k.countP (·.act.isGet) + ahead F.key w₁ x w₂ ≤ aheadOf F s₀ l₁ x l₂ + k.countP (·.act.overtakes F x) by
    obtain ⟨w₁, w₂, -, hle⟩ := this
    omega
  induction hrun with
  | start =>
    obtain ⟨w, hR⟩ := exists_represents hrun₀
    obtain ⟨w₁, w₂, rfl, hahead⟩ := hR.split hx
    refine ⟨w₁, w₂, hR, ?_⟩
    rw [List.countP_nil, List.countP_nil, Nat.zero_add, Nat.add_zero]
    exact hahead.le
  | next hrun hstep ih =>
    rw [List.forall_mem_cons] at hwait
    obtain ⟨w₁, w₂, hR, hle⟩ := ih hwait.2
    obtain ⟨w₁', w₂', hR', hstep⟩ := ahead_step hR hstep hwait.1
    refine ⟨w₁', w₂', hR', ?_⟩
    rw [List.countP_cons, List.countP_cons]
    dsimp only
    omega

def oneFirst : PcbFields Nat := ⟨fun _ => 0, fun x => if x = 0 then 0 else 3⟩

def oneWaits : SchedT Nat := (SchedT.init.enter oneFirst 2).enter oneFirst 1

/-- Process 0 overtakes it, and the bound is reached. -/
theorem bounded_bypass_twice :
    ∃ k s, Run (schedStep oneFirst) oneWaits k s ∧ k.map Entry.res = [some 0, none, some 2] ∧
      aheadOf oneFirst oneWaits [2] 1 [] = 1 ∧
      2 ≤ aheadOf oneFirst oneWaits [2] 1 [] + k.countP (·.act.overtakes oneFirst 1) := by
  have hrun₀ : Run (schedStep oneFirst) SchedT.init [⟨_, .add 1, none⟩, ⟨_, .add 2, none⟩] oneWaits :=
    .next (.next .start rfl) rfl
  have hrun : Run (schedStep oneFirst) oneWaits [⟨_, .get, some 0⟩, ⟨_, .put 0, none⟩, ⟨_, .get, some 2⟩] _ :=
    .next (.next (.next .start rfl) rfl) rfl
  exact ⟨_, _, hrun, rfl, by decide, bounded_bypass hrun₀ (by decide) hrun (by simp)⟩

end SimpleOs.Sched
