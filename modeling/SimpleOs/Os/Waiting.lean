import Mathlib.Algebra.BigOperators.Group.Finset.Piecewise
import Mathlib.Algebra.BigOperators.Ring.Finset
import Mathlib.Algebra.Order.BigOperators.Group.Finset
import SimpleOs.Os.Stopping
import SimpleOs.Os.TimeSlice
import SimpleOs.Sched.ReadyQueue

/-!
# Waiting for a CPU

* `schedCall`, `taken` : the call of the scheduler in a step, and the process the thread then holds; `sched_step`;
* `schedTrace`, `shared_queue` : the calls of all threads are those of one stable queue;
* `CpuSt.TimeOk`, `CpuSt.slack` : `time_left`, and the calls of `next_slot` before the next `get_proc`; `slack_move`;
* `calls_le` : a CPU calls `get_proc` at least once in `time_slot` slots;
* `Waits`, `slots_le` : so a process waits for as many slots as the processes before it can take.
-/

namespace SimpleOs.Os
open SimpleOs.Sched

variable {P I : Type} {C : OsConfig P I} {s s' : OsSys P I} {i : Nat} {act : OsAct} {r : Unit}

/-! ## The calls of the scheduler -/

def CpuSt.fetches (c : CpuSt P) : Bool :=
  match c.pc, c.proc with
  | .top, none => true
  | .reload _, _ => true
  | _, _ => false

def cpuCall (C : OsConfig P I) (s : OsSys P I) (i : Nat) : Option (SchedAct P) :=
  if (s.cpu i).fetches then some .get
  else
    match (s.cpu i).pc, (s.cpu i).proc with
    | .top, some proc =>
      if s.procPc proc = (C.text proc).length then none
      else if (s.cpu i).timeLeft = 0 then some (.put proc) else none
    | _, _ => none

def ldCall (s : OsSys P I) (early : Bool) : Option (SchedAct P) :=
  match s.ld.pc, s.ld.rest with
  | .check, proc :: _ => if early then none else some (.add proc)
  | _, _ => none

def schedCall (C : OsConfig P I) (s : OsSys P I) : OsAct → Option (SchedAct P)
  | .cpu i => cpuCall C s i
  | .ld early => ldCall s early

def taken (s : OsSys P I) : OsAct → Option P
  | .cpu i => (s.cpu i).proc
  | .ld _ => none

def SchedMoves (C : OsConfig P I) (s : OsSys P I) (act : OsAct) (s' : OsSys P I) : Prop :=
  match schedCall C s act with
  | none => s'.sched = s.sched
  | some call => schedStep C.fields s.sched call = .ok (taken s' act, s'.sched)

section Steps
variable [DecidableEq P]

theorem cpu_sched (hx : cpuRoutine C s i = .ok s') : SchedMoves C s (.cpu i) s' := by
  unfold SchedMoves schedCall cpuCall CpuSt.fetches
  unfold cpuRoutine at hx
  dsimp only at hx
  split at hx
  · next hpc =>
    split at hx
    · next hproc =>
      cases hx
      simp [hpc, hproc, taken, schedStep]
    · next proc hproc =>
      split at hx
      · next hend =>
        cases hx
        simp [hpc, hproc, hend, OsSys.setCpu]
      · next hend =>
        split at hx
        · next htime =>
          split at hx
          · next hput =>
            cases hx
            simp [hpc, hproc, hend, htime, taken, schedStep, hput]
          · cases hx
        · next htime =>
          cases hx
          simp [hpc, hproc, hend, htime, OsSys.setCpu]
  · next hpc =>
    cases hx
    simp [hpc, taken, schedStep]
  · next hpc =>
    split at hx
    · cases hx
      simp [hpc, OsSys.setCpu]
    · cases hx
      simp [hpc, OsSys.setCpu]
  · next hpc =>
    split at hx
    · cases hx
    · cases hx
      simp [hpc, OsSys.setCpu, run_sched]
  · next hpc =>
    cases hx
    simp [hpc, OsSys.setCpu]
  · next hpc =>
    split at hx
    · cases hx
      simp [hpc, OsSys.setCpu]
    · cases hx
  · next hpc =>
    cases hx
    simp [hpc, OsSys.setCpu]
  · cases hx

omit [DecidableEq P] in
theorem ld_sched {early : Bool} (hx : ldRoutine C s early = .ok s') : SchedMoves C s (.ld early) s' := by
  unfold SchedMoves schedCall ldCall
  unfold ldRoutine at hx
  split at hx
  · cases hx
  · next hpc hrest =>
    split at hx
    · next hearly =>
      cases hx
      simp [hpc, hrest, hearly]
    · next hearly =>
      split at hx
      · next hadd =>
        cases hx
        simp [hpc, hrest, hearly, taken, schedStep, hadd]
      · cases hx
  all_goals
    next hpc =>
    try split at hx
    all_goals
      cases hx
      try simp [hpc]

/-- A step calls the scheduler as the thread's code says, and the thread takes what the call returns. -/
theorem sched_step (hx : osStep C s act = .ok (r, s')) : SchedMoves C s act s' := by
  cases act with
  | cpu i => exact cpu_sched (cpuRoutine_of_osStep hx)
  | ld early =>
    unfold osStep at hx
    dsimp only at hx
    split at hx
    · next hld =>
      cases hx
      exact ld_sched hld
    · cases hx

/-! ## One queue for all threads -/

/-- The calls of the scheduler in a run to `s`, with what they return. -/
def schedTrace (C : OsConfig P I) : OsHistory P I → OsSys P I → List (SchedAct P × Option P)
  | [], _ => []
  | e :: h, s => ((schedCall C e.before e.act).map (·, taken s e.act)).toList ++ schedTrace C h e.before

theorem queue_run {h : OsHistory P I} (hrun : Run (osStep C) (.boot C) h s) :
    ∃ w, Reaches (readyStep C.fields) [] (schedTrace C h s) w ∧ Represents C.fields s.sched w := by
  induction hrun with
  | start => exact ⟨[], reaches_nil.mpr rfl, represents_init⟩
  | next hrun hx ih =>
    obtain ⟨w, hw, hR⟩ := ih
    have hmoves := sched_step hx
    unfold SchedMoves at hmoves
    unfold schedTrace
    dsimp only
    split at hmoves
    · next hcall =>
      rw [hcall, hmoves]
      exact ⟨w, hw, hR⟩
    · next call hcall =>
      obtain ⟨w', hready, hR'⟩ := represents_step hR hmoves
      rw [hcall]
      exact ⟨w', reaches_cons.mpr ⟨w, hw, hready⟩, hR'⟩

/-- The threads share one stable queue: in every interleaving, what the CPUs and the loader put in the scheduler
and take from it, in the order of their steps, is what they would put in one queue that is ordered by `prio`,
then `priority`, then arrival, and take from it. -/
theorem shared_queue {h : OsHistory P I} (hrun : Run (osStep C) (.boot C) h s) :
    Trace (readyStep C.fields) [] (schedTrace C h s) := by
  obtain ⟨w, hw, -⟩ := queue_run hrun
  exact ⟨w, hw⟩

theorem shared_queue_twoProcs : ∃ (h : OsHistory Nat Char) (s : OsSys Nat Char), h.map Entry.act = twoProcsRun ∧
    Trace (readyStep twoProcs.fields) [] (schedTrace twoProcs h s) := by
  obtain ⟨h, s, hrun, hact, -⟩ := exists_run_of_replay (osStep twoProcs) (.boot twoProcs) twoProcsRun
    (fun _ _ => true) (by decide +kernel)
  exact ⟨h, s, hact, shared_queue hrun⟩

end Steps

/-! ## The slots of a CPU -/

/-- `time_left` is what is left of a slice, and 0 without a process, but for what a process that finished left. -/
structure CpuSt.TimeOk (timeSlot : Int) (c : CpuSt P) : Prop where
  nonneg : c.pc ≠ .reload true → 0 ≤ c.timeLeft
  le : c.pc ≠ .reload true → c.timeLeft ≤ timeSlot
  idle : c.proc = none → c.pc ≠ .reload true → c.timeLeft = 0
  ok : c.Ok

/-- The calls of `next_slot` before the next call of `get_proc`. -/
def CpuSt.slack (timeSlot : Int) (c : CpuSt P) : Int :=
  match c.pc with
  | .top | .run | .inSlot => c.timeLeft
  | .toCall => c.timeLeft + 1
  | .recheck => if c.proc.isNone then 1 else if c.timeLeft = 0 then timeSlot else c.timeLeft
  | .reload _ | .leaving | .stopped => 0

theorem timeOk_of_state {timeSlot : Int} {h : LoopHistory P} {c : CpuSt P} (hslot : 1 ≤ timeSlot) (hok : c.Ok)
    (hstate : LoopState timeSlot h c) : c.TimeOk timeSlot := by
  cases hstate with
  | idle hproc hslice htime =>
    refine ⟨fun hpc => (htime hpc).ge, fun hpc => ?_, fun _ => htime, hok⟩
    rw [htime hpc]
    omega
  | fresh hproc hpc hslice htime => exact ⟨fun _ => htime.ge, fun _ => by omega, fun _ _ => htime, hok⟩
  | active hproc hslice htime hn =>
    refine ⟨fun _ => by omega, fun _ => by omega, fun hnone => ?_, hok⟩
    cases hproc.symm.trans hnone

variable {timeSlot : Int}

theorem CpuSt.TimeOk.slack_nonneg {c : CpuSt P} (hslot : 1 ≤ timeSlot) (hc : c.TimeOk timeSlot) :
    0 ≤ c.slack timeSlot := by
  unfold CpuSt.slack
  split
  · next hpc => exact hc.nonneg (by simp [hpc])
  · next hpc => exact hc.nonneg (by simp [hpc])
  · next hpc => exact hc.nonneg (by simp [hpc])
  · next hpc =>
    have hnonneg := hc.nonneg (by simp [hpc])
    omega
  · next hpc =>
    have hnonneg := hc.nonneg (by simp [hpc])
    split_ifs <;> omega
  all_goals exact Int.le_refl 0

theorem CpuSt.TimeOk.slack_of_fetches {c : CpuSt P} (hc : c.TimeOk timeSlot) (hfetch : c.fetches = true) :
    c.slack timeSlot = 0 := by
  unfold CpuSt.fetches at hfetch
  unfold CpuSt.slack
  split at hfetch
  · next hpc hproc =>
    rw [hpc]
    exact hc.idle hproc (by simp [hpc])
  · next hpc => rw [hpc]
  · cases hfetch

section Loop
variable [DecidableEq P] {codeSize : P → Nat} {t t' : CpuLoop P} {event : CpuEvent P}

/-- A slot takes the CPU nearer to its next `get_proc`, which is never more than `time_slot` slots away. -/
theorem slack_move (hslot : 1 ≤ timeSlot) (hc : t.cpu.TimeOk timeSlot) (hmove : LoopMove codeSize timeSlot t event t') :
    t'.cpu.calls + t'.cpu.slack timeSlot ≤
      if t.cpu.fetches then t.cpu.calls + timeSlot else t.cpu.calls + t.cpu.slack timeSlot := by
  have hnonneg := hc.nonneg
  have hidle := hc.idle
  have hok := hc.ok
  cases hmove with
  | @fetch got hpc hproc =>
    have htime := hidle hproc (by simp [hpc])
    cases got with
    | none => simp [CpuSt.slack, CpuSt.fetches, hpc, hproc, htime, hslot]
    | some => simp [CpuSt.slack, CpuSt.fetches, hpc, hproc, htime]
  | finish hpc hproc =>
    have hleft := hnonneg (by simp [hpc])
    simpa [CpuSt.slack, CpuSt.fetches, hpc, hproc] using hleft
  | put hpc hproc hend htime => simp [CpuSt.slack, CpuSt.fetches, hpc, hproc, htime]
  | keep hpc hproc htime => simp [CpuSt.slack, CpuSt.fetches, hpc, hproc, htime]
  | @reload freed got hpc =>
    have hproc : t.cpu.proc = none := by
      rw [CpuSt.Ok, hpc] at hok
      exact hok
    have htime : (if freed then 0 else t.cpu.timeLeft) = 0 := by
      split
      · rfl
      · next hfreed => exact hidle hproc (by simpa [hpc] using hfreed)
    cases got with
    | none => simp [CpuSt.slack, CpuSt.fetches, hpc, hslot]
    | some => simp [CpuSt.slack, CpuSt.fetches, hpc, htime]
  | @skip done hpc hproc =>
    have htime := hidle hproc (by simp [hpc])
    cases done with
    | false => simp [CpuSt.slack, CpuSt.fetches, hpc, hproc, htime]
    | true => simp [CpuSt.slack, CpuSt.fetches, hpc, hproc]
  | dispatch hpc hproc htime => simp [CpuSt.slack, CpuSt.fetches, hpc, hproc, htime]
  | resume hpc hproc htime => simp [CpuSt.slack, CpuSt.fetches, hpc, hproc, htime]
  | run hpc hproc => simp [CpuSt.slack, CpuSt.fetches, hpc]
  | call hpc =>
    simp [CpuSt.slack, CpuSt.fetches, hpc]
    omega
  | pass hpc => simp [CpuSt.slack, CpuSt.fetches, hpc]
  | detach hpc => simp [CpuSt.slack, CpuSt.fetches, hpc]
  | elsewhere =>
    split
    · next hfetch =>
      have hslack := hc.slack_of_fetches hfetch
      dsimp only
      omega
    · exact Int.le_refl _

end Loop

/-! ## The calls of `get_proc` -/

def fetches (s : OsSys P I) : OsAct → Bool
  | .cpu i => (s.cpu i).fetches
  | .ld _ => false

def Waits (C : OsConfig P I) (s : OsSys P I) (x : P) : Prop := x ∈ s.sched.level (C.fields.prio x)

/-- A process enters the scheduler that goes before `x` whenever it enters. -/
def overtakes (C : OsConfig P I) (x : P) (s : OsSys P I) (act : OsAct) : Bool :=
  (schedCall C s act).any fun call => call.overtakes C.fields x

variable {x : P}

theorem fetches_of_none (hcall : schedCall C s act = none) : fetches s act = false := by
  cases act with
  | ld early => rfl
  | cpu i =>
    rw [← Bool.not_eq_true]
    intro (hfetch : (s.cpu i).fetches = true)
    unfold schedCall cpuCall at hcall
    dsimp only at hcall
    rw [if_pos hfetch] at hcall
    cases hcall

theorem fetches_of_some {call : SchedAct P} (hcall : schedCall C s act = some call) : fetches s act = call.isGet := by
  cases act with
  | ld early =>
    unfold schedCall ldCall at hcall
    dsimp only at hcall
    split at hcall
    · split at hcall
      · cases hcall
      · cases hcall
        rfl
    · cases hcall
  | cpu i =>
    unfold schedCall cpuCall at hcall
    dsimp only at hcall
    split at hcall
    · next hfetch =>
      cases hcall
      exact hfetch
    · next hfetch =>
      rw [Bool.not_eq_true] at hfetch
      split at hcall
      · split_ifs at hcall
        cases hcall
        exact hfetch
      · cases hcall

theorem not_taken {F : PcbFields P} {t t' : SchedT P} {call : SchedAct P} {o : Option P} {l : Nat} (hok : t.Ok F)
    (honce : ∀ l, (t.level l).Nodup) (hx : schedStep F t call = .ok (o, t')) (hmem : x ∈ t'.level l) : o ≠ some x := by
  have hout := schedStep_cases hx
  cases call with
  | get => exact ((get_levels hok honce hout).1 l x hmem).2
  | add y | put y =>
    cases hout
    exact Option.some_ne_none x |>.symm

def fetchesOf (i : Nat) (k : OsHistory P I) : Nat := k.countP fun e => e.act = .cpu i ∧ fetches e.before e.act

section Run
variable [DecidableEq P] {h k : OsHistory P I} {s₀ : OsSys P I} {l₁ l₂ : List P}

theorem timeOk_run (hslot : 1 ≤ C.timeSlot) (hrun : Run (osStep C) (.boot C) h s) (i : Nat) :
    (s.cpu i).TimeOk C.timeSlot := by
  obtain ⟨k, hk, -⟩ := cpu_loop_of_run hrun i
  have hok := loopOk_run hslot hk
  exact timeOk_of_state hslot hok.cpu hok.state

theorem slack_step (hslot : 1 ≤ C.timeSlot) (hc : (s.cpu i).TimeOk C.timeSlot) (hx : osStep C s act = .ok (r, s')) :
    (s'.cpu i).calls + (s'.cpu i).slack C.timeSlot ≤
      if act = .cpu i ∧ fetches s act then (s.cpu i).calls + C.timeSlot
      else (s.cpu i).calls + (s.cpu i).slack C.timeSlot := by
  cases act with
  | ld early =>
    have hcpu : s'.cpu = s.cpu := LdMove.cpu (osStep_move hx)
    rw [hcpu, if_neg (by simp)]
  | cpu j =>
    by_cases hj : j = i
    · subst hj
      obtain ⟨got, done, event, hnext⟩ := cpuLoopNext_of_cpuRoutine (cpuRoutine_of_osStep hx)
      have hmove := slack_move hslot hc (cpuLoopNext_move hnext)
      simp only [fetches, true_and]
      exact hmove
    · have hmove : CpuMove C s j s' := (osStep_move hx).2
      rw [hmove.other (Ne.symm hj), if_neg (by simp [hj])]

theorem calls_mono (hx : osStep C s act = .ok (r, s')) (i : Nat) : (s.cpu i).calls ≤ (s'.cpu i).calls := by
  cases act with
  | ld early =>
    have hcpu : s'.cpu = s.cpu := LdMove.cpu (osStep_move hx)
    rw [hcpu]
  | cpu j =>
    have hmove : CpuMove C s j s' := (osStep_move hx).2
    by_cases hj : i = j
    · subst hj
      cases hmove with
      | call =>
        rw [OsSys.setCpu_self]
        exact Nat.le_succ _
      | _ => exact Nat.le_of_eq (by simp only [OsSys.setCpu_self])
    · rw [hmove.other hj]

theorem calls_le_run (hrun : Run (osStep C) s₀ k s) (i : Nat) : (s₀.cpu i).calls ≤ (s.cpu i).calls :=
  hrun.invariant (I := fun _ s => (s₀.cpu i).calls ≤ (s.cpu i).calls) (Nat.le_refl _)
    fun _ _ _ _ _ _ hle hx => hle.trans (calls_mono hx i)

theorem slack_le_run (hslot : 1 ≤ C.timeSlot) (hrun : Run (osStep C) (.boot C) h s) (i : Nat) :
    (s.cpu i).slack C.timeSlot ≤ C.timeSlot := by
  have hboot : ((OsSys.boot C).cpu i).slack C.timeSlot ≤ C.timeSlot := by
    show (0 : Int) ≤ C.timeSlot
    omega
  refine hrun.invariant (I := fun _ s => (s.cpu i).slack C.timeSlot ≤ C.timeSlot) hboot ?_
  intro h s act r s' hrun hle hx
  have hstep := slack_step hslot (timeOk_run hslot hrun i) hx
  have hcalls := calls_mono hx i
  split_ifs at hstep <;> omega

/-- A CPU calls `get_proc` at least once in `time_slot` slots. -/
theorem calls_le (hslot : 1 ≤ C.timeSlot) (hrun₀ : Run (osStep C) (.boot C) h s₀) (hrun : Run (osStep C) s₀ k s)
    (i : Nat) : ((s.cpu i).calls : Int) ≤ (s₀.cpu i).calls + C.timeSlot * (fetchesOf i k + 1) := by
  suffices (s.cpu i).calls + (s.cpu i).slack C.timeSlot ≤
      (s₀.cpu i).calls + (s₀.cpu i).slack C.timeSlot + C.timeSlot * fetchesOf i k by
    have hle := slack_le_run hslot hrun₀ i
    have hnonneg := (timeOk_run hslot (hrun₀.append hrun) i).slack_nonneg hslot
    rw [Int.mul_add, Int.mul_one]
    omega
  induction hrun with
  | start => simp [fetchesOf]
  | @next k s s' act r hrun hx ih =>
    have hc := timeOk_run hslot (hrun₀.append hrun) i
    have hnonneg := hc.slack_nonneg hslot
    have hstep := slack_step hslot hc hx
    unfold fetchesOf at ih ⊢
    rw [List.countP_cons]
    by_cases hfetch : act = .cpu i ∧ fetches s act = true
    · rw [if_pos hfetch] at hstep
      rw [if_pos (decide_eq_true hfetch), Int.natCast_add, Int.mul_add]
      omega
    · rw [if_neg hfetch] at hstep
      rw [if_neg (by simpa using hfetch), Nat.add_zero]
      omega

omit [DecidableEq P] in
theorem sum_fetchesOf_le (n : Nat) (k : OsHistory P I) :
    ∑ i ∈ Finset.range n, fetchesOf i k ≤ k.countP fun e => fetches e.before e.act := by
  induction k with
  | nil => simp [fetchesOf]
  | cons e k ih =>
    have hone : (∑ i ∈ Finset.range n, if e.act = .cpu i ∧ fetches e.before e.act = true then 1 else 0) ≤
        if fetches e.before e.act = true then 1 else 0 := by
      by_cases hfetch : fetches e.before e.act = true
      · simp only [hfetch, and_true, if_true]
        cases e.act with
        | ld early => simp
        | cpu j =>
          simp only [OsAct.cpu.injEq, Finset.sum_ite_eq]
          split <;> simp
      · simp [hfetch]
    calc ∑ i ∈ Finset.range n, fetchesOf i (e :: k)
        = ∑ i ∈ Finset.range n, fetchesOf i k +
            ∑ i ∈ Finset.range n, if e.act = .cpu i ∧ fetches e.before e.act = true then 1 else 0 := by
          rw [← Finset.sum_add_distrib]
          refine Finset.sum_congr rfl fun i _ => ?_
          unfold fetchesOf
          rw [List.countP_cons]
          simp only [decide_eq_true_eq]
      _ ≤ (k.countP fun e => fetches e.before e.act) + if fetches e.before e.act = true then 1 else 0 :=
          Nat.add_le_add ih hone
      _ = (e :: k).countP fun e => fetches e.before e.act := by rw [List.countP_cons]

/-- `get_proc` is called at most as often as there are processes that go before one that waits, and processes that
overtake it. -/
theorem fetches_le (hrun₀ : Run (osStep C) (.boot C) h s₀) (hx : s₀.sched.level (C.fields.prio x) = l₁ ++ x :: l₂)
    (hrun : Run (osStep C) s₀ k s) (hwait : ∀ e ∈ k, Waits C e.before x) (hwaits : Waits C s x) :
    (k.countP fun e => fetches e.before e.act) ≤
      aheadOf C.fields s₀.sched l₁ x l₂ + k.countP fun e => overtakes C x e.before e.act := by
  suffices ∃ w₁ w₂, Represents C.fields s.sched (w₁ ++ x :: w₂) ∧
      (k.countP fun e => fetches e.before e.act) + ahead C.fields.key w₁ x w₂ ≤
        aheadOf C.fields s₀.sched l₁ x l₂ + k.countP fun e => overtakes C x e.before e.act by
    obtain ⟨w₁, w₂, -, hle⟩ := this
    omega
  induction hrun with
  | start =>
    obtain ⟨w, -, hR⟩ := queue_run hrun₀
    obtain ⟨w₁, w₂, rfl, hahead⟩ := hR.split hx
    refine ⟨w₁, w₂, hR, ?_⟩
    rw [List.countP_nil, List.countP_nil, Nat.zero_add, Nat.add_zero]
    exact hahead.le
  | @next k s s' act r hrun hstep ih =>
    rw [List.forall_mem_cons] at hwait
    obtain ⟨w₁, w₂, hR, hle⟩ := ih hwait.2 hwait.1
    have hmoves := sched_step hstep
    unfold SchedMoves at hmoves
    rw [List.countP_cons, List.countP_cons]
    split at hmoves
    · next hcall =>
      refine ⟨w₁, w₂, by rw [hmoves]; exact hR, ?_⟩
      have hover : overtakes C x s act = false := by rw [overtakes, hcall, Option.any_none]
      rw [fetches_of_none hcall, hover]
      exact hle
    · next call hcall =>
      obtain ⟨own, ho⟩ := owned_run (hrun₀.append hrun)
      have hne := not_taken ho.ok ho.once hmoves hwaits
      obtain ⟨w₁', w₂', hR', hstep⟩ := ahead_step hR hmoves hne
      refine ⟨w₁', w₂', hR', ?_⟩
      have hover : overtakes C x s act = call.overtakes C.fields x := by rw [overtakes, hcall, Option.any_some]
      rw [fetches_of_some hcall, hover]
      omega

/-- A process that waits lets the CPUs pass few slots: at most `time_slot` for each process that goes before it,
for each that overtakes it, and for each CPU. -/
theorem slots_le (hslot : 1 ≤ C.timeSlot) (hrun₀ : Run (osStep C) (.boot C) h s₀)
    (hx : s₀.sched.level (C.fields.prio x) = l₁ ++ x :: l₂) (hrun : Run (osStep C) s₀ k s)
    (hwait : ∀ e ∈ k, Waits C e.before x) (hwaits : Waits C s x) :
    ∑ i ∈ Finset.range C.numCpus, ((s.cpu i).calls - (s₀.cpu i).calls : Int) ≤
      C.timeSlot *
        (aheadOf C.fields s₀.sched l₁ x l₂ + (k.countP fun e => overtakes C x e.before e.act) + C.numCpus) := by
  have hgets := sum_fetchesOf_le C.numCpus k
  have hle := fetches_le hrun₀ hx hrun hwait hwaits
  calc ∑ i ∈ Finset.range C.numCpus, ((s.cpu i).calls - (s₀.cpu i).calls : Int)
      ≤ ∑ i ∈ Finset.range C.numCpus, C.timeSlot * (fetchesOf i k + 1) := by
        refine Finset.sum_le_sum fun i _ => ?_
        have hcalls := calls_le hslot hrun₀ hrun i
        omega
    _ = C.timeSlot * ((∑ i ∈ Finset.range C.numCpus, fetchesOf i k : Nat) + C.numCpus) := by
        rw [← Finset.mul_sum, Finset.sum_add_distrib]
        simp
    _ ≤ _ := by
        apply Int.mul_le_mul_of_nonneg_left _ (by omega)
        omega

end Run

end SimpleOs.Os
