import SimpleOs.Os.Routines

/-!
# When the work is over

* `WorkOver` : `done` is set, the levels are empty and no CPU holds a process; `NextIterationLeaves` : every CPU
  then leaves its loop without another call of `next_slot`;
* `CpuPc.spins` : at the top of the loop, or about to call `next_slot` or in it;
* `Over`, `over_step` : work that is over stays over, and a CPU spins forever or not at all;
* `stops_iff` : the CPUs stop exactly when none of them spins.
-/

namespace SimpleOs.Os
open SimpleOs.Sched

variable {P I : Type} {C D : OsConfig P I} {s s' : OsSys P I} {i : Nat} {act : OsAct} {r : Unit} {h : OsHistory P I}

/-- The loader has set `done`, every level is empty and no CPU holds a process. -/
def WorkOver (C : OsConfig P I) (s : OsSys P I) : Prop :=
  s.done = true ∧ (∀ l < MAX_PRIO, s.sched.level l = []) ∧ ∀ i < C.numCpus, (s.cpu i).proc = none

instance [DecidableEq P] (C : OsConfig P I) (s : OsSys P I) : Decidable (WorkOver C s) :=
  inferInstanceAs (Decidable (_ ∧ _ ∧ _))

/-- The steps of `h` call no `next_slot` on a CPU. -/
def NoCall (h : OsHistory P I) : Prop := ∀ e ∈ h, ∀ i, e.act = .cpu i → (e.before.cpu i).pc ≠ .toCall

theorem noCall_nil : NoCall ([] : OsHistory P I) := fun _ he => by cases he

theorem NoCall.cons (hc : NoCall h) (hcall : ∀ i, act = .cpu i → (s.cpu i).pc ≠ .toCall) :
    NoCall (⟨s, act, r⟩ :: h) := by
  intro e he
  rcases List.mem_cons.mp he with rfl | he
  · exact hcall
  · exact hc e he

/-- The configuration without waiting: `next_slot` returns at once. -/
def OsConfig.free (C : OsConfig P I) : OsConfig P I := { C with barrier := false }

section Steps
variable [DecidableEq P]

/-- CPU `i`, when it does not wait in `next_slot`, leaves its loop before it calls `next_slot` again. -/
def LeavesNext (C : OsConfig P I) (s : OsSys P I) (i : Nat) : Prop :=
  ∃ h s', Run (osStep C.free) s h s' ∧ (∀ e ∈ h, e.act = .cpu i) ∧ NoCall h ∧ (s'.cpu i).pc = .leaving

/-- The next iteration of every CPU in its loop leaves the loop, and no CPU ever calls `next_slot` again. -/
def NextIterationLeaves (C : OsConfig P I) (s : OsSys P I) : Prop :=
  (∀ i < C.numCpus, (s.cpu i).pc ≠ .leaving → (s.cpu i).pc ≠ .stopped → LeavesNext C s i) ∧
  ∀ h s', Run (osStep C) s h s' → NoCall h

end Steps

/-! ## Spinning -/

/-- The CPU is at the top of its loop, or about to call `next_slot`, or in it. -/
def CpuPc.spins : CpuPc → Bool
  | .top | .toCall | .inSlot => true
  | _ => false

structure Over (C : OsConfig P I) (s : OsSys P I) : Prop where
  work : WorkOver C s
  ld : s.ld.pc = .leaving ∨ s.ld.pc = .detached
  pc : ∀ i < C.numCpus, (s.cpu i).pc ≠ .run

theorem ld_done_step [DecidableEq P] (hd : s.done = true → s.ld.pc = .leaving ∨ s.ld.pc = .detached)
    (hmove : OsMove C s act s') : s'.done = true → s'.ld.pc = .leaving ∨ s'.ld.pc = .detached := by
  intro hdone
  cases act with
  | cpu i =>
    rw [hmove.2.done] at hdone
    rw [hmove.2.ld]
    exact hd hdone
  | ld early =>
    cases hmove with
    | early hpc | add hpc | again hpc | call hpc | next hpc =>
      have hc := hd hdone
      rw [hpc] at hc
      rcases hc with hc | hc <;> cases hc
    | finish => exact .inl rfl
    | detach => exact .inr rfl

theorem over_of_workOver [DecidableEq P] (hrun : Run (osStep C) (.boot C) h s) (hw : WorkOver C s) : Over C s where
  work := hw
  ld := hrun.invariant
    (I := fun _ s => s.done = true → s.ld.pc = .leaving ∨ s.ld.pc = .detached) (fun hc => by cases hc)
    (fun _ _ _ _ _ _ hd hx => ld_done_step hd (osStep_move hx)) hw.1
  pc := fun i hi hpc => by
    have hok := cpuOk_run hrun i
    rw [CpuSt.Ok, hpc] at hok
    exact hok (hw.2.2 i hi)

theorem get_empty {F : PcbFields P} {t t' : SchedT P} {o : Option P} (hempty : ∀ l < MAX_PRIO, t.level l = [])
    (hget : SchedOutcome F t .get o t') : o = none ∧ ∀ l < MAX_PRIO, t'.level l = [] := by
  cases hget with
  | enter hact => cases hact
  | idle => exact ⟨rfl, hempty⟩
  | @dispatch prio proc q l₁ l₂ hprio hlow hq =>
    have hbefore : t.level prio = l₁ ++ proc :: l₂ := hq.before
    rw [hempty prio hprio] at hbefore
    exact absurd hbefore.symm (by simp)

/-- A step of a CPU that holds no process, when the work is over: it spins on, or goes on to leave its loop. -/
theorem Over.cpu_move [DecidableEq P] (ho : Over C s) (hi : i < C.numCpus) (hmove : CpuMove D s i s') :
    (∀ l < MAX_PRIO, s'.sched.level l = []) ∧ (s'.cpu i).proc = none ∧ (s'.cpu i).pc ≠ .run ∧
      (s'.cpu i).pc.spins = (s.cpu i).pc.spins := by
  have hnone := ho.work.2.2 i hi
  cases hmove with
  | fetch hpc hproc hget =>
    obtain ⟨rfl, hempty⟩ := get_empty ho.work.2.1 hget
    rw [hpc, OsSys.setCpu_self]
    exact ⟨hempty, rfl, fun hc => (by cases hc), rfl⟩
  | finish hpc hproc => cases hproc.symm.trans hnone
  | put hpc hproc => cases hproc.symm.trans hnone
  | keep hpc hproc => cases hproc.symm.trans hnone
  | reload hpc hget =>
    obtain ⟨rfl, hempty⟩ := get_empty ho.work.2.1 hget
    rw [hpc, OsSys.setCpu_self]
    exact ⟨hempty, rfl, fun hc => (by cases hc), rfl⟩
  | leave hpc =>
    rw [hpc, OsSys.setCpu_self]
    exact ⟨ho.work.2.1, hnone, fun hc => (by cases hc), rfl⟩
  | skip hpc hproc hdone => cases hdone.symm.trans ho.work.1
  | dispatch hpc hproc => cases hproc.symm.trans hnone
  | run hpc hproc => cases hproc.symm.trans hnone
  | call hpc =>
    rw [hpc, OsSys.setCpu_self]
    exact ⟨ho.work.2.1, hnone, fun hc => (by cases hc), rfl⟩
  | pass hpc =>
    rw [hpc, OsSys.setCpu_self]
    exact ⟨ho.work.2.1, hnone, fun hc => (by cases hc), rfl⟩
  | detach hpc =>
    rw [hpc, OsSys.setCpu_self]
    exact ⟨ho.work.2.1, hnone, fun hc => (by cases hc), rfl⟩

/-- Work that is over stays over, and a CPU that spins spins on, whatever thread makes a step. -/
theorem over_step [DecidableEq P] (ho : Over C s) (hn : D.numCpus = C.numCpus) (hmove : OsMove D s act s') :
    Over C s' ∧ ∀ i < C.numCpus, (s'.cpu i).pc.spins = (s.cpu i).pc.spins := by
  obtain ⟨hdone, hempty, hnone⟩ := ho.work
  cases act with
  | cpu j =>
    obtain ⟨hempty', hnone', hpc', hspins'⟩ := ho.cpu_move (hn ▸ hmove.1) hmove.2
    refine ⟨⟨⟨by rw [hmove.2.done]; exact hdone, hempty', ?_⟩, by rw [hmove.2.ld]; exact ho.ld, ?_⟩, ?_⟩
    · exact hmove.2.forall_cpu (p := fun i c => i < C.numCpus → c.proc = none) (fun _ => hnone') hnone
    · exact hmove.2.forall_cpu (p := fun i c => i < C.numCpus → c.pc ≠ .run) (fun _ => hpc') ho.pc
    · exact hmove.2.forall_cpu (p := fun i c => i < C.numCpus → c.pc.spins = (s.cpu i).pc.spins) (fun _ => hspins')
        fun _ _ => rfl
  | ld early =>
    have hld := ho.ld
    cases hmove with
    | early hpc | add hpc | again hpc | call hpc | next hpc | finish hpc =>
      rw [hpc] at hld
      rcases hld with hc | hc <;> cases hc
    | detach => exact ⟨⟨⟨hdone, hempty, hnone⟩, .inr rfl, ho.pc⟩, fun _ _ => rfl⟩

section Runs
variable [DecidableEq P]

theorem over_run (ho : Over C s) (hn : D.numCpus = C.numCpus) (hrun : Run (osStep D) s h s') :
    Over C s' ∧ ∀ i < C.numCpus, (s'.cpu i).pc.spins = (s.cpu i).pc.spins := by
  refine hrun.invariant (I := fun _ t => Over C t ∧ ∀ i < C.numCpus, (t.cpu i).pc.spins = (s.cpu i).pc.spins)
    ⟨ho, fun _ _ => rfl⟩ fun _ t _ _ t' _ hi hx => ?_
  obtain ⟨ho', hspins⟩ := over_step hi.1 hn (osStep_move hx)
  exact ⟨ho', fun i hin => (hspins i hin).trans (hi.2 i hin)⟩

/-- A CPU that spins when the work is over spins forever. -/
theorem spins_forever (ho : Over C s) (hn : D.numCpus = C.numCpus) (hi : i < C.numCpus)
    (hspins : (s.cpu i).pc.spins = true) (hrun : Run (osStep D) s h s') :
    (s'.cpu i).pc ≠ .leaving ∧ (s'.cpu i).pc ≠ .stopped := by
  have hkeep := (over_run ho hn hrun).2 i hi
  rw [hspins] at hkeep
  exact ⟨fun he => (by rw [he] at hkeep; cases hkeep), fun he => by rw [he] at hkeep; cases hkeep⟩

theorem not_leavesNext (ho : Over C s) (hi : i < C.numCpus) (hspins : (s.cpu i).pc.spins = true) :
    ¬ LeavesNext C s i := by
  rintro ⟨h, s', hrun, _, _, hpc⟩
  exact (spins_forever (D := C.free) ho rfl hi hspins hrun).1 hpc

theorem noCall_run (ho : Over C s) (hn : D.numCpus = C.numCpus) (hstill : ∀ i < C.numCpus, (s.cpu i).pc.spins = false)
    (hrun : Run (osStep D) s h s') : NoCall h := by
  induction hrun with
  | start => exact noCall_nil
  | @next h t t' act r hrun hx ih =>
    refine ih.cons fun i hact hpc => ?_
    subst hact
    have hi : i < C.numCpus := hn ▸ (osStep_move hx).1
    have hkeep := (over_run ho hn hrun).2 i hi
    rw [hpc, hstill i hi] at hkeep
    cases hkeep

theorem Over.leave (ho : Over C s) (hi : i < C.numCpus) (hpc : (s.cpu i).pc = .recheck) :
    ∃ s', osStep C.free s (.cpu i) = .ok ((), s') ∧ (s'.cpu i).pc = .leaving := by
  refine ⟨s.setCpu i { s.cpu i with pc := .leaving }, ?_, by rw [OsSys.setCpu_self]⟩
  have hi' : i < C.free.numCpus := hi
  simp only [osStep, cpuRoutine, if_pos hi', hpc, ho.work.2.2 i hi, ho.work.1, if_true]

theorem Over.reload (ho : Over C s) (hi : i < C.numCpus) {freed : Bool} (hpc : (s.cpu i).pc = .reload freed) :
    ∃ s', osStep C.free s (.cpu i) = .ok ((), s') ∧ Over C s' ∧ (s'.cpu i).pc = .recheck := by
  have hi' : i < C.free.numCpus := hi
  have hx : ∃ s', osStep C.free s (.cpu i) = .ok ((), s') ∧ (s'.cpu i).pc = .recheck := by
    simp only [osStep, cpuRoutine, if_pos hi', hpc]
    exact ⟨_, rfl, by rw [OsSys.setCpu_self]⟩
  obtain ⟨s', hx, hpc'⟩ := hx
  exact ⟨s', hx, (over_step (D := C.free) ho rfl (osStep_move hx)).1, hpc'⟩

theorem leavesNext (ho : Over C s) (hi : i < C.numCpus) (hstill : (s.cpu i).pc.spins = false)
    (hleft : (s.cpu i).pc ≠ .leaving) (hstopped : (s.cpu i).pc ≠ .stopped) : LeavesNext C s i := by
  cases hpc : (s.cpu i).pc with
  | reload freed =>
    obtain ⟨t, hx, ho', hpc'⟩ := ho.reload hi hpc
    obtain ⟨s', hy, hleave⟩ := ho'.leave hi hpc'
    have hrun := (Run.start.next hx).next hy
    have hcall : NoCall [⟨t, .cpu i, ()⟩, ⟨s, .cpu i, ()⟩] :=
      (noCall_nil.cons fun _ he => (by cases he; rw [hpc]; simp)).cons fun _ he => by cases he; rw [hpc']; simp
    exact ⟨_, s', hrun, fun e he => (by rcases List.mem_pair.mp he with rfl | rfl <;> rfl), hcall, hleave⟩
  | recheck =>
    obtain ⟨s', hx, hleave⟩ := ho.leave hi hpc
    have hcall : NoCall [⟨s, .cpu i, ()⟩] := noCall_nil.cons fun _ he => by cases he; rw [hpc]; simp
    exact ⟨_, s', Run.start.next hx, fun e he => (by rw [List.mem_singleton.mp he]), hcall, hleave⟩
  | run => exact absurd hpc (ho.pc i hi)
  | leaving => exact absurd hpc hleft
  | stopped => exact absurd hpc hstopped
  | top | toCall | inSlot =>
    rw [hpc] at hstill
    cases hstill

/-- Idle CPUs stop when the work is over if and only if none spins: in a state reached in which the work is
over, the next iteration of every CPU leaves its loop exactly when no CPU is at the top of its loop, or about to
call `next_slot` or in it. -/
theorem stops_iff (hrun : Run (osStep C) (.boot C) h s) (hw : WorkOver C s) :
    NextIterationLeaves C s ↔ ∀ i < C.numCpus, (s.cpu i).pc.spins = false := by
  have ho := over_of_workOver hrun hw
  constructor
  · intro hleaves i hi
    by_contra hspins
    have hspins : (s.cpu i).pc.spins = true := by simpa using hspins
    obtain ⟨hl, hs⟩ := spins_forever (D := C) ho rfl hi hspins .start
    exact not_leavesNext ho hi hspins (hleaves.1 i hi hl hs)
  · intro hstill
    exact ⟨fun i hi hl hs => leavesNext ho hi (hstill i hi) hl hs, fun h s' hrun => noCall_run ho rfl hstill hrun⟩

end Runs

theorem oneProc_load : [0].Nodup := by decide

def oneProc (numCpus : Nat) : OsConfig Nat Char where
  fields := ⟨fun _ => 0, fun _ => 0⟩
  text := fun _ => ['a']
  numCpus := numCpus
  timeSlot := 2
  load := [0]
  load_nodup := oneProc_load
  barrier := true

/-- The only CPU stops. -/
theorem stops_iff_oneProc :
    ∃ (h : OsHistory Nat Char) (s : OsSys Nat Char), Run (osStep (oneProc 1)) (.boot (oneProc 1)) h s ∧
      WorkOver (oneProc 1) s ∧ NextIterationLeaves (oneProc 1) s := by
  obtain ⟨h, s, hrun, _, htest⟩ := exists_run_of_replay (osStep (oneProc 1)) (.boot (oneProc 1))
    [.cpu 0, .cpu 0, .ld false, .ld false, .cpu 0, .cpu 0, .cpu 0, .cpu 0, .ld false, .ld false]
    (fun _ s => decide (WorkOver (oneProc 1) s ∧ (s.cpu 0).pc.spins = false)) (by decide)
  obtain ⟨hw, hstill⟩ := of_decide_eq_true htest
  refine ⟨h, s, hrun, hw, (stops_iff hrun hw).mpr fun i hi => ?_⟩
  rw [Nat.lt_one_iff.mp hi]
  exact hstill

/-- Of two CPUs the one that never had a process does not stop. -/
theorem idle_cpu_spins :
    ∃ (h : OsHistory Nat Char) (s : OsSys Nat Char), Run (osStep (oneProc 2)) (.boot (oneProc 2)) h s ∧
      WorkOver (oneProc 2) s ∧ ¬ NextIterationLeaves (oneProc 2) s := by
  obtain ⟨h, s, hrun, _, htest⟩ := exists_run_of_replay (osStep (oneProc 2)) (.boot (oneProc 2))
    [.cpu 0, .cpu 0, .ld false, .ld false, .cpu 1, .cpu 1, .cpu 0, .cpu 0, .cpu 0, .cpu 0, .ld false, .ld false]
    (fun _ s => decide (WorkOver (oneProc 2) s ∧ (s.cpu 1).pc = .inSlot)) (by decide)
  obtain ⟨hw, hpc⟩ := of_decide_eq_true htest
  refine ⟨h, s, hrun, hw, fun hleaves => ?_⟩
  have hspins : (s.cpu 1).pc.spins = true := by
    rw [hpc]
    rfl
  have hi : 1 < (oneProc 2).numCpus := by decide
  exact not_leavesNext (over_of_workOver hrun hw) hi hspins
    (hleaves.1 1 hi (by rw [hpc]; decide) (by rw [hpc]; decide))

end SimpleOs.Os
