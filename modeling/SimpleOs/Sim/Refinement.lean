import SimpleOs.Os.ExactlyOnce
import SimpleOs.Os.Idle
import SimpleOs.Sim.Coupling

/-!
# The simulator refines `Os`

Programs without `killall`.

* `osLabel` : the step of `Os` in a step of the simulator: none of the timer, and none when a thread falls asleep;
* `osStep_of_free` : the barrier of `Os` lets a thread pass;
* `ran_os` : an instruction is a step of `pc`;
* `os_silent`, `os_visible` : each step; `os_image` : the run of `Os` behind a run of the simulator;
* `simulator_refines_os` : its steps, with the outcomes of the loader's tests, and `_time` as the number of calls.
-/

namespace SimpleOs.Sim
open SimpleOs.Mm SimpleOs.Sched SimpleOs.Syscall SimpleOs.Timer SimpleOs.Os SimpleOs.Cpu

variable {C : SimConfig} {s s' : SimSys} {t : TimerSys} {i j : Nat} {act : SimAct} {r : Unit} {h : SimHistory}

/-- The step of `Os` in a step of the simulator. -/
def osLabel (C : SimConfig) (s : SimSys) : SimAct → Option OsAct
  | .cpu i => if cpuPlace (s.os.cpu i).pc = .inSlot ∧ (s.timer.dev (C.cpuDev i)).done then none else some (.cpu i)
  | .ld => if ldPlace s.os.ld.pc = .inSlot ∧ (s.timer.dev LD_DEV).done then none else some (.ld (s.early C))
  | .timer | .stop => none

/-! ## The barrier -/

variable {P I : Type} {D : OsConfig P I} {os os' : OsSys P I}

theorem cpuRoutine_of_free [DecidableEq P] (hpass : (os.cpu i).pc = .inSlot → Passes D os (os.cpu i).calls)
    (hx : cpuRoutine D.free os i = .ok os') : cpuRoutine D os i = .ok os' := by
  by_cases hpc : (os.cpu i).pc = .inSlot
  · have hfree : Passes D.free os (os.cpu i).calls := fun hb => by cases hb
    unfold cpuRoutine at hx ⊢
    simp only [hpc] at hx ⊢
    rw [if_pos hfree] at hx
    rw [if_pos (hpass hpc)]
    exact hx
  · rw [← hx]
    unfold cpuRoutine
    dsimp only
    split
    · rfl
    · rfl
    · rfl
    · rfl
    · rfl
    · next hin => exact absurd hin hpc
    · rfl
    · rfl

theorem ldRoutine_of_free {early : Bool} (hpass : ldPlace os.ld.pc = .inSlot → Passes D os os.ld.calls)
    (hx : ldRoutine D.free os early = .ok os') : ldRoutine D os early = .ok os' := by
  have hfree : ∀ calls, Passes D.free os calls := fun _ hb => by cases hb
  unfold ldRoutine at hx ⊢
  cases hpc : os.ld.pc with
  | early =>
    rw [hpc] at hx hpass
    dsimp only at hx ⊢
    rw [if_pos (hfree _)] at hx
    rw [if_pos (hpass rfl)]
    exact hx
  | inSlot =>
    rw [hpc] at hx hpass
    dsimp only at hx ⊢
    rw [if_pos (hfree _)] at hx
    rw [if_pos (hpass rfl)]
    exact hx
  | check =>
    rw [hpc] at hx
    cases hrest : os.ld.rest with
    | nil =>
      rw [hrest] at hx
      exact hx
    | cons =>
      rw [hrest] at hx
      exact hx
  | _ =>
    rw [hpc] at hx
    exact hx

theorem osStep_cpu_of_free [DecidableEq P] (hpass : (os.cpu i).pc = .inSlot → Passes D os (os.cpu i).calls)
    (hx : osStep D.free os (.cpu i) = .ok (r, os')) : osStep D os (.cpu i) = .ok (r, os') := by
  simp only [osStep] at hx ⊢
  split at hx
  · next hi =>
    have hi : i < D.numCpus := hi
    rw [if_pos hi]
    split at hx
    · next hstep =>
      cases hx
      rw [cpuRoutine_of_free hpass hstep]
    · cases hx
  · cases hx

theorem osStep_ld_of_free [DecidableEq P] {early : Bool} (hpass : ldPlace os.ld.pc = .inSlot → Passes D os os.ld.calls)
    (hx : osStep D.free os (.ld early) = .ok (r, os')) : osStep D os (.ld early) = .ok (r, os') := by
  simp only [osStep] at hx ⊢
  split at hx
  · next hstep =>
    cases hx
    rw [ldRoutine_of_free hpass hstep]
  · cases hx

/-! ## An instruction -/

theorem perform_os {T : PcbTable Nat} {u u' : RunSys Nat} {proc : Nat} {call : LibCall} {stat : Int}
    (hcall : call.kills = false) (hx : perform T u proc call = .ok (stat, u')) :
    u'.sched = u.sched ∧ u'.freed = u.freed ∧ u'.pc = u.pc := by
  have hmove := perform_move hx
  refine ⟨?_, ?_, hmove.pc hcall⟩
  · cases hmove with
    | kill hkills => rw [hcall] at hkills; cases hkills
    | _ => rfl
  · cases hmove with
    | kill hkills => rw [hcall] at hkills; cases hkills
    | _ => rfl

/-- An instruction is a step of `pc` to the threads. -/
theorem ran_os {proc : Nat} {stat : Int} {u : RunSys Nat} (hkill : KillsNone C.text)
    (hx : Cpu.run C.table (s.runSys C) proc = .ok (stat, u)) :
    (s.ran C i proc u).os = (Os.run (C.os true) s.os proc).setCpu i
      { s.os.cpu i with pc := .toCall, timeLeft := (s.os.cpu i).timeLeft - 1 } := by
  unfold SimSys.ran Os.run
  unfold Cpu.run at hx
  have htext : (s.runSys C).text proc = (C.os true).text proc := rfl
  have hpc : (s.runSys C).pc proc = s.os.procPc proc := rfl
  rw [htext, hpc] at hx
  cases hins : ((C.os true).text proc)[s.os.procPc proc]? with
  | none =>
    have hnone : (C.text proc)[s.os.procPc proc]? = none := hins
    rw [hins] at hx
    cases hx
    rw [hnone, Option.toList_none, List.append_nil, Function.update_eq_self]
    rfl
  | some ins =>
    have hsome : (C.text proc)[s.os.procPc proc]? = some ins := hins
    rw [hins] at hx
    dsimp only at hx
    rw [hsome, Option.toList_some]
    cases hcall : ins.call with
    | none =>
      rw [hcall] at hx
      cases hx
      rfl
    | some call =>
      rw [hcall] at hx
      obtain ⟨hsched, hfreed, hpc'⟩ := perform_os (hkill proc ins (List.mem_of_getElem? hsome) call hcall) hx
      rw [hsched, hfreed, hpc']
      rfl

/-! ## The steps -/

theorem asleep_iff_done {n : Nat} {t t' : TimerSys} (hx : timerStep n t (.wait j) = .ok (r, t')) :
    (t'.dev j).pc = .asleep ↔ (t.dev j).done = true := by
  cases timerStep_move hx with
  | wait =>
    rw [nextSlotWait, TimerSys.setDev_dev_self]
    cases (t.dev j).done <;> simp

theorem cpuPlace_inSlot {pc : CpuPc} : cpuPlace pc = .inSlot ↔ pc = .inSlot := by
  cases pc <;> simp [cpuPlace]

theorem cpu_asleep_iff (htimer : TimerCase C s.timer (s.cpuTimer C i) t) (hpc : (s.os.cpu i).pc = .inSlot) :
    (t.dev (C.cpuDev i)).pc = .asleep ↔ (s.timer.dev (C.cpuDev i)).done = true := by
  unfold SimSys.cpuTimer at htimer
  rw [hpc] at htimer
  exact asleep_iff_done htimer

theorem ld_asleep_iff (htimer : TimerCase C s.timer (s.ldTimer C) t) (hpc : ldPlace s.os.ld.pc = .inSlot) :
    (t.dev LD_DEV).pc = .asleep ↔ (s.timer.dev LD_DEV).done = true := by
  unfold SimSys.ldTimer at htimer
  cases hld : s.os.ld.pc with
  | early =>
    rw [hld] at htimer
    exact asleep_iff_done htimer
  | inSlot =>
    rw [hld] at htimer
    exact asleep_iff_done htimer
  | _ =>
    rw [hld] at hpc
    cases hpc

theorem cpu_passes (hc : Coupled C s) (hi : i < C.numCpus) (hdone : (s.timer.dev (C.cpuDev i)).done = false)
    (hpc : (s.os.cpu i).pc = .inSlot) : Passes (C.os true) s.os (s.os.cpu i).calls := by
  have hd := hc.cpu i hi
  have hfin : (s.timer.dev (C.cpuDev i)).pc ≠ .finished := fun he => by
    have hended := hd.finished_iff.mp he
    rw [hpc] at hended
    cases hended
  rw [← hd.entered, entered_eq_time hc.timer (cpuDev_lt hi) hdone hfin]
  exact hc.passes

theorem ld_passes (hc : Coupled C s) (hdone : (s.timer.dev LD_DEV).done = false) (hpc : ldPlace s.os.ld.pc = .inSlot) :
    Passes (C.os true) s.os s.os.ld.calls := by
  have hd := hc.ld
  have hfin : (s.timer.dev LD_DEV).pc ≠ .finished := fun he => by
    have hended := hd.finished_iff.mp he
    rw [hpc] at hended
    cases hended
  rw [← hd.entered, entered_eq_time hc.timer (ld_lt C) hdone hfin]
  exact hc.passes

theorem osLabel_cpu_none (h : osLabel C s (.cpu i) = none) :
    (s.os.cpu i).pc = .inSlot ∧ (s.timer.dev (C.cpuDev i)).done = true := by
  simp only [osLabel] at h
  split at h
  · next hsleep => exact ⟨cpuPlace_inSlot.mp hsleep.1, hsleep.2⟩
  · cases h

theorem osLabel_cpu_some {b : OsAct} (h : osLabel C s (.cpu i) = some b) :
    b = .cpu i ∧ ((s.os.cpu i).pc = .inSlot → (s.timer.dev (C.cpuDev i)).done = false) := by
  simp only [osLabel] at h
  split at h
  · cases h
  · next hawake =>
    cases h
    refine ⟨rfl, fun hpc => ?_⟩
    rw [cpuPlace_inSlot] at hawake
    simpa [hpc] using hawake

/-- A silent step leaves the threads as they are. -/
theorem os_silent (hx : simStep C s act = .ok (r, s')) (hl : osLabel C s act = none) : s'.os = s.os := by
  cases simStep_move hx with
  | @cpu i timer _ hi htimer hcase =>
    obtain ⟨hpc, hdone⟩ := osLabel_cpu_none hl
    have hasleep := (cpu_asleep_iff htimer hpc).mpr hdone
    cases hcase with
    | sleep => rfl
    | run hdev => exact absurd hasleep hdev
    | thread hdev => exact absurd hasleep hdev
  | @ld timer _ htimer hcase =>
    simp only [osLabel] at hl
    split at hl
    · next hsleep =>
      have hasleep := (ld_asleep_iff htimer hsleep.1).mpr hsleep.2
      cases hcase with
      | sleep => rfl
      | thread hdev => exact absurd hasleep hdev
    · cases hl
  | timer => rfl
  | stop => rfl

/-- A step with a label is a step of `Os`. -/
theorem os_visible (hc : Coupled C s) (hkill : KillsNone C.text) (hx : simStep C s act = .ok (r, s')) {b : OsAct}
    (hl : osLabel C s act = some b) : osStep (C.os true) s.os b = .ok ((), s'.os) := by
  cases simStep_move hx with
  | @cpu i timer _ hi htimer hcase =>
    obtain ⟨rfl, hdone⟩ := osLabel_cpu_some hl
    cases hcase with
    | sleep hdev =>
      rcases cpu_timed (hc.cpu i hi) htimer with ⟨-, hpc, -⟩ | ⟨hawake, -⟩
      · have hdone' := (cpu_asleep_iff htimer hpc).mp hdev
        rw [hdone hpc] at hdone'
        cases hdone'
      · exact absurd hdev hawake
    | @run proc stat u _ hpc hproc hrun =>
      have hpc : (s.os.cpu i).pc = .run := hpc
      have hproc : (s.os.cpu i).proc = some proc := hproc
      have hcpu : i < (C.os true).numCpus := hi
      rw [osStep, if_pos hcpu, cpuRoutine]
      dsimp only
      rw [hpc]
      dsimp only
      rw [hproc]
      dsimp only
      rw [ran_os (s := { s with timer := timer }) hkill hrun]
      simp only [hproc]
    | thread _ _ hos => exact osStep_cpu_of_free (fun hpc => cpu_passes hc hi (hdone hpc) hpc) hos
  | @ld timer _ htimer hcase =>
    simp only [osLabel] at hl
    split at hl
    · cases hl
    · next hawake =>
      cases hl
      cases hcase with
      | sleep hdev =>
        rcases ld_timed hc.ld htimer with ⟨-, hpc, -⟩ | ⟨hne, -⟩
        · exact absurd ⟨hpc, (ld_asleep_iff htimer hpc).mp hdev⟩ hawake
        · exact absurd hdev hne
      | thread _ hos =>
        rw [early_timed htimer] at hos
        refine osStep_ld_of_free (fun hpc => ld_passes hc ?_ hpc) hos
        have hpc : ldPlace s.os.ld.pc = .inSlot := hpc
        simpa [hpc] using hawake
  | timer => cases hl
  | stop => cases hl

/-- The run of `Os` behind a run of the simulator. -/
theorem os_image (hkill : KillsNone C.text) (hrun : Run (simStep C) (.boot C) h s) :
    ∃ k, Run (osStep (C.os true)) (.boot (C.os true)) k s.os ∧
      List.Forall₂ (Shows SimSys.os (osLabel C)) (visible (osLabel C) h) k :=
  hrun.project SimSys.os (osLabel C) (fun _ _ _ _ _ _ hx hl => os_silent hx hl)
    fun _ _ _ _ _ _ hrun hx hl => ⟨(), os_visible (coupled_run hrun) hkill hx hl⟩

/-- The simulator refines `Os`: behind every run stands a run of the threads over an ideal barrier, which takes the
visible steps, with the outcomes of the loader's tests, and a run of the timer, which takes the operations of
`timer.c`; a thread outside `next_slot` has called it `_time` times. -/
theorem simulator_refines_os (hkill : KillsNone C.text) (hrun : Run (simStep C) (.boot C) h s) :
    (∃ k, Run (osStep (C.os true)) (.boot (C.os true)) k s.os ∧
      k.map Entry.act = h.filterMap fun e => osLabel C e.before e.act) ∧
    (∃ k, Run (timerStep C.devices) .start k s.timer ∧
      k.map Entry.act = h.filterMap fun e => timerLabel C e.before e.act) ∧
    (∀ i < C.numCpus, cpuPlace (s.os.cpu i).pc = .outside → (s.os.cpu i).calls = s.timer.time) ∧
    (ldPlace s.os.ld.pc = .outside → s.os.ld.calls = s.timer.time) := by
  have hc := coupled_run hrun
  obtain ⟨k, hk, hshows⟩ := os_image hkill hrun
  obtain ⟨k', hk', hshows'⟩ := timer_image hrun
  exact ⟨⟨k, hk, filterMap_label hshows⟩, ⟨k', hk', filterMap_label hshows'⟩, fun i hi => hc.time_of_cpu hi,
    hc.time_of_ld⟩

theorem simulator_refines_os_twoPrograms : ∃ (h : SimHistory) (s : SimSys), h.map Entry.act = twoProgramsRun ∧
    (∃ k, Run (osStep (twoPrograms.os true)) (.boot (twoPrograms.os true)) k s.os ∧
      k.map Entry.act = h.filterMap fun e => osLabel twoPrograms e.before e.act) ∧
    (∃ k, Run (timerStep twoPrograms.devices) .start k s.timer ∧
      k.map Entry.act = h.filterMap fun e => timerLabel twoPrograms e.before e.act) ∧
    (∀ i < twoPrograms.numCpus, cpuPlace (s.os.cpu i).pc = .outside → (s.os.cpu i).calls = s.timer.time) ∧
    (ldPlace s.os.ld.pc = .outside → s.os.ld.calls = s.timer.time) := by
  obtain ⟨h, s, hrun, hact, -⟩ := exists_run_of_replay (simStep twoPrograms) (.boot twoPrograms) twoProgramsRun
    (fun _ _ => true) (by decide +kernel)
  exact ⟨h, s, hact, simulator_refines_os twoPrograms_killsNone hrun⟩

end SimpleOs.Sim
