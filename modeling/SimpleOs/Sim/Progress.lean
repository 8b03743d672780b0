import SimpleOs.Sim.Coupling
import SimpleOs.Timer.Wakeup

/-!
# Progress

* `AllEnded` : all threads have ended; `never_stuck` : until then one of them has a next step.
-/

namespace SimpleOs.Sim
open SimpleOs.Mm SimpleOs.Sched SimpleOs.Syscall SimpleOs.Timer SimpleOs.Os SimpleOs.Cpu

variable {C : SimConfig} {s s' : SimSys} {t : TimerSys} {i : Nat} {act : SimAct} {r : Unit} {h : SimHistory}

structure AllEnded (C : SimConfig) (s : SimSys) : Prop where
  cpu : ∀ i < C.numCpus, (s.os.cpu i).pc = .stopped
  ld : s.os.ld.pc = .detached
  timer : s.timer.pc = .stopped

theorem Tied.waiting {d : Device} {calls : Nat} (hd : Tied d .inSlot calls) (hawake : d.pc ≠ .asleep) :
    d.pc = .waiting := by
  have hplace := hd.place
  unfold devPlace at hplace
  split at hplace
  · cases hplace
  · assumption
  · next hasleep => exact absurd hasleep hawake
  · cases hplace

/-! ## A thread that does not wait -/

theorem cpuRoutine_ne_none {D : OsConfig Nat Inst} {os : OsSys Nat Inst} (hD : D.barrier = false)
    (hpc : (os.cpu i).pc ≠ .stopped) : cpuRoutine D os i ≠ .error none := by
  have hpass : Passes D os (os.cpu i).calls := fun hb => by rw [hD] at hb; cases hb
  unfold cpuRoutine
  dsimp only
  cases hcpu : (os.cpu i).pc with
  | top =>
    dsimp only
    split
    · simp
    · split
      · simp
      · split
        · split <;> simp
        · simp
  | recheck =>
    dsimp only
    split <;> simp
  | run =>
    dsimp only
    split <;> simp
  | inSlot =>
    dsimp only
    rw [if_pos hpass]
    simp
  | stopped => exact absurd hcpu hpc
  | _ => simp

theorem ldRoutine_ne_none {D : OsConfig Nat Inst} {os : OsSys Nat Inst} {early : Bool} (hD : D.barrier = false)
    (hpc : os.ld.pc ≠ .detached) : ldRoutine D os early ≠ .error none := by
  have hpass : Passes D os os.ld.calls := fun hb => by rw [hD] at hb; cases hb
  unfold ldRoutine
  split
  · simp
  · split
    · simp
    · split <;> simp
  · rw [if_pos hpass]
    simp
  · simp
  · rw [if_pos hpass]
    simp
  · simp
  · simp
  · next hcpu => exact absurd hcpu hpc

theorem thread_cpu_ne_none (hi : i < C.numCpus) (hpc : (s.os.cpu i).pc ≠ .stopped) :
    s.thread C (.cpu i) ≠ .error none := by
  have hcpu : cpuRoutine (C.os false) s.os i ≠ .error none := cpuRoutine_ne_none rfl hpc
  have hn : i < (C.os false).numCpus := hi
  simp only [SimSys.thread, osStep, if_pos hn]
  cases hx : cpuRoutine (C.os false) s.os i with
  | ok os => simp
  | error e =>
    rw [hx] at hcpu
    simpa using hcpu

theorem thread_ld_ne_none {early : Bool} (hpc : s.os.ld.pc ≠ .detached) : s.thread C (.ld early) ≠ .error none := by
  have hld : ldRoutine (C.os false) s.os early ≠ .error none := ldRoutine_ne_none rfl hpc
  rw [SimSys.thread, osStep]
  cases hx : ldRoutine (C.os false) s.os early with
  | ok os => simp
  | error e =>
    rw [hx] at hld
    simpa using hld

theorem cpuRest_ne_none (hi : i < C.numCpus) (hpc : (s.os.cpu i).pc ≠ .stopped) : s.cpuRest C i ≠ .error none := by
  unfold SimSys.cpuRest
  split
  · simp
  · split
    · split
      · simp
      · split <;> simp
    · exact thread_cpu_ne_none hi hpc

theorem ldRest_ne_none (hpc : s.os.ld.pc ≠ .detached) : s.ldRest C ≠ .error none := by
  unfold SimSys.ldRest
  split
  · simp
  · exact thread_ld_ne_none hpc

theorem bind_ne_none {α β : Type} {x : Except (Option Ub) α} {f : α → Except (Option Ub) β} {y : α} (hx : x = .ok y)
    (hf : f y ≠ .error none) : (x >>= f) ≠ .error none := by
  rw [hx]
  exact hf

theorem simStep_ne_none (hx : actStep C s act ≠ .error none) : simStep C s act ≠ .error none := by
  unfold simStep
  cases hact : actStep C s act with
  | ok s' => exact bind_ne_none rfl (by simp [pure, Except.pure])
  | error e =>
    rw [hact] at hx
    simpa [bind, Except.bind] using hx

theorem timed_ok {b : Option TimerAct} (h : TimerCase C s.timer b t) : s.timed C b = .ok { s with timer := t } := by
  cases b with
  | none =>
    cases h
    rfl
  | some a =>
    have hx : timerStep C.devices s.timer a = .ok ((), t) := h
    rw [SimSys.timed, hx]

/-- A CPU has a next step unless it has stopped or sleeps. -/
theorem cpu_can_step (hc : Coupled C s) (hi : i < C.numCpus) (hpc : (s.os.cpu i).pc ≠ .stopped)
    (hdev : (s.timer.dev (C.cpuDev i)).pc ≠ .asleep) : simStep C s (.cpu i) ≠ .error none := by
  have hd := hc.cpu i hi
  have htimer : ∃ t, TimerCase C s.timer (s.cpuTimer C i) t := by
    unfold SimSys.cpuTimer
    cases hcpu : (s.os.cpu i).pc with
    | toCall =>
      rw [hcpu] at hd
      exact ⟨_, if_pos ⟨cpuDev_lt hi, hd.running⟩⟩
    | inSlot =>
      rw [hcpu] at hd
      exact ⟨_, if_pos ⟨cpuDev_lt hi, hd.waiting hdev⟩⟩
    | leaving =>
      rw [hcpu] at hd
      exact ⟨_, if_pos ⟨cpuDev_lt hi, hd.running⟩⟩
    | _ => exact ⟨_, rfl⟩
  obtain ⟨t, htimer⟩ := htimer
  refine simStep_ne_none ?_
  rw [actStep, if_pos hi, cpuStep]
  exact bind_ne_none (timed_ok htimer) (cpuRest_ne_none hi hpc)

theorem ld_can_step (hc : Coupled C s) (hpc : s.os.ld.pc ≠ .detached) (hdev : (s.timer.dev LD_DEV).pc ≠ .asleep) :
    simStep C s .ld ≠ .error none := by
  have hd := hc.ld
  have htimer : ∃ t, TimerCase C s.timer (s.ldTimer C) t := by
    unfold SimSys.ldTimer
    cases hld : s.os.ld.pc with
    | check =>
      rw [hld] at hd
      dsimp only
      split
      · exact ⟨_, if_pos ⟨ld_lt C, hd.running⟩⟩
      · exact ⟨_, rfl⟩
    | added =>
      rw [hld] at hd
      exact ⟨_, if_pos ⟨ld_lt C, hd.running⟩⟩
    | early =>
      rw [hld] at hd
      exact ⟨_, if_pos ⟨ld_lt C, hd.waiting hdev⟩⟩
    | inSlot =>
      rw [hld] at hd
      exact ⟨_, if_pos ⟨ld_lt C, hd.waiting hdev⟩⟩
    | leaving =>
      rw [hld] at hd
      exact ⟨_, if_pos ⟨ld_lt C, hd.running⟩⟩
    | _ => exact ⟨_, rfl⟩
  obtain ⟨t, htimer⟩ := htimer
  refine simStep_ne_none ?_
  exact bind_ne_none (timed_ok htimer) (ldRest_ne_none hpc)

theorem dev_cases {j : Nat} (hj : j < C.devices) : j = LD_DEV ∨ ∃ i < C.numCpus, j = C.cpuDev i := by
  unfold SimConfig.devices at hj
  unfold SimConfig.cpuDev LD_DEV
  rcases Nat.eq_zero_or_pos j with h | h
  · exact .inl h
  · exact .inr ⟨C.numCpus - j, by omega, by omega⟩

theorem dev_can_step (hc : Coupled C s) {j : Nat} (hj : j < C.devices)
    (hdev : (s.timer.dev j).pc = .running ∨ (s.timer.dev j).pc = .waiting) :
    ∃ act, act ≠ .stop ∧ simStep C s act ≠ .error none := by
  have hawake : (s.timer.dev j).pc ≠ .asleep := by
    rcases hdev with h | h <;> rw [h] <;> decide
  have hfin : (s.timer.dev j).pc ≠ .finished := by
    rcases hdev with h | h <;> rw [h] <;> decide
  rcases dev_cases hj with rfl | ⟨i, hi, rfl⟩
  · exact ⟨.ld, by simp, ld_can_step hc (fun hpc => hfin (hc.ld.finished_iff.mpr (ldPlace_ended.mpr hpc))) hawake⟩
  · exact ⟨.cpu i, by simp,
      cpu_can_step hc hi (fun hpc => hfin ((hc.cpu i hi).finished_iff.mpr (cpuPlace_ended.mpr hpc)))
      hawake⟩

/-- All threads have ended, or one of them has a next step, when they are where the timer has them. -/
theorem ended_or_step {k : TimerHistory} (hc : Coupled C s) (hk : Run (timerStep C.devices) .start k s.timer) :
    AllEnded C s ∨ ∃ act, act ≠ .stop ∧ simStep C s act ≠ .error none := by
  by_cases hrunning : ∃ j < C.devices, (s.timer.dev j).pc = .running
  · obtain ⟨j, hj, hpc⟩ := hrunning
    exact .inr (dev_can_step hc hj (.inl hpc))
  · have hnone : ∀ j < C.devices, (s.timer.dev j).pc ≠ .running := fun j hj hpc => hrunning ⟨j, hj, hpc⟩
    rcases no_deadlock hk hnone with ⟨hstop, hall⟩ | ⟨act, t, hact, hx⟩
    · refine .inl ⟨fun i hi => ?_, ?_, hstop⟩
      · exact cpuPlace_ended.mp ((hc.cpu i hi).finished_iff.mp (hall _ (cpuDev_lt hi)))
      · exact ldPlace_ended.mp (hc.ld.finished_iff.mp (hall _ (ld_lt C)))
    · rcases hact with rfl | ⟨j, hj, rfl⟩
      · refine .inr ⟨.timer, by simp, simStep_ne_none ?_⟩
        have htimer : TimerCase C s.timer (some .timer) t := hx
        rw [actStep, timed_ok htimer]
        simp
      · cases timerStep_move hx with
        | wait _ hwait => exact .inr (dev_can_step hc hj (.inr hwait))

/-- No deadlock: in every state reached all threads have ended, or one of them has a next step. -/
theorem never_stuck (hrun : Run (simStep C) (.boot C) h s) :
    AllEnded C s ∨ ∃ act, act ≠ .stop ∧ simStep C s act ≠ .error none := by
  obtain ⟨k, hk, -⟩ := timer_image hrun
  exact ended_or_step (coupled_run hrun) hk

/-- In the third slot. -/
theorem never_stuck_twoPrograms : ∃ (h : SimHistory) (s : SimSys), h.map Entry.act = twoProgramsRun.drop 40 ∧
    (AllEnded twoPrograms s ∨ ∃ act, act ≠ .stop ∧ simStep twoPrograms s act ≠ .error none) := by
  obtain ⟨h, s, hrun, hact, -⟩ :=
    exists_run_of_replay (simStep twoPrograms) (.boot twoPrograms) (twoProgramsRun.drop 40)
    (fun _ _ => true) (by decide +kernel)
  exact ⟨h, s, hact, never_stuck hrun⟩

end SimpleOs.Sim
