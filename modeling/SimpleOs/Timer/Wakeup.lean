import SimpleOs.Timer.LockStep

/-!
# No lost wakeup

* `no_lost_wakeup` : who sleeps waits for something that has not happened, and somebody is awake;
* `stopped_finished` : the timer ends after all devices have;
* `no_deadlock` : unless all is over, a thread that is awake can take a step.
-/

namespace SimpleOs.Timer

/-- The timer sleeps on the `event_cond` of device `i`. -/
def SleepsOn (s : TimerSys) (i : Nat) : Prop := ∃ fsh event, s.pc = .asleep i fsh event

variable {n : Nat} {s : TimerSys} {h : TimerHistory}

theorem TimerInv.sleepsOn (hinv : TimerInv n s) {i : Nat} (hi : SleepsOn s i) :
    i < n ∧ (s.dev i).done = false ∧ (s.dev i).fsh = false := by
  obtain ⟨fsh, event, hpc⟩ := hi
  have hok := hinv.pc
  rw [hpc] at hok
  exact ⟨hok.1, hok.2.2.2⟩

theorem TimerInv.awaited (hinv : TimerInv n s) {i : Nat} (hi : SleepsOn s i) :
    (s.dev i).pc = .running ∨ (s.dev i).pc = .waiting := by
  obtain ⟨hlt, hdone, hfsh⟩ := hinv.sleepsOn hi
  have hd := hinv.device i hlt
  cases hpc : (s.dev i).pc with
  | running => exact .inl rfl
  | waiting => exact .inr rfl
  | asleep =>
    rw [hd.asleep hpc] at hdone
    cases hdone
  | finished =>
    rw [hd.finished.mpr hpc] at hfsh
    cases hfsh

/-- No wakeup is lost: the timer does not sleep on a device that is done or finished, no device sleeps
with its flag cleared, and the timer and all unfinished devices do not sleep at once. -/
theorem no_lost_wakeup (hrun : Run (timerStep n) .start h s) :
    (∀ i, SleepsOn s i → (s.dev i).done = false ∧ (s.dev i).fsh = false) ∧
    (∀ i < n, (s.dev i).pc = .asleep → (s.dev i).done = true) ∧
    ¬ ((∃ i, SleepsOn s i) ∧ ∀ i < n, (s.dev i).pc ≠ .finished → (s.dev i).pc = .asleep) := by
  have hinv := timerInv_run hrun
  refine ⟨fun i hi => (hinv.sleepsOn hi).2, fun i hi => (hinv.device i hi).asleep, fun ⟨⟨i, hi⟩, hall⟩ => ?_⟩
  have hsleep := hall i (hinv.sleepsOn hi).1
  rcases hinv.awaited hi with hpc | hpc
  · rw [hpc] at hsleep
    cases hsleep (by decide)
  · rw [hpc] at hsleep
    cases hsleep (by decide)

theorem stopped_finished (hrun : Run (timerStep n) .start h s) (hpc : s.pc = .stopped) :
    ∀ i < n, (s.dev i).pc = .finished := by
  have hinv := timerInv_run hrun
  have hok := hinv.pc
  rw [hpc] at hok
  exact fun i hi => (hinv.device i hi).finished.mp (hok i hi)

theorem timerRoutine_isSome (hsleep : ¬ ∃ i, SleepsOn s i) (hpc : s.pc ≠ .stopped) :
    ∃ s', timerRoutine n s = some s' := by
  unfold timerRoutine
  cases hs : s.pc with
  | top => exact ⟨_, rfl⟩
  | scan i fsh event =>
    dsimp only
    split
    · split
      · exact ⟨_, rfl⟩
      · exact ⟨_, rfl⟩
    · exact ⟨_, rfl⟩
  | asleep i fsh event => exact absurd ⟨i, fsh, event, hs⟩ hsleep
  | release i fsh event =>
    dsimp only
    split
    · exact ⟨_, rfl⟩
    · exact ⟨_, rfl⟩
  | stopped => exact absurd hs hpc

/-- No deadlock: while no device runs outside `next_slot`, the timer has ended with all devices, or the
timer or a device in `next_slot` can take a step. -/
theorem no_deadlock (hrun : Run (timerStep n) .start h s) (hrunning : ∀ i < n, (s.dev i).pc ≠ .running) :
    (s.pc = .stopped ∧ ∀ i < n, (s.dev i).pc = .finished) ∨
    ∃ act s', (act = .timer ∨ ∃ i < n, act = .wait i) ∧ timerStep n s act = .ok ((), s') := by
  have hinv := timerInv_run hrun
  by_cases hstop : s.pc = .stopped
  · exact .inl ⟨hstop, stopped_finished hrun hstop⟩
  · by_cases hsleep : ∃ i, SleepsOn s i
    · obtain ⟨i, hi⟩ := hsleep
      have hlt := (hinv.sleepsOn hi).1
      have hwait : (s.dev i).pc = .waiting := (hinv.awaited hi).resolve_left (hrunning i hlt)
      exact .inr ⟨.wait i, _, .inr ⟨i, hlt, rfl⟩, if_pos ⟨hlt, hwait⟩⟩
    · obtain ⟨s', hs'⟩ := timerRoutine_isSome (n := n) hsleep hstop
      refine .inr ⟨.timer, s', .inl rfl, ?_⟩
      rw [timerStep, hs']

/-- Two devices; the timer goes to sleep on the second. -/
theorem no_lost_wakeup_sleep :
    ∃ (h : TimerHistory) (s : TimerSys), h.map Entry.act = [.timer, .timer, .wait 0, .enter 0, .timer] ∧
      (∀ i, SleepsOn s i → (s.dev i).done = false ∧ (s.dev i).fsh = false) ∧
      (∀ i < 2, (s.dev i).pc = .asleep → (s.dev i).done = true) ∧
      ¬ ((∃ i, SleepsOn s i) ∧ ∀ i < 2, (s.dev i).pc ≠ .finished → (s.dev i).pc = .asleep) := by
  obtain ⟨h, s, hrun, hact, _⟩ := exists_run_of_replay (timerStep 2) .start
    [.timer, .timer, .wait 0, .enter 0, .timer] (fun _ _ => true) (by decide)
  exact ⟨h, s, hact, no_lost_wakeup hrun⟩

end SimpleOs.Timer
