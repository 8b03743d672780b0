import SimpleOs.Timer.LockStep

/-!
# How far the timer is

* `waitRank` : how far a device is in `next_slot`; `roundRank` : how far the timer is in its loop;
* `TimerSys.rank` : over all rounds; `timer_rank` : a step of the timer raises it; `device_rank` : no other lowers it;
  `rank_lt`, `entered_le` : `_time` bounds it, and the calls of `next_slot`.
-/

namespace SimpleOs.Timer

variable {n : Nat} {s s' : TimerSys} {act : TimerAct} {r : Unit} {i j : Nat} {d : Device}

/-- How far a device in `next_slot` is: about to sleep, asleep, or about to return. -/
def waitRank (d : Device) : Nat := if d.pc = .asleep then 1 else if d.done then 0 else 2

/-- Whether the timer goes on from a device. -/
def readyRank (d : Device) : Nat := if d.done || d.fsh then 2 else 0

/-- How far the timer is in its loop, from the first device that it clears. -/
def roundRank (n : Nat) (s : TimerSys) : Nat :=
  match s.pc with
  | .release i _ _ => i
  | .top => n + 1
  | .stopped => n + 2
  | .scan i _ _ => n + 2 + 3 * i + readyRank (s.dev i)
  | .asleep i _ _ => n + 3 + 3 * i

def roundSize (n : Nat) : Nat := 4 * n + 5

def TimerSys.rank (n : Nat) (s : TimerSys) : Nat := roundSize n * s.time + roundRank n s

theorem waitRank_le (d : Device) : waitRank d ≤ 2 := by
  unfold waitRank
  split
  · decide
  · split <;> decide

theorem waitRank_cleared (d : Device) :
    waitRank (Device.signalTimer { d with done := false, cleared := d.cleared + 1 }) = 2 := by
  unfold waitRank
  rw [Device.signalTimer_done]
  by_cases hpc : d.pc = .asleep
  · simp [Device.signalTimer, hpc]
  · simp [Device.signalTimer, hpc]

theorem waitRank_timer (hx : timerStep n s .timer = .ok (r, s')) (j : Nat) :
    waitRank (s.dev j) ≤ waitRank (s'.dev j) := by
  cases timerStep_move hx with
  | @release i =>
    show _ ≤ waitRank ((s.setDev i _).dev j)
    by_cases hj : j = i
    · rw [hj, TimerSys.setDev_dev_self, waitRank_cleared]
      exact waitRank_le _
    · exact Nat.le_of_eq (by rw [TimerSys.setDev_dev_of_ne _ hj])
  | _ => exact Nat.le_refl _

theorem readyRank_le (d : Device) : readyRank d ≤ 2 := by
  unfold readyRank
  split <;> decide

theorem readyRank_of_ready (h : d.done = true ∨ d.fsh = true) : readyRank d = 2 := by
  rw [← Bool.or_eq_true] at h
  exact if_pos h

theorem roundRank_lt (hs : TimerInv n s) : roundRank n s < roundSize n := by
  have hpc := hs.pc
  unfold roundRank roundSize
  cases h : s.pc with
  | top => dsimp only; omega
  | stopped => dsimp only; omega
  | scan i fsh event =>
    rw [h] at hpc
    have hi := hpc.1
    have hready := readyRank_le (s.dev i)
    dsimp only
    omega
  | asleep i fsh event =>
    rw [h] at hpc
    have hi := hpc.1
    dsimp only
    omega
  | release i fsh event =>
    rw [h] at hpc
    have hi := hpc.1
    dsimp only
    omega

/-- A step of the timer raises its rank. -/
theorem timer_rank (hs : TimerInv n s) (hx : timerStep n s .timer = .ok (r, s')) : s.rank n < s'.rank n := by
  have hlt := roundRank_lt hs
  have hpcOk := hs.pc
  unfold TimerSys.rank
  cases timerStep_move hx with
  | top hpc =>
    cases hstop : s.stop with
    | true =>
      simp only [roundRank, hpc, if_true]
      omega
    | false =>
      simp only [roundRank, hpc, Bool.false_eq_true, if_false]
      omega
  | sleep hpc hi hdone hfsh =>
    simp only [roundRank, hpc, readyRank, hdone, hfsh]
    simp
  | @pass i fsh event hpc hi hready =>
    have hrank := readyRank_of_ready hready
    simp only [roundRank, hpc]
    omega
  | tick hpc hi =>
    simp only [roundRank, Nat.mul_succ]
    unfold roundRank at hlt
    omega
  | release hpc hi =>
    simp only [roundRank, hpc]
    exact Nat.lt_succ_self _
  | @loop i fsh event hpc hi =>
    rw [hpc] at hpcOk
    have hle := hpcOk.1
    by_cases hfsh : fsh = event
    · simp only [roundRank, hpc, if_pos hfsh]
      omega
    · simp only [roundRank, hpc, if_neg hfsh]
      omega

theorem roundRank_signal {dev : Nat → Device} (hdev : ∀ j, j ≠ i → dev j = s.dev j)
    (hready : (dev i).done = true ∨ (dev i).fsh = true) :
    roundRank n s ≤ roundRank n { s with dev := dev, pc := s.pc.signalEvent i } := by
  have hle : ∀ k, readyRank (s.dev k) ≤ readyRank (dev k) := fun k => by
    by_cases hk : k = i
    · rw [hk, readyRank_of_ready hready]
      exact readyRank_le _
    · exact Nat.le_of_eq (by rw [hdev k hk])
  unfold roundRank
  dsimp only
  cases hpc : s.pc with
  | scan k fsh event =>
    have hk := hle k
    simp only [TimerPc.signalEvent]
    omega
  | asleep k fsh event =>
    simp only [TimerPc.signalEvent]
    by_cases hk : k = i
    · rw [if_pos hk]
      dsimp only
      rw [hk, readyRank_of_ready hready]
      omega
    · exact Nat.le_of_eq (by rw [if_neg hk])
  | _ => exact Nat.le_refl _

/-- No other step lowers it. -/
theorem device_rank (hact : act ≠ .timer) (hx : timerStep n s act = .ok (r, s')) :
    s'.time = s.time ∧ s.rank n ≤ s'.rank n := by
  unfold TimerSys.rank
  cases timerStep_move hx with
  | @enter i hi hpc =>
    refine ⟨rfl, Nat.add_le_add_left (roundRank_signal (fun j hj => TimerSys.setDev_dev_of_ne s hj _) (.inl ?_)) _⟩
    exact congrArg Device.done (TimerSys.setDev_dev_self s i _)
  | @detach i hi hpc =>
    refine ⟨rfl, Nat.add_le_add_left (roundRank_signal (fun j hj => TimerSys.setDev_dev_of_ne s hj _) (.inr ?_)) _⟩
    exact congrArg Device.fsh (TimerSys.setDev_dev_self s i _)
  | @wait i hi hpc =>
    refine ⟨rfl, Nat.add_le_add_left (Nat.le_of_eq ?_) _⟩
    have hflags : ∀ k, ((nextSlotWait s i).dev k).done = (s.dev k).done ∧
        ((nextSlotWait s i).dev k).fsh = (s.dev k).fsh := by
      intro k
      unfold nextSlotWait
      by_cases hk : k = i
      · rw [hk, TimerSys.setDev_dev_self]
        exact ⟨rfl, rfl⟩
      · rw [TimerSys.setDev_dev_of_ne s hk]
        exact ⟨rfl, rfl⟩
    have hpc' : (nextSlotWait s i).pc = s.pc := rfl
    unfold roundRank
    rw [hpc']
    cases s.pc with
    | scan k fsh event =>
      simp only [readyRank]
      rw [(hflags k).1, (hflags k).2]
    | _ => rfl
  | stop => exact ⟨rfl, Nat.le_refl _⟩
  | _ => exact absurd rfl hact

theorem stop_eq (hact : act ≠ .stop) (hx : timerStep n s act = .ok (r, s')) : s'.stop = s.stop := by
  cases timerStep_move hx with
  | stop => exact absurd rfl hact
  | _ => rfl

theorem entered_le {h : TimerHistory} (hrun : Run (timerStep n) .start h s) (hi : i < n) :
    (s.dev i).entered ≤ s.time + 1 := by
  revert i
  refine hrun.invariant (I := fun _ s => ∀ {i}, i < n → (s.dev i).entered ≤ s.time + 1) (fun _ => Nat.zero_le _) ?_
  intro _ s a _ s' hrun hle hx i hi
  have hle := hle hi
  cases timerStep_move hx with
  | @release k =>
    show ((s.setDev k _).dev i).entered ≤ _
    by_cases hk : i = k
    · rw [hk, TimerSys.setDev_dev_self, Device.signalTimer_entered]
      exact hk ▸ hle
    · rw [TimerSys.setDev_dev_of_ne _ hk]
      exact hle
  | @enter k hk hpc =>
    show ((s.setDev k _).dev i).entered ≤ _
    by_cases hik : i = k
    · subst hik
      have hd := (timerInv_run hrun).device i hk
      have hent := hd.entered (by rw [hpc]; decide)
      have hcleared := hd.cleared
      rw [hd.running hpc] at hent
      rw [TimerSys.setDev_dev_self]
      simp only [Bool.false_eq_true, if_false, Nat.add_zero] at hent ⊢
      show _ ≤ s.time + 1
      omega
    · rw [TimerSys.setDev_dev_of_ne _ hik]
      exact hle
  | @wait k =>
    show ((s.setDev k _).dev i).entered ≤ _
    by_cases hk : i = k
    · rw [hk, TimerSys.setDev_dev_self]
      exact hk ▸ hle
    · rw [TimerSys.setDev_dev_of_ne _ hk]
      exact hle
  | @detach k =>
    show ((s.setDev k _).dev i).entered ≤ _
    by_cases hk : i = k
    · rw [hk, TimerSys.setDev_dev_self]
      exact hk ▸ hle
    · rw [TimerSys.setDev_dev_of_ne _ hk]
      exact hle
  | tick => exact Nat.le_trans hle (Nat.le_succ _)
  | _ => exact hle

theorem rank_lt (hs : TimerInv n s) : s.rank n < roundSize n * (s.time + 1) := by
  have hlt := roundRank_lt hs
  unfold TimerSys.rank
  rw [Nat.mul_succ]
  omega

end SimpleOs.Timer
