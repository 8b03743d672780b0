import SimpleOs.Timer.Routine

/-!
# The devices in lock step

* `TimerPc.owes` : the timer has yet to clear a device in this slot;
* `DeviceOk` : the flags and counts of a device; `PcOk` : what the timer has seen of the devices where it is;
* `TimerInv`, `timerInv_step`, `timerInv_run` : both hold in every state reached;
* `tick_ready` : `_time` advances when every device is done or finished;
* `barrier` : a device returns from `next_slot` after every other has called it as often;
* `lock_step` : every device has entered `next_slot` `_time` or `_time + 1` times, and was cleared once in
  every slot.
-/

namespace SimpleOs.Timer

/-- 1 while the timer has yet to clear device `i` in this slot. -/
def TimerPc.owes (pc : TimerPc) (i : Nat) : Nat :=
  match pc with
  | .release k _ _ => if k ≤ i then 1 else 0
  | _ => 0

/-- A device, at a time at which it is owed `owes` clearings. -/
structure DeviceOk (owes time : Nat) (d : Device) : Prop where
  cleared : d.cleared + owes = time
  entered : d.pc ≠ .finished → d.entered = d.cleared + if d.done then 1 else 0
  finished : d.fsh = true ↔ d.pc = .finished
  running : d.pc = .running → d.done = false
  asleep : d.pc = .asleep → d.done = true

def Ready (dev : Nat → Device) (i : Nat) : Prop := (dev i).done = true ∨ (dev i).fsh = true

/-- After `event` devices, `fsh` of them finished: the two agree only when all are. -/
def Counted (dev : Nat → Device) (fsh event : Nat) : Prop :=
  fsh ≤ event ∧ (fsh = event → ∀ j < event, (dev j).fsh = true)

def PcOk (n : Nat) (dev : Nat → Device) : TimerPc → Prop
  | .top => True
  | .scan i fsh event => i ≤ n ∧ event = i ∧ (∀ j < i, Ready dev j) ∧ Counted dev fsh event
  | .asleep i fsh event => i < n ∧ event = i ∧ ((∀ j < i, Ready dev j) ∧ Counted dev fsh event) ∧
      (dev i).done = false ∧ (dev i).fsh = false
  | .release k fsh event => k ≤ n ∧ event = n ∧ (∀ j, k ≤ j → j < n → Ready dev j) ∧ Counted dev fsh event
  | .stopped => ∀ j < n, (dev j).fsh = true

/-- The invariant of the protocol. -/
structure TimerInv (n : Nat) (s : TimerSys) : Prop where
  device : ∀ i < n, DeviceOk (s.pc.owes i) s.time (s.dev i)
  pc : PcOk n s.dev s.pc
  stop : s.stop = true → ∀ j < n, (s.dev j).fsh = true

variable {n : Nat} {s s' : TimerSys} {act : TimerAct} {r : Unit} {h : TimerHistory} {i : Nat} {d : Device}
  {owes time : Nat} {pc : TimerPc}

theorem timerInv_start : TimerInv n .start where
  device := fun _ _ => ⟨rfl, fun _ => rfl, by simp [TimerSys.start, attachEvent], fun _ => rfl, fun h => by cases h⟩
  pc := trivial
  stop := fun h => by cases h

/-! ## Steps of a device -/

theorem DeviceOk.enter (hd : DeviceOk owes time d) (hpc : d.pc = .running) :
    DeviceOk owes time { d with done := true, pc := .waiting, entered := d.entered + 1 } where
  cleared := hd.cleared
  entered := fun _ => by
    have hent := hd.entered (by rw [hpc]; decide)
    rw [hd.running hpc] at hent
    simpa using hent
  finished := by
    have hfin := hd.finished
    rw [hpc] at hfin
    simpa using hfin
  running := fun h => by cases h
  asleep := fun h => by cases h

theorem DeviceOk.wait (hd : DeviceOk owes time d) (hpc : d.pc = .waiting) :
    DeviceOk owes time { d with pc := if d.done then .asleep else .running } where
  cleared := hd.cleared
  entered := fun _ => hd.entered (by rw [hpc]; decide)
  finished := by
    have hfin := hd.finished
    rw [hpc] at hfin
    cases hdone : d.done <;> simpa using hfin
  running := fun h => by
    cases hdone : d.done
    · rfl
    · simp [hdone] at h
  asleep := fun h => by
    cases hdone : d.done
    · simp [hdone] at h
    · rfl

theorem DeviceOk.detach (hd : DeviceOk owes time d) : DeviceOk owes time { d with fsh := true, pc := .finished } where
  cleared := hd.cleared
  entered := fun h => absurd rfl h
  finished := iff_of_true rfl rfl
  running := fun h => by cases h
  asleep := fun h => by cases h

theorem DeviceOk.release (hd : DeviceOk 1 time d) (hready : d.done = true ∨ d.fsh = true) :
    DeviceOk 0 time (Device.signalTimer { d with done := false, cleared := d.cleared + 1 }) where
  cleared := by
    rw [Device.signalTimer_cleared]
    exact hd.cleared
  entered := fun hpc => by
    have hne : d.pc ≠ .finished := by
      intro he
      rw [Device.signalTimer] at hpc
      dsimp only at hpc
      rw [he] at hpc
      exact hpc rfl
    have hdone : d.done = true := by
      rcases hready with hdone | hfsh
      · exact hdone
      · exact absurd (hd.finished.mp hfsh) hne
    have hent := hd.entered hne
    rw [hdone] at hent
    rw [Device.signalTimer_entered, Device.signalTimer_cleared, Device.signalTimer_done]
    simpa using hent
  finished := by
    rw [Device.signalTimer_fsh, hd.finished, Device.signalTimer]
    dsimp only
    split
    · next he => simp [he]
    · rfl
  running := fun _ => by rw [Device.signalTimer_done]
  asleep := fun hpc => by
    rw [Device.signalTimer] at hpc
    split at hpc
    · cases hpc
    · next hne => exact absurd hpc hne

/-! ## What the timer has seen -/

variable {dev dev' : Nat → Device}

structure FlagsUp (dev dev' : Nat → Device) : Prop where
  done : ∀ j, (dev j).done = true → (dev' j).done = true
  fsh : ∀ j, (dev j).fsh = true → (dev' j).fsh = true

theorem FlagsUp.ready (hup : FlagsUp dev dev') {j : Nat} (h : Ready dev j) : Ready dev' j := by
  rcases h with h | h
  · exact .inl (hup.done j h)
  · exact .inr (hup.fsh j h)

theorem Counted.up (hup : ∀ j, (dev j).fsh = true → (dev' j).fsh = true) {fsh event : Nat} (h : Counted dev fsh event) :
    Counted dev' fsh event := ⟨h.1, fun he j hj => hup j (h.2 he j hj)⟩

/-- What the timer has seen stays true when flags go up on device `i`, which is signalled. -/
theorem PcOk.signal (hpc : PcOk n dev pc) (hup : FlagsUp dev dev') (hne : ∀ j, j ≠ i → dev' j = dev j) :
    PcOk n dev' (pc.signalEvent i) := by
  cases pc with
  | top => trivial
  | scan k fsh event => exact ⟨hpc.1, hpc.2.1, fun j hj => hup.ready (hpc.2.2.1 j hj), hpc.2.2.2.up hup.fsh⟩
  | asleep k fsh event =>
    obtain ⟨hk, hev, ⟨hready, hcount⟩, hflags⟩ := hpc
    rw [TimerPc.signalEvent]
    split
    · exact ⟨Nat.le_of_lt hk, hev, fun j hj => hup.ready (hready j hj), hcount.up hup.fsh⟩
    · next hki =>
      refine ⟨hk, hev, ⟨fun j hj => hup.ready (hready j hj), hcount.up hup.fsh⟩, ?_⟩
      rw [hne k hki]
      exact hflags
  | release k fsh event =>
    exact ⟨hpc.1, hpc.2.1, fun j hk hj => hup.ready (hpc.2.2.1 j hk hj), hpc.2.2.2.up hup.fsh⟩
  | stopped => exact fun j hj => hup.fsh j (hpc j hj)

theorem signalEvent_owes (pc : TimerPc) (i j : Nat) : (pc.signalEvent i).owes j = pc.owes j := by
  cases pc with
  | asleep k fsh event =>
    rw [TimerPc.signalEvent]
    split
    · rfl
    · rfl
  | top => rfl
  | scan => rfl
  | release => rfl
  | stopped => rfl

theorem update_flag {f : Device → Bool} (hf : f (dev i) = true → f d = true) (j : Nat) (hj : f (dev j) = true) :
    f (Function.update dev i d j) = true := by
  by_cases hji : j = i
  · rw [hji] at hj ⊢
    rw [Function.update_self]
    exact hf hj
  · rw [Function.update_of_ne hji]
    exact hj

theorem PcOk.same (hpc : PcOk n dev pc) (hdone : ∀ j, (dev' j).done = (dev j).done)
    (hfsh : ∀ j, (dev' j).fsh = (dev j).fsh) : PcOk n dev' pc := by
  cases pc with
  | top => trivial
  | scan => simpa only [PcOk, Ready, Counted, hdone, hfsh] using hpc
  | asleep => simpa only [PcOk, Ready, Counted, hdone, hfsh] using hpc
  | release => simpa only [PcOk, Ready, Counted, hdone, hfsh] using hpc
  | stopped => simpa only [PcOk, hfsh] using hpc

theorem TimerInv.device_step (hinv : TimerInv n s) {pc : TimerPc} (hd : DeviceOk (s.pc.owes i) s.time d)
    (hfsh : (s.dev i).fsh = true → d.fsh = true) (hpc : PcOk n (Function.update s.dev i d) pc)
    (howes : ∀ j, pc.owes j = s.pc.owes j) : TimerInv n { s.setDev i d with pc := pc } := by
  refine ⟨fun j hj => ?_, hpc, fun hstop j hj => update_flag (f := Device.fsh) hfsh j (hinv.stop hstop j hj)⟩
  show DeviceOk (pc.owes j) s.time (Function.update s.dev i d j)
  rw [howes]
  by_cases hji : j = i
  · rw [hji, Function.update_self]
    exact hd
  · rw [Function.update_of_ne hji]
    exact hinv.device j hj

theorem TimerInv.signal_step (hinv : TimerInv n s) (hd : DeviceOk (s.pc.owes i) s.time d)
    (hdone : (s.dev i).done = true → d.done = true) (hfsh : (s.dev i).fsh = true → d.fsh = true) :
    TimerInv n { s.setDev i d with pc := s.pc.signalEvent i } := by
  have hup : FlagsUp s.dev (Function.update s.dev i d) :=
    ⟨update_flag (f := Device.done) hdone, update_flag (f := Device.fsh) hfsh⟩
  exact hinv.device_step hd hfsh (hinv.pc.signal hup fun j hj => Function.update_of_ne hj ..) fun j =>
    signalEvent_owes s.pc i j

/-! ## Steps of the timer -/

theorem TimerInv.timer_step (hinv : TimerInv n s) {time : Nat} (hpc : PcOk n s.dev pc)
    (howes : ∀ i < n, pc.owes i + s.time = s.pc.owes i + time) : TimerInv n { s with pc := pc, time := time } := by
  refine ⟨fun i hi => ?_, hpc, hinv.stop⟩
  have hd := hinv.device i hi
  have hcl := hd.cleared
  have ho := howes i hi
  refine ⟨?_, hd.entered, hd.finished, hd.running, hd.asleep⟩
  show (s.dev i).cleared + pc.owes i = time
  omega

theorem pass_counted {fsh : Nat} (hcount : Counted dev fsh i) :
    Counted dev (if (dev i).fsh then fsh + 1 else fsh) (i + 1) := by
  obtain ⟨hle, hall⟩ := hcount
  cases hf : (dev i).fsh with
  | false =>
    refine ⟨?_, fun he => ?_⟩
    · simp only [Bool.false_eq_true, if_false]
      omega
    · simp only [Bool.false_eq_true, if_false] at he
      omega
  | true =>
    simp only [if_true]
    refine ⟨by omega, fun he j hj => ?_⟩
    rcases Nat.lt_succ_iff_lt_or_eq.mp hj with hlt | rfl
    · exact hall (by omega) j hlt
    · exact hf

theorem TimerInv.release_step (hinv : TimerInv n s) {fsh event : Nat} (hpc : s.pc = .release i fsh event) (hi : i < n) :
    TimerInv n
      { s.setDev i (Device.signalTimer { s.dev i with done := false, cleared := (s.dev i).cleared + 1 }) with
        pc := .release (i + 1) fsh event } := by
  have hok := hinv.pc
  rw [hpc] at hok
  obtain ⟨_, hev, hready, hcount⟩ := hok
  have hfsh : ∀ j, (s.dev j).fsh = true → (Function.update s.dev i
      (Device.signalTimer { s.dev i with done := false, cleared := (s.dev i).cleared + 1 }) j).fsh = true :=
    update_flag (f := Device.fsh) fun h => by rw [Device.signalTimer_fsh]; exact h
  refine ⟨fun j hj => ?_, ⟨hi, hev, fun j hij hj => ?_, hcount.up hfsh⟩,
    fun hstop j hj => hfsh j (hinv.stop hstop j hj)⟩
  · show DeviceOk (TimerPc.owes (.release (i + 1) fsh event) j) s.time (Function.update s.dev i _ j)
    have hd := hinv.device j hj
    rw [hpc] at hd
    by_cases hji : j = i
    · subst hji
      have h₁ : TimerPc.owes (.release j fsh event) j = 1 := if_pos (Nat.le_refl j)
      have h₀ : TimerPc.owes (.release (j + 1) fsh event) j = 0 := if_neg (Nat.not_succ_le_self j)
      rw [h₁] at hd
      rw [h₀, Function.update_self]
      exact hd.release (hready j (Nat.le_refl j) hj)
    · have hsame : TimerPc.owes (.release (i + 1) fsh event) j = TimerPc.owes (.release i fsh event) j := by
        simp only [TimerPc.owes]
        exact if_congr (by omega) rfl rfl
      rw [hsame, Function.update_of_ne hji]
      exact hd
  · rw [Ready]
    have hji : j ≠ i := by omega
    show (Function.update s.dev i _ j).done = true ∨ (Function.update s.dev i _ j).fsh = true
    rw [Function.update_of_ne hji]
    exact hready j (by omega) hj

/-! ## Runs -/

/-- Every move keeps the invariant. -/
theorem timerInv_step (hinv : TimerInv n s) (hx : timerStep n s act = .ok (r, s')) : TimerInv n s' := by
  have hok := hinv.pc
  cases timerStep_move hx with
  | top hpc =>
    refine hinv.timer_step ?_ fun i _ => ?_
    · cases hstop : s.stop
      · exact ⟨Nat.zero_le n, rfl, fun _ hj => absurd hj (Nat.not_lt_zero _), Nat.le_refl 0,
          fun _ _ hj => absurd hj (Nat.not_lt_zero _)⟩
      · exact hinv.stop hstop
    · rw [hpc]
      cases s.stop <;> rfl
  | sleep hpc hi hdone hfsh =>
    rw [hpc] at hok
    refine hinv.timer_step ⟨hi, hok.2.1, hok.2.2, hdone, hfsh⟩ fun i _ => ?_
    rw [hpc]
    rfl
  | @pass i fsh event hpc hi hready =>
    rw [hpc] at hok
    obtain ⟨_, rfl, hbefore, hcount⟩ := hok
    refine hinv.timer_step ⟨hi, rfl, fun j hj => ?_, pass_counted hcount⟩ fun i _ => ?_
    · rcases Nat.lt_succ_iff_lt_or_eq.mp hj with hlt | rfl
      · exact hbefore j hlt
      · exact hready
    · rw [hpc]
      rfl
  | @tick i fsh event hpc hi =>
    rw [hpc] at hok
    obtain ⟨hle, rfl, hbefore, hcount⟩ := hok
    obtain rfl : event = n := Nat.le_antisymm hle hi
    refine hinv.timer_step ⟨Nat.zero_le _, rfl, fun j _ hj => hbefore j hj, hcount⟩ fun i _ => ?_
    rw [hpc]
    show (if 0 ≤ i then 1 else 0) + s.time = 0 + (s.time + 1)
    rw [if_pos (Nat.zero_le i)]
    omega
  | release hpc hi => exact hinv.release_step hpc hi
  | @loop i fsh event hpc hi =>
    rw [hpc] at hok
    obtain ⟨hle, rfl, _, hcount⟩ := hok
    refine hinv.timer_step ?_ fun j hj => ?_
    · split
      · next he => exact hcount.2 he
      · trivial
    · rw [hpc]
      have hz : TimerPc.owes (.release i fsh event) j = 0 := if_neg (by omega)
      rw [hz]
      split
      · rfl
      · rfl
  | enter hi hpc =>
    exact hinv.signal_step ((hinv.device _ hi).enter hpc) (fun _ => rfl) fun hfsh => hfsh
  | @wait i hi hpc =>
    refine hinv.device_step ((hinv.device i hi).wait hpc) (fun hfsh => hfsh) (hinv.pc.same (fun j => ?_) fun j => ?_)
      fun _ => rfl
    · by_cases hji : j = i
      · rw [hji, Function.update_self]
      · rw [Function.update_of_ne hji]
    · by_cases hji : j = i
      · rw [hji, Function.update_self]
      · rw [Function.update_of_ne hji]
  | detach hi hpc =>
    exact hinv.signal_step (hinv.device _ hi).detach (fun hdone => hdone) fun _ => rfl
  | stop hall =>
    refine ⟨hinv.device, hinv.pc, fun _ j hj => ?_⟩
    exact (hinv.device j hj).finished.mpr (hall j hj)

theorem timerInv_run (hrun : Run (timerStep n) .start h s) : TimerInv n s :=
  hrun.invariant (I := fun _ s => TimerInv n s) timerInv_start fun _ _ _ _ _ _ hinv hx => timerInv_step hinv hx

theorem tick_ready (hinv : TimerInv n s) (hx : timerStep n s act = .ok (r, s')) (ht : s'.time ≠ s.time) :
    s'.time = s.time + 1 ∧ ∀ i < n, Ready s.dev i := by
  have hok := hinv.pc
  cases timerStep_move hx with
  | @tick i fsh event hpc hi =>
    rw [hpc] at hok
    exact ⟨rfl, fun j hj => hok.2.2.1 j (Nat.lt_of_lt_of_le hj hi)⟩
  | top => exact absurd rfl ht
  | sleep => exact absurd rfl ht
  | pass => exact absurd rfl ht
  | release => exact absurd rfl ht
  | loop => exact absurd rfl ht
  | enter => exact absurd rfl ht
  | wait => exact absurd rfl ht
  | detach => exact absurd rfl ht
  | stop => exact absurd rfl ht

/-- `_time` advanced, at every step that changed it, by one and with every device done or finished. -/
def TicksReady (n : Nat) : TimerHistory → TimerSys → Prop
  | [], _ => True
  | e :: h, s => TicksReady n h e.before ∧
      (s.time ≠ e.before.time → s.time = e.before.time + 1 ∧ ∀ i < n, Ready e.before.dev i)

theorem ticks_ready (hrun : Run (timerStep n) .start h s) : TicksReady n h s := by
  induction hrun with
  | start => trivial
  | next hrun hx ih => exact ⟨ih, tick_ready (timerInv_run hrun) hx⟩

theorem TimerInv.entered (hinv : TimerInv n s) (hi : i < n) (hpc : (s.dev i).pc ≠ .finished) :
    (s.dev i).entered = s.time ∨ (s.dev i).entered = s.time + 1 := by
  have hd := hinv.device i hi
  have hcl := hd.cleared
  have hent := hd.entered hpc
  have hok := hinv.pc
  cases hs : s.pc with
  | release k fsh event =>
    rw [hs] at hok hcl
    simp only [TimerPc.owes] at hcl
    split at hcl
    · next hki =>
      have hdone : (s.dev i).done = true := by
        rcases hok.2.2.1 i hki hi with hdone | hfsh
        · exact hdone
        · exact absurd (hd.finished.mp hfsh) hpc
      rw [hdone] at hent
      simp only [if_true] at hent
      omega
    · split at hent <;> omega
  | top =>
    rw [hs] at hcl
    simp only [TimerPc.owes] at hcl
    split at hent <;> omega
  | scan =>
    rw [hs] at hcl
    simp only [TimerPc.owes] at hcl
    split at hent <;> omega
  | asleep =>
    rw [hs] at hcl
    simp only [TimerPc.owes] at hcl
    split at hent <;> omega
  | stopped =>
    rw [hs] at hcl
    simp only [TimerPc.owes] at hcl
    split at hent <;> omega

/-- The timer is a barrier: a device returns from `next_slot` when every device that has not finished has
called it as often. -/
theorem barrier (hrun : Run (timerStep n) .start h s) (hx : timerStep n s (.wait i) = .ok (r, s'))
    (hback : (s'.dev i).pc = .running) {j : Nat} (hj : j < n) (hpc : (s.dev j).pc ≠ .finished) :
    (s.dev i).entered ≤ (s.dev j).entered := by
  have hinv := timerInv_run hrun
  cases timerStep_move hx with
  | wait hi hwait =>
    have hd := hinv.device i hi
    have hdone : (s.dev i).done = false := by
      rw [nextSlotWait, TimerSys.setDev_dev_self] at hback
      cases hdone : (s.dev i).done
      · rfl
      · simp [hdone] at hback
    have hent := hd.entered (by rw [hwait]; decide)
    rw [hdone] at hent
    have hcleared := hd.cleared
    have hle : s.time ≤ (s.dev j).entered := by
      rcases hinv.entered hj hpc with he | he <;> omega
    simp only [Bool.false_eq_true, if_false, Nat.add_zero] at hent
    omega

/-- The devices are in lock step: a device that has not called `detach_event` has entered `next_slot`
`_time` or `_time + 1` times, `_time` advanced only when every device was done or finished, and the done flag
of every device was cleared once in each slot that is over, and in the slot that ends unless the timer has
yet to reach the device. -/
theorem lock_step (hrun : Run (timerStep n) .start h s) :
    (∀ i < n, (s.dev i).pc ≠ .finished → (s.dev i).entered = s.time ∨ (s.dev i).entered = s.time + 1) ∧
    TicksReady n h s ∧ ∀ i < n, (s.dev i).cleared + s.pc.owes i = s.time := by
  have hinv := timerInv_run hrun
  exact ⟨fun i hi hpc => hinv.entered hi hpc, ticks_ready hrun, fun i hi => (hinv.device i hi).cleared⟩

/-- One slot of two devices, the second of which ends. -/
theorem lock_step_slot :
    ∃ (h : TimerHistory) (s : TimerSys),
      h.map Entry.act = [.timer, .timer, .timer, .timer, .timer, .detach 1, .wait 0, .enter 0, .timer] ∧
      (∀ i < 2, (s.dev i).pc ≠ .finished → (s.dev i).entered = s.time ∨ (s.dev i).entered = s.time + 1) ∧
      TicksReady 2 h s ∧ ∀ i < 2, (s.dev i).cleared + s.pc.owes i = s.time := by
  obtain ⟨h, s, hrun, hact, _⟩ := exists_run_of_replay (timerStep 2) .start
    [.timer, .timer, .timer, .timer, .timer, .detach 1, .wait 0, .enter 0, .timer] (fun _ _ => true) (by decide)
  exact ⟨h, s, hact, lock_step hrun⟩

end SimpleOs.Timer
