import Mathlib.Logic.Function.Basic
import SimpleOs.Lib.Run

/-!
# The timer and its devices (`timer.c`)

Each section that holds a mutex is one step, and so is the work between two of them. A waiter sleeps until
its condition is signalled, a signal to nobody is lost, and who was woken tests its predicate again.

* `Device` : the flags of a `timer_id_t`, where its thread is, and how often it was in `next_slot` and was
  cleared; `TimerSys` : all devices, the timer thread and `_time`;
* `timerRoutine`, `nextSlotDone`, `nextSlotWait`, `detachEvent`, `stopTimer` : the steps;
* `timerStep` : an action of one of the threads; `TimerMove`, `timerStep_move` : what actions do.
-/

namespace SimpleOs.Timer

/-- Where the thread of a device is: outside `next_slot`, in it and about to test `done`, in it and
asleep on `timer_cond`, or past `detach_event`. -/
inductive DevPc
  | running
  | waiting
  | asleep
  | finished
  deriving DecidableEq

structure Device where
  done : Bool
  fsh : Bool
  pc : DevPc
  /-- the number of times it entered `next_slot` -/
  entered : Nat
  /-- the number of times the timer cleared `done` -/
  cleared : Nat

/-- Where the timer thread is, with its locals `fsh` and `event`: at the test of `timer_stop`, about to look
at device `i`, asleep on the `event_cond` of device `i`, about to release device `i`, or past its loop. -/
inductive TimerPc
  | top
  | scan (i fsh event : Nat)
  | asleep (i fsh event : Nat)
  | release (i fsh event : Nat)
  | stopped
  deriving DecidableEq

/-- The devices in the order of `dev_list`, the timer thread, `_time` and `timer_stop`. -/
structure TimerSys where
  dev : Nat → Device
  pc : TimerPc
  time : Nat
  stop : Bool

def attachEvent : Device := ⟨false, false, .running, 0, 0⟩

/-- All devices attached, and `start_timer` called. -/
def TimerSys.start : TimerSys := ⟨fun _ => attachEvent, .top, 0, false⟩

def TimerSys.setDev (s : TimerSys) (i : Nat) (d : Device) : TimerSys := { s with dev := Function.update s.dev i d }

/-- `pthread_cond_signal` on the `event_cond` of device `i` -/
def TimerPc.signalEvent (pc : TimerPc) (i : Nat) : TimerPc :=
  match pc with
  | .asleep j fsh event => if j = i then .scan j fsh event else .asleep j fsh event
  | pc => pc

/-- `pthread_cond_signal` on the `timer_cond` of a device -/
def Device.signalTimer (d : Device) : Device := if d.pc = .asleep then { d with pc := .waiting } else d

/-- The next step of `timer_routine` over `n` devices; there is none while it sleeps or after its end. -/
def timerRoutine (n : Nat) (s : TimerSys) : Option TimerSys :=
  match s.pc with
  | .top => some { s with pc := if s.stop then .stopped else .scan 0 0 0 }
  | .scan i fsh event =>
    if i < n then
      if !(s.dev i).done && !(s.dev i).fsh then some { s with pc := .asleep i fsh event }
      else some { s with pc := .scan (i + 1) (if (s.dev i).fsh then fsh + 1 else fsh) (event + 1) }
    else some { s with pc := .release 0 fsh event, time := s.time + 1 }
  | .asleep .. => none
  | .release i fsh event =>
    if i < n then
      some { s.setDev i (Device.signalTimer { s.dev i with done := false, cleared := (s.dev i).cleared + 1 }) with
        pc := .release (i + 1) fsh event }
    else some { s with pc := if fsh = event then .stopped else .top }
  | .stopped => none

def nextSlotDone (s : TimerSys) (i : Nat) : TimerSys :=
  { s.setDev i { s.dev i with done := true, pc := .waiting, entered := (s.dev i).entered + 1 } with
    pc := s.pc.signalEvent i }

/-- The test of `done` in the second section of `next_slot` -/
def nextSlotWait (s : TimerSys) (i : Nat) : TimerSys :=
  s.setDev i { s.dev i with pc := if (s.dev i).done then .asleep else .running }

/-- `detach_event`, after which the thread ends -/
def detachEvent (s : TimerSys) (i : Nat) : TimerSys :=
  { s.setDev i { s.dev i with fsh := true, pc := .finished } with pc := s.pc.signalEvent i }

/-- `stop_timer`, which is called when the threads of all devices have ended -/
def stopTimer (s : TimerSys) : TimerSys := { s with stop := true }

inductive TimerAct
  | timer
  | enter (i : Nat)
  | wait (i : Nat)
  | detach (i : Nat)
  | stop
  deriving DecidableEq

/-- An action, where it is possible. -/
def timerStep (n : Nat) (s : TimerSys) : TimerAct → Except Disabled (Unit × TimerSys)
  | .timer =>
    match timerRoutine n s with
    | some s => .ok ((), s)
    | none => .error .disabled
  | .enter i => if i < n ∧ (s.dev i).pc = .running then .ok ((), nextSlotDone s i) else .error .disabled
  | .wait i => if i < n ∧ (s.dev i).pc = .waiting then .ok ((), nextSlotWait s i) else .error .disabled
  | .detach i => if i < n ∧ (s.dev i).pc = .running then .ok ((), detachEvent s i) else .error .disabled
  | .stop => if ∀ i < n, (s.dev i).pc = .finished then .ok ((), stopTimer s) else .error .disabled

abbrev TimerHistory := List (Entry TimerSys TimerAct Unit)

inductive TimerMove (n : Nat) (s : TimerSys) : TimerAct → TimerSys → Prop
  | top (hpc : s.pc = .top) : TimerMove n s .timer { s with pc := if s.stop then .stopped else .scan 0 0 0 }
  | sleep {i fsh event : Nat} (hpc : s.pc = .scan i fsh event) (hi : i < n) (hdone : (s.dev i).done = false)
      (hfsh : (s.dev i).fsh = false) : TimerMove n s .timer { s with pc := .asleep i fsh event }
  | pass {i fsh event : Nat} (hpc : s.pc = .scan i fsh event) (hi : i < n)
      (hready : (s.dev i).done = true ∨ (s.dev i).fsh = true) :
      TimerMove n s .timer { s with pc := .scan (i + 1) (if (s.dev i).fsh then fsh + 1 else fsh) (event + 1) }
  | tick {i fsh event : Nat} (hpc : s.pc = .scan i fsh event) (hi : n ≤ i) :
      TimerMove n s .timer { s with pc := .release 0 fsh event, time := s.time + 1 }
  | release {i fsh event : Nat} (hpc : s.pc = .release i fsh event) (hi : i < n) :
      TimerMove n s .timer
        { s.setDev i (Device.signalTimer { s.dev i with done := false, cleared := (s.dev i).cleared + 1 }) with
          pc := .release (i + 1) fsh event }
  | loop {i fsh event : Nat} (hpc : s.pc = .release i fsh event) (hi : n ≤ i) :
      TimerMove n s .timer { s with pc := if fsh = event then .stopped else .top }
  | enter {i : Nat} (hi : i < n) (hpc : (s.dev i).pc = .running) : TimerMove n s (.enter i) (nextSlotDone s i)
  | wait {i : Nat} (hi : i < n) (hpc : (s.dev i).pc = .waiting) : TimerMove n s (.wait i) (nextSlotWait s i)
  | detach {i : Nat} (hi : i < n) (hpc : (s.dev i).pc = .running) : TimerMove n s (.detach i) (detachEvent s i)
  | stop (hall : ∀ i < n, (s.dev i).pc = .finished) : TimerMove n s .stop (stopTimer s)

variable {n : Nat} {s s' : TimerSys} {act : TimerAct} {r : Unit}

theorem timerRoutine_move (h : timerRoutine n s = some s') : TimerMove n s .timer s' := by
  unfold timerRoutine at h
  split at h
  · next hpc =>
    cases h
    exact .top hpc
  · next i fsh event hpc =>
    split at h
    · next hi =>
      split at h
      · next hflags =>
        cases h
        rw [Bool.and_eq_true, Bool.not_eq_true', Bool.not_eq_true'] at hflags
        exact .sleep hpc hi hflags.1 hflags.2
      · next hflags =>
        cases h
        refine .pass hpc hi ?_
        cases hdone : (s.dev i).done
        · cases hfsh : (s.dev i).fsh
          · rw [hdone, hfsh] at hflags
            exact absurd rfl hflags
          · exact .inr rfl
        · exact .inl rfl
    · next hi =>
      cases h
      exact .tick hpc (Nat.le_of_not_lt hi)
  · cases h
  · next i fsh event hpc =>
    split at h
    · next hi =>
      cases h
      exact .release hpc hi
    · next hi =>
      cases h
      exact .loop hpc (Nat.le_of_not_lt hi)
  · cases h

/-- An action makes one of its moves. -/
theorem timerStep_move (h : timerStep n s act = .ok (r, s')) : TimerMove n s act s' := by
  cases act with
  | timer =>
    simp only [timerStep] at h
    split at h
    · next hx =>
      cases h
      exact timerRoutine_move hx
    · cases h
  | enter i =>
    simp only [timerStep] at h
    split at h
    · next hi =>
      cases h
      exact .enter hi.1 hi.2
    · cases h
  | wait i =>
    simp only [timerStep] at h
    split at h
    · next hi =>
      cases h
      exact .wait hi.1 hi.2
    · cases h
  | detach i =>
    simp only [timerStep] at h
    split at h
    · next hi =>
      cases h
      exact .detach hi.1 hi.2
    · cases h
  | stop =>
    simp only [timerStep] at h
    split at h
    · next hall =>
      cases h
      exact .stop hall
    · cases h

/-! ## The parts of a state -/

theorem TimerSys.setDev_dev_self (s : TimerSys) (i : Nat) (d : Device) : (s.setDev i d).dev i = d :=
  Function.update_self ..

theorem TimerSys.setDev_dev_of_ne (s : TimerSys) {i j : Nat} (h : j ≠ i) (d : Device) :
    (s.setDev i d).dev j = s.dev j := Function.update_of_ne h ..

@[simp] theorem Device.signalTimer_done (d : Device) : d.signalTimer.done = d.done := by
  unfold Device.signalTimer
  split <;> rfl

@[simp] theorem Device.signalTimer_fsh (d : Device) : d.signalTimer.fsh = d.fsh := by
  unfold Device.signalTimer
  split <;> rfl

@[simp] theorem Device.signalTimer_entered (d : Device) : d.signalTimer.entered = d.entered := by
  unfold Device.signalTimer
  split <;> rfl

@[simp] theorem Device.signalTimer_cleared (d : Device) : d.signalTimer.cleared = d.cleared := by
  unfold Device.signalTimer
  split <;> rfl

end SimpleOs.Timer
