import SimpleOs.Lib.Refinement
import SimpleOs.Sim.System

/-!
# The threads and their devices

* `Place` : outside `next_slot`, in it, or ended; `Tied` : a device is where its thread is, and was entered as often
  as the thread called `next_slot`;
* `timer_tied` : operations on other devices and the timer leave it so; `Tied.enter`, `Tied.wait`, `Tied.detach` : its
  own;
* `Coupled`, `coupled_step`, `coupled_run` : all devices, in every state reached;
* `Coupled.time_of_cpu`, `Coupled.time_of_ld` : a thread outside `next_slot` has called it `_time` times;
  `Coupled.passes` : no thread is behind;
* `timer_image` : the timer takes the steps of a timer.
-/

namespace SimpleOs.Sim
open SimpleOs.Mm SimpleOs.Sched SimpleOs.Syscall SimpleOs.Timer SimpleOs.Os SimpleOs.Cpu

inductive Place
  | outside
  | inSlot
  | ended
  deriving DecidableEq

def devPlace : DevPc → Place
  | .running => .outside
  | .waiting | .asleep => .inSlot
  | .finished => .ended

def cpuPlace : CpuPc → Place
  | .inSlot => .inSlot
  | .stopped => .ended
  | _ => .outside

def ldPlace : LdPc → Place
  | .early | .inSlot => .inSlot
  | .detached => .ended
  | _ => .outside

/-- The device of a thread that is at `place` and has called `next_slot` `calls` times. -/
structure Tied (d : Device) (place : Place) (calls : Nat) : Prop where
  place : devPlace d.pc = place
  entered : d.entered = calls

def actDev : TimerAct → Option Nat
  | .enter i | .wait i | .detach i => some i
  | .timer | .stop => none

variable {C : SimConfig} {s s' : SimSys} {t t' : TimerSys} {i j n calls : Nat} {act : SimAct} {r : Unit} {place : Place}
  {a : TimerAct} {h : SimHistory}

theorem Tied.running {d : Device} (hd : Tied d .outside calls) : d.pc = .running := by
  have hplace := hd.place
  unfold devPlace at hplace
  split at hplace
  · assumption
  · cases hplace
  · cases hplace
  · cases hplace

theorem tied_signalTimer {d : Device} (hd : Tied d place calls) : Tied d.signalTimer place calls := by
  refine ⟨?_, by rw [Device.signalTimer_entered]; exact hd.entered⟩
  rw [← hd.place, Device.signalTimer]
  split
  · next hpc =>
    rw [hpc]
    rfl
  · rfl

/-- Another device stays tied, whatever the timer or a device does. -/
theorem timer_tied (hx : timerStep n t a = .ok (r, t')) (hj : actDev a ≠ some j) (hd : Tied (t.dev j) place calls) :
    Tied (t'.dev j) place calls := by
  cases timerStep_move hx with
  | @release i =>
    show Tied ((t.setDev i _).dev j) place calls
    by_cases hij : j = i
    · rw [hij, TimerSys.setDev_dev_self]
      rw [hij] at hd
      exact tied_signalTimer ⟨hd.place, hd.entered⟩
    · rw [TimerSys.setDev_dev_of_ne _ hij]
      exact hd
  | @enter i =>
    have hij : j ≠ i := fun he => hj (congrArg some he.symm)
    show Tied ((t.setDev i _).dev j) place calls
    rw [TimerSys.setDev_dev_of_ne _ hij]
    exact hd
  | @wait i =>
    have hij : j ≠ i := fun he => hj (congrArg some he.symm)
    rw [nextSlotWait, TimerSys.setDev_dev_of_ne _ hij]
    exact hd
  | @detach i =>
    have hij : j ≠ i := fun he => hj (congrArg some he.symm)
    show Tied ((t.setDev i _).dev j) place calls
    rw [TimerSys.setDev_dev_of_ne _ hij]
    exact hd
  | _ => exact hd

theorem Tied.enter (hd : Tied (t.dev j) place calls) (hx : timerStep n t (.enter j) = .ok (r, t')) :
    (t'.dev j).pc = .waiting ∧ Tied (t'.dev j) .inSlot (calls + 1) := by
  cases timerStep_move hx with
  | enter =>
    show ((t.setDev j _).dev j).pc = .waiting ∧ Tied ((t.setDev j _).dev j) .inSlot (calls + 1)
    rw [TimerSys.setDev_dev_self]
    exact ⟨rfl, rfl, congrArg (· + 1) hd.entered⟩

theorem Tied.detach (hd : Tied (t.dev j) place calls) (hx : timerStep n t (.detach j) = .ok (r, t')) :
    Tied (t'.dev j) .ended calls := by
  cases timerStep_move hx with
  | detach =>
    show Tied ((t.setDev j _).dev j) .ended calls
    rw [TimerSys.setDev_dev_self]
    exact ⟨rfl, hd.entered⟩

theorem Tied.wait (hd : Tied (t.dev j) place calls) (hx : timerStep n t (.wait j) = .ok (r, t')) :
    ((t'.dev j).pc = .asleep ∧ Tied (t'.dev j) .inSlot calls) ∨
      ((t'.dev j).pc = .running ∧ Tied (t'.dev j) .outside calls) := by
  cases timerStep_move hx with
  | wait =>
    rw [nextSlotWait, TimerSys.setDev_dev_self]
    cases hdone : (t.dev j).done with
    | true => exact .inl ⟨rfl, rfl, hd.entered⟩
    | false => exact .inr ⟨rfl, rfl, hd.entered⟩

/-! ## All threads -/

structure Coupled (C : SimConfig) (s : SimSys) : Prop where
  cpu : ∀ i < C.numCpus, Tied (s.timer.dev (C.cpuDev i)) (cpuPlace (s.os.cpu i).pc) (s.os.cpu i).calls
  ld : Tied (s.timer.dev LD_DEV) (ldPlace s.os.ld.pc) s.os.ld.calls
  timer : TimerInv C.devices s.timer

theorem cpuDev_lt (hi : i < C.numCpus) : C.cpuDev i < C.devices := by
  unfold SimConfig.cpuDev SimConfig.devices
  omega

theorem cpuDev_ne_ld (hi : i < C.numCpus) : C.cpuDev i ≠ LD_DEV := by
  unfold SimConfig.cpuDev LD_DEV
  omega

theorem cpuDev_inj (hi : i < C.numCpus) (hj : j < C.numCpus) (h : C.cpuDev i = C.cpuDev j) : i = j := by
  unfold SimConfig.cpuDev at h
  omega

theorem coupled_boot (C : SimConfig) : Coupled C (.boot C) where
  cpu := fun _ _ => ⟨rfl, rfl⟩
  ld := by
    unfold SimSys.boot OsSys.boot LdSt.next
    dsimp only
    refine ⟨?_, rfl⟩
    split <;> rfl
  timer := timerInv_start

/-- Where a CPU is after a step, and how often it has then called `next_slot`. -/
def cpuAfter (c : CpuSt Nat) : Place × Nat :=
  match c.pc with
  | .toCall => (.inSlot, c.calls + 1)
  | .leaving | .stopped => (.ended, c.calls)
  | _ => (.outside, c.calls)

theorem cpuMove_place {D : OsConfig Nat Inst} {os os' : OsSys Nat Inst} (hmove : CpuMove D os i os') :
    (cpuPlace (os'.cpu i).pc, (os'.cpu i).calls) = cpuAfter (os.cpu i) := by
  unfold cpuAfter
  cases hmove with
  | @fetch proc sched hpc =>
    rw [hpc, OsSys.setCpu_self]
    cases proc <;> rfl
  | finish hpc => rw [hpc, OsSys.setCpu_self]; rfl
  | put hpc => rw [hpc, OsSys.setCpu_self]; rfl
  | keep hpc => rw [hpc, OsSys.setCpu_self]; rfl
  | reload hpc => rw [hpc, OsSys.setCpu_self]; rfl
  | leave hpc => rw [hpc, OsSys.setCpu_self]; rfl
  | skip hpc => rw [hpc, OsSys.setCpu_self]; rfl
  | dispatch hpc => rw [hpc, OsSys.setCpu_self]; rfl
  | run hpc => rw [hpc, OsSys.setCpu_self]; rfl
  | call hpc => rw [hpc, OsSys.setCpu_self]; rfl
  | pass hpc => rw [hpc, OsSys.setCpu_self]; rfl
  | detach hpc => rw [hpc, OsSys.setCpu_self]; rfl

theorem ldStep_check {D : OsConfig Nat Inst} {os os' : OsSys Nat Inst} {early : Bool} (hpc : os.ld.pc = .check)
    (hx : osStep D os (.ld early) = .ok (r, os')) :
    ∃ proc rest, os.ld.rest = proc :: rest ∧
      ((early = true ∧ os' = { os with ld := ⟨.early, proc :: rest, os.ld.calls + 1⟩ }) ∨
        (early = false ∧ os' =
          { os with sched := os.sched.enter D.fields proc, ld := ⟨.added, rest, os.ld.calls⟩ })) := by
  rw [osStep, ldRoutine, hpc] at hx
  cases hrest : os.ld.rest with
  | nil =>
    rw [hrest] at hx
    cases hx
  | cons proc rest =>
    rw [hrest] at hx
    refine ⟨proc, rest, rfl, ?_⟩
    cases early with
    | true =>
      cases hx
      exact .inl ⟨rfl, rfl⟩
    | false =>
      simp only [Bool.false_eq_true, if_false] at hx
      cases hadd : addProc D.fields os.sched proc with
      | error e =>
        rw [hadd] at hx
        cases hx
      | ok sched =>
        rw [hadd] at hx
        cases hx
        obtain ⟨-, rfl⟩ := addProc_ok hadd
        exact .inr ⟨rfl, rfl⟩

def ldAfter (ld : LdSt Nat) (early : Bool) : Place × Nat :=
  match ld.pc with
  | .check => if early then (.inSlot, ld.calls + 1) else (.outside, ld.calls)
  | .added => (.inSlot, ld.calls + 1)
  | .leaving | .detached => (.ended, ld.calls)
  | _ => (.outside, ld.calls)

theorem ldStep_place {D : OsConfig Nat Inst} {os os' : OsSys Nat Inst} {early : Bool}
    (hx : osStep D os (.ld early) = .ok (r, os')) : (ldPlace os'.ld.pc, os'.ld.calls) = ldAfter os.ld early := by
  unfold ldAfter
  by_cases hcheck : os.ld.pc = .check
  · rw [hcheck]
    obtain ⟨proc, rest, -, ⟨rfl, rfl⟩ | ⟨rfl, rfl⟩⟩ := ldStep_check hcheck hx
    · rfl
    · rfl
  · have hmove : LdMove D os os' := osStep_move hx
    cases hmove with
    | early hpc => exact absurd hpc hcheck
    | add hpc => exact absurd hpc hcheck
    | next hpc =>
      rw [hpc]
      unfold LdSt.next
      dsimp only
      split <;> rfl
    | again hpc => rw [hpc]; rfl
    | call hpc => rw [hpc]; rfl
    | finish hpc => rw [hpc]; rfl
    | detach hpc => rw [hpc]; rfl

/-! ## The steps -/

theorem TimerCase.tied {b : Option TimerAct} (htimer : TimerCase C t b t') (hdev : ∀ a ∈ b, actDev a ≠ some j)
    (hd : Tied (t.dev j) place calls) : Tied (t'.dev j) place calls := by
  cases b with
  | none =>
    cases htimer
    exact hd
  | some a => exact timer_tied htimer (hdev a rfl) hd

theorem TimerCase.inv {b : Option TimerAct} (htimer : TimerCase C t b t') (ht : TimerInv C.devices t) :
    TimerInv C.devices t' := by
  cases b with
  | none =>
    cases htimer
    exact ht
  | some a => exact timerInv_step ht htimer

theorem cpuTimer_dev {b : TimerAct} (hb : b ∈ s.cpuTimer C i) : actDev b = some (C.cpuDev i) := by
  unfold SimSys.cpuTimer at hb
  split at hb <;> cases hb <;> rfl

theorem ldTimer_dev {b : TimerAct} (hb : b ∈ s.ldTimer C) : actDev b = some LD_DEV := by
  unfold SimSys.ldTimer at hb
  split at hb
  · split at hb <;> cases hb
    rfl
  all_goals cases hb <;> rfl

theorem TimerCase.time {b : Option TimerAct} (htimer : TimerCase C t b t') (hb : b ≠ some .timer) :
    t'.time = t.time := by
  cases b with
  | none =>
    cases htimer
    rfl
  | some a =>
    cases timerStep_move htimer with
    | enter => rfl
    | wait => rfl
    | detach => rfl
    | stop => rfl
    | _ => exact absurd rfl hb

theorem ldTimer_time (htimer : TimerCase C s.timer (s.ldTimer C) t) : t.time = s.timer.time :=
  htimer.time fun hb => by cases ldTimer_dev hb

theorem cpuTimer_time (htimer : TimerCase C s.timer (s.cpuTimer C i) t) : t.time = s.timer.time :=
  htimer.time fun hb => by cases cpuTimer_dev hb

/-- The test of the start time has the same outcome after the operation in `timer.c`. -/
theorem early_timed (htimer : TimerCase C s.timer (s.ldTimer C) t) :
    SimSys.early C { s with timer := t } = s.early C := by
  unfold SimSys.early
  dsimp only
  rw [ldTimer_time htimer]

/-- After the operation of a CPU in `timer.c` its device sleeps, and the CPU with it, or is where the CPU goes. -/
theorem cpu_timed (hd : Tied (s.timer.dev (C.cpuDev i)) (cpuPlace (s.os.cpu i).pc) (s.os.cpu i).calls)
    (htimer : TimerCase C s.timer (s.cpuTimer C i) t) :
    ((t.dev (C.cpuDev i)).pc = .asleep ∧ (s.os.cpu i).pc = .inSlot ∧
      Tied (t.dev (C.cpuDev i)) .inSlot (s.os.cpu i).calls) ∨
    ((t.dev (C.cpuDev i)).pc ≠ .asleep ∧
      Tied (t.dev (C.cpuDev i)) (cpuAfter (s.os.cpu i)).1 (cpuAfter (s.os.cpu i)).2) := by
  unfold SimSys.cpuTimer at htimer
  unfold cpuAfter
  cases hpc : (s.os.cpu i).pc with
  | toCall =>
    rw [hpc] at htimer hd
    obtain ⟨hwaiting, hd'⟩ := hd.enter htimer
    exact .inr ⟨by rw [hwaiting]; decide, hd'⟩
  | inSlot =>
    rw [hpc] at htimer hd
    rcases hd.wait htimer with ⟨hasleep, hd'⟩ | ⟨hrunning, hd'⟩
    · exact .inl ⟨hasleep, rfl, hd'⟩
    · exact .inr ⟨by rw [hrunning]; decide, hd'⟩
  | leaving =>
    rw [hpc] at htimer hd
    have hd' := hd.detach htimer
    refine .inr ⟨fun hasleep => ?_, hd'⟩
    have hplace := hd'.place
    rw [hasleep] at hplace
    cases hplace
  | stopped =>
    rw [hpc] at htimer hd
    cases htimer
    refine .inr ⟨fun hasleep => ?_, hd⟩
    have hplace := hd.place
    rw [hasleep] at hplace
    cases hplace
  | _ =>
    rw [hpc] at htimer hd
    cases htimer
    exact .inr ⟨by rw [hd.running]; decide, hd⟩

theorem ld_timed (hd : Tied (s.timer.dev LD_DEV) (ldPlace s.os.ld.pc) s.os.ld.calls)
    (htimer : TimerCase C s.timer (s.ldTimer C) t) :
    ((t.dev LD_DEV).pc = .asleep ∧ ldPlace s.os.ld.pc = .inSlot ∧ Tied (t.dev LD_DEV) .inSlot s.os.ld.calls) ∨
    ((t.dev LD_DEV).pc ≠ .asleep ∧
      Tied (t.dev LD_DEV) (ldAfter s.os.ld (s.early C)).1 (ldAfter s.os.ld (s.early C)).2) := by
  unfold SimSys.ldTimer at htimer
  unfold ldAfter
  cases hpc : s.os.ld.pc with
  | check =>
    rw [hpc] at htimer hd
    dsimp only at htimer ⊢
    split at htimer
    · next hearly =>
      obtain ⟨hwaiting, hd'⟩ := hd.enter htimer
      rw [if_pos hearly]
      exact .inr ⟨by rw [hwaiting]; decide, hd'⟩
    · next hearly =>
      cases htimer
      rw [if_neg hearly]
      exact .inr ⟨by rw [hd.running]; decide, hd⟩
  | added =>
    rw [hpc] at htimer hd
    obtain ⟨hwaiting, hd'⟩ := hd.enter htimer
    exact .inr ⟨by rw [hwaiting]; decide, hd'⟩
  | leaving =>
    rw [hpc] at htimer hd
    have hd' := hd.detach htimer
    refine .inr ⟨fun hasleep => ?_, hd'⟩
    have hplace := hd'.place
    rw [hasleep] at hplace
    cases hplace
  | detached =>
    rw [hpc] at htimer hd
    cases htimer
    refine .inr ⟨fun hasleep => ?_, hd⟩
    have hplace := hd.place
    rw [hasleep] at hplace
    cases hplace
  | finish =>
    rw [hpc] at htimer hd
    cases htimer
    exact .inr ⟨by rw [hd.running]; decide, hd⟩
  | early =>
    rw [hpc] at htimer hd
    rcases hd.wait htimer with ⟨hasleep, hd'⟩ | ⟨hrunning, hd'⟩
    · exact .inl ⟨hasleep, rfl, hd'⟩
    · exact .inr ⟨by rw [hrunning]; decide, hd'⟩
  | inSlot =>
    rw [hpc] at htimer hd
    rcases hd.wait htimer with ⟨hasleep, hd'⟩ | ⟨hrunning, hd'⟩
    · exact .inl ⟨hasleep, rfl, hd'⟩
    · exact .inr ⟨by rw [hrunning]; decide, hd'⟩

/-- A step of a CPU leaves the timer as its operation did, and the other threads as they were. -/
theorem CpuCase.frame (hcase : CpuCase C s i s') :
    s'.timer = s.timer ∧ (∀ j, j ≠ i → s'.os.cpu j = s.os.cpu j) ∧ s'.os.ld = s.os.ld := by
  cases hcase with
  | sleep => exact ⟨rfl, fun _ _ => rfl, rfl⟩
  | run => exact ⟨rfl, fun j hj => OsSys.setCpu_of_ne _ hj _, rfl⟩
  | thread _ _ hx =>
    have hmove := (osStep_move hx).2
    exact ⟨rfl, fun j hj => hmove.other hj, hmove.ld⟩

theorem LdCase.frame (hcase : LdCase C s s') : s'.timer = s.timer ∧ s'.os.cpu = s.os.cpu := by
  cases hcase with
  | sleep => exact ⟨rfl, rfl⟩
  | thread _ hx =>
    have hmove : LdMove (C.os false) s.os _ := osStep_move hx
    exact ⟨rfl, hmove.cpu⟩

theorem CpuCase.after (hcase : CpuCase C s i s') (hdev : (s.timer.dev (C.cpuDev i)).pc ≠ .asleep) :
    (cpuPlace (s'.os.cpu i).pc, (s'.os.cpu i).calls) = cpuAfter (s.os.cpu i) := by
  cases hcase with
  | sleep hasleep => exact absurd hasleep hdev
  | @run proc stat r _ hpc =>
    rw [cpuAfter, hpc]
    show (cpuPlace ((s.os.setCpu i _).cpu i).pc, ((s.os.setCpu i _).cpu i).calls) = _
    rw [OsSys.setCpu_self]
    rfl
  | thread _ _ hx => exact cpuMove_place (osStep_move hx).2

theorem coupled_step (hc : Coupled C s) (hx : simStep C s act = .ok (r, s')) : Coupled C s' := by
  cases simStep_move hx with
  | @cpu i timer _ hi htimer hcase =>
    obtain ⟨hframe, hother, hld⟩ := hcase.frame
    refine ⟨fun j hj => ?_, ?_, ?_⟩
    · rw [hframe]
      by_cases hji : j = i
      · subst hji
        rcases cpu_timed (hc.cpu j hi) htimer with ⟨hasleep, hpc, hd⟩ | ⟨hawake, hd⟩
        · cases hcase with
          | sleep =>
            rw [hpc]
            exact hd
          | run hdev => exact absurd hasleep hdev
          | thread hdev => exact absurd hasleep hdev
        · have hafter := hcase.after hawake
          rw [Prod.ext_iff] at hafter
          exact ⟨hd.place.trans hafter.1.symm, hd.entered.trans hafter.2.symm⟩
      · rw [hother j hji]
        refine htimer.tied (fun b hb => ?_) (hc.cpu j hj)
        rw [cpuTimer_dev hb]
        exact fun he => hji (cpuDev_inj hj hi (Option.some_inj.mp he).symm)
    · rw [hframe, hld]
      refine htimer.tied (fun b hb => ?_) hc.ld
      rw [cpuTimer_dev hb]
      exact fun he => cpuDev_ne_ld hi (Option.some_inj.mp he)
    · rw [hframe]
      exact htimer.inv hc.timer
  | @ld timer _ htimer hcase =>
    obtain ⟨hframe, hcpu⟩ := hcase.frame
    refine ⟨fun j hj => ?_, ?_, ?_⟩
    · rw [hframe, hcpu]
      refine htimer.tied (fun b hb => ?_) (hc.cpu j hj)
      rw [ldTimer_dev hb]
      exact fun he => cpuDev_ne_ld hj (Option.some_inj.mp he).symm
    · rw [hframe]
      rcases ld_timed hc.ld htimer with ⟨hasleep, hpc, hd⟩ | ⟨hawake, hd⟩
      · cases hcase with
        | sleep =>
          dsimp only
          rw [hpc]
          exact hd
        | thread hdev => exact absurd hasleep hdev
      · cases hcase with
        | sleep hdev => exact absurd hdev hawake
        | thread _ hos =>
          have hafter := ldStep_place hos
          rw [early_timed htimer, Prod.ext_iff] at hafter
          exact ⟨hd.place.trans hafter.1.symm, hd.entered.trans hafter.2.symm⟩
    · rw [hframe]
      exact htimer.inv hc.timer
  | timer ht =>
    exact ⟨fun j hj => timer_tied ht (by simp [actDev]) (hc.cpu j hj), timer_tied ht (by simp [actDev]) hc.ld,
      timerInv_step hc.timer ht⟩
  | stop _ ht =>
    exact ⟨fun j hj => timer_tied ht (by simp [actDev]) (hc.cpu j hj), timer_tied ht (by simp [actDev]) hc.ld,
      timerInv_step hc.timer ht⟩

theorem coupled_run (hrun : Run (simStep C) (.boot C) h s) : Coupled C s :=
  hrun.invariant (I := fun _ s => Coupled C s) (coupled_boot C) fun _ _ _ _ _ _ hc hx => coupled_step hc hx

/-! ## The barrier -/

/-- A device that is not done and has not finished was entered `_time` times. -/
theorem entered_eq_time (ht : TimerInv n t) (hj : j < n) (hdone : (t.dev j).done = false)
    (hpc : (t.dev j).pc ≠ .finished) :
    (t.dev j).entered = t.time := by
  have hd := ht.device j hj
  have hent := hd.entered hpc
  rw [hdone] at hent
  have hcleared := hd.cleared
  simp only [Bool.false_eq_true, if_false, Nat.add_zero] at hent
  rcases ht.entered hj hpc with he | he
  · exact he
  · omega

/-- A thread outside `next_slot` has called it `_time` times. -/
theorem Coupled.time_of_cpu (hc : Coupled C s) (hi : i < C.numCpus) (hout : cpuPlace (s.os.cpu i).pc = .outside) :
    (s.os.cpu i).calls = s.timer.time := by
  have hd := hc.cpu i hi
  rw [hout] at hd
  rw [← hd.entered]
  exact entered_eq_time hc.timer (cpuDev_lt hi) ((hc.timer.device _ (cpuDev_lt hi)).running hd.running)
    (by rw [hd.running]; decide)

theorem ld_lt (C : SimConfig) : LD_DEV < C.devices := Nat.succ_pos _

theorem Coupled.time_of_ld (hc : Coupled C s) (hout : ldPlace s.os.ld.pc = .outside) :
    s.os.ld.calls = s.timer.time := by
  have hd := hc.ld
  rw [hout] at hd
  rw [← hd.entered]
  exact entered_eq_time hc.timer (ld_lt C) ((hc.timer.device _ (ld_lt C)).running hd.running)
    (by rw [hd.running]; decide)

theorem Tied.finished_iff {d : Device} (hd : Tied d place calls) : d.pc = .finished ↔ place = .ended := by
  rw [← hd.place]
  unfold devPlace
  cases d.pc <;> simp

theorem cpuPlace_ended {pc : CpuPc} : cpuPlace pc = .ended ↔ pc = .stopped := by
  cases pc <;> simp [cpuPlace]

theorem ldPlace_ended {pc : LdPc} : ldPlace pc = .ended ↔ pc = .detached := by
  cases pc <;> simp [ldPlace]

/-- A thread that has not ended has called `next_slot` `_time` times, or once more. -/
theorem Coupled.cpu_calls (hc : Coupled C s) (hi : i < C.numCpus) (hpc : (s.os.cpu i).pc ≠ .stopped) :
    (s.os.cpu i).calls = s.timer.time ∨ (s.os.cpu i).calls = s.timer.time + 1 := by
  have hd := hc.cpu i hi
  rw [← hd.entered]
  exact hc.timer.entered (cpuDev_lt hi) (fun hfin => hpc (cpuPlace_ended.mp (hd.finished_iff.mp hfin)))

theorem Coupled.ld_calls (hc : Coupled C s) (hpc : s.os.ld.pc ≠ .detached) :
    s.os.ld.calls = s.timer.time ∨ s.os.ld.calls = s.timer.time + 1 := by
  rw [← hc.ld.entered]
  exact hc.timer.entered (ld_lt C) (fun hfin => hpc (ldPlace_ended.mp (hc.ld.finished_iff.mp hfin)))

theorem Coupled.passes (hc : Coupled C s) : Passes (C.os true) s.os s.timer.time := by
  refine fun _ => ⟨fun i hi hpc => ?_, fun hpc => ?_⟩
  · rcases hc.cpu_calls hi hpc with he | he <;> omega
  · rcases hc.ld_calls hpc with he | he <;> omega

/-! ## The timer alone -/

def timerLabel (C : SimConfig) (s : SimSys) : SimAct → Option TimerAct
  | .cpu i => s.cpuTimer C i
  | .ld => s.ldTimer C
  | .timer => some .timer
  | .stop => some .stop

theorem timerLabel_case (hx : simStep C s act = .ok (r, s')) : TimerCase C s.timer (timerLabel C s act) s'.timer := by
  cases simStep_move hx with
  | cpu _ htimer hcase =>
    rw [hcase.frame.1]
    exact htimer
  | ld htimer hcase =>
    rw [hcase.frame.1]
    exact htimer
  | timer ht => exact ht
  | stop _ ht => exact ht

/-- The timer of the simulator takes the steps of a timer with its devices. -/
theorem timer_image (hrun : Run (simStep C) (.boot C) h s) : ∃ k, Run (timerStep C.devices) .start k s.timer ∧
    List.Forall₂ (Shows SimSys.timer (timerLabel C)) (visible (timerLabel C) h) k :=
  hrun.project SimSys.timer (timerLabel C)
    (fun _ _ _ _ _ _ hx hl => by
      have hcase := timerLabel_case hx
      rw [hl] at hcase
      exact hcase)
    fun _ _ _ _ _ _ _ hx hl => by
      have hcase := timerLabel_case hx
      rw [hl] at hcase
      exact ⟨(), hcase⟩

end SimpleOs.Sim
