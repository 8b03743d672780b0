import SimpleOs.Cpu.Run
import SimpleOs.Mm.System
import SimpleOs.Timer.LockStep

/-!
# The simulator (`main` of `os.c`)

The CPUs and the loader of `Os`, with the timer in which they wait and the memory their processes work on. A
step of a thread is a step of `Os`, and in it the operation of `timer.c` that it makes, or the instruction it
executes. Every `load` has succeeded.

An instruction is one step, with the library calls that it makes. In the source only `__alloc` takes a lock, so
instructions of two CPUs can overlap there: the runs here are those in which they do not. What `malloc` returns is
taken to hold zeros, and sums of `int`s to wrap.

* `SimConfig` : the configuration, the devices, and what `load` returned; `SimConfig.os`, `SimConfig.table` : to the
  threads, and to the instructions;
* `SimSys` : the threads, the timer and the memory; `SimSys.boot` : after `main` has started them;
* `cpuTimer`, `ldTimer` : what the next step of a thread does in `timer.c`;
* `cpuStep`, `ldStep`, `actStep`, `simStep` : the steps;
* `CpuCase`, `LdCase`, `SimMove`, `simStep_move` : what they do;
* `twoPrograms` : a configuration with a run to its end.
-/

namespace SimpleOs.Sim
open SimpleOs.Mm SimpleOs.Sched SimpleOs.Syscall SimpleOs.Timer SimpleOs.Os SimpleOs.Cpu

structure SimConfig where
  timeSlot : Int
  numCpus : Nat
  numProcesses : Nat
  startTime : Nat → Nat
  prio : Nat → Nat
  memramsz : Nat
  memswpsz : Nat
  /-- what `load` returns for `path[i]` -/
  proc : Nat → Pcb
  /-- the registers of a new process -/
  regs : Nat → Fin 10 → Word
  size_eq : ∀ i, (proc i).code.text.length = (proc i).code.size.toNat

def SimConfig.text (C : SimConfig) (i : Nat) : List Inst := (C.proc i).code.text

def SimConfig.table (C : SimConfig) : PcbTable Nat where
  priority := fun i => (C.proc i).priority.toNat
  prio := C.prio
  pid := fun i => (C.proc i).pid.toNat
  path := fun i => (C.proc i).path
  codeSize := fun i => (C.proc i).code.size.toNat

def SimConfig.os (C : SimConfig) (barrier : Bool) : OsConfig Nat Inst where
  fields := C.table.toPcbFields
  text := C.text
  numCpus := C.numCpus
  timeSlot := C.timeSlot
  load := List.range C.numProcesses
  load_nodup := List.nodup_range
  barrier := barrier

def SimConfig.devices (C : SimConfig) : Nat := C.numCpus + 1

/-- `attach_event` puts a device before those in `dev_list`, and the loader's is the last that is attached. -/
def LD_DEV : Nat := 0

def SimConfig.cpuDev (C : SimConfig) (i : Nat) : Nat := C.numCpus - i

structure SimSys where
  os : OsSys Nat Inst
  timer : TimerSys
  mem : MemSys

/-- All threads have been started. `init_mm` of a process has been called before anybody looks at its `mm`. -/
def SimSys.boot (C : SimConfig) : SimSys where
  os := .boot (C.os false)
  timer := .start
  mem := .boot C.memramsz C.memswpsz

section Steps
variable (C : SimConfig)

def SimSys.runSys (s : SimSys) : RunSys Nat where
  sched := s.os.sched
  pc := s.os.procPc
  mm := s.mem.mm
  dev := s.mem.dev
  freed := s.os.freed
  regs := C.regs
  text := C.text

/-- CPU `i` has executed the next instruction of `proc`, which left `r`. -/
def SimSys.ran (s : SimSys) (i proc : Nat) (r : RunSys Nat) : SimSys where
  os := { s.os.setCpu i { s.os.cpu i with pc := .toCall, timeLeft := (s.os.cpu i).timeLeft - 1 } with
    sched := r.sched
    procPc := r.pc
    freed := r.freed
    executed := Function.update s.os.executed proc
      (s.os.executed proc ++ ((C.text proc)[s.os.procPc proc]?).toList) }
  timer := s.timer
  mem := ⟨r.mm, r.dev⟩

/-- `current_time() < start_time[i]` for the next process. -/
def SimSys.early (s : SimSys) : Bool :=
  match s.os.ld.rest with
  | [] => false
  | i :: _ => s.timer.time < C.startTime i

/-- The operation of `timer.c` in the next step of CPU `i`. -/
def SimSys.cpuTimer (s : SimSys) (i : Nat) : Option TimerAct :=
  match (s.os.cpu i).pc with
  | .toCall => some (.enter (C.cpuDev i))
  | .inSlot => some (.wait (C.cpuDev i))
  | .leaving => some (.detach (C.cpuDev i))
  | _ => none

/-- The operation of `timer.c` in the next step of the loader. -/
def SimSys.ldTimer (s : SimSys) : Option TimerAct :=
  match s.os.ld.pc with
  | .check => if s.early C then some (.enter LD_DEV) else none
  | .added => some (.enter LD_DEV)
  | .early | .inSlot => some (.wait LD_DEV)
  | .leaving => some (.detach LD_DEV)
  | .finish | .detached => none

/-- An operation of `timer.c`, if there is one. The error `none` says that it is not possible. -/
def SimSys.timed (s : SimSys) : Option TimerAct → Except (Option Ub) SimSys
  | none => .ok s
  | some act =>
    match timerStep C.devices s.timer act with
    | .ok (_, timer) => .ok { s with timer := timer }
    | .error _ => .error none

def SimSys.thread (s : SimSys) (act : OsAct) : Except (Option Ub) SimSys :=
  match osStep (C.os false) s.os act with
  | .ok (_, os) => .ok { s with os := os }
  | .error e => .error e

def SimSys.cpuRest (s : SimSys) (i : Nat) : Except (Option Ub) SimSys :=
  if (s.timer.dev (C.cpuDev i)).pc = .asleep then .ok s
  else if (s.os.cpu i).pc = .run then
    match (s.os.cpu i).proc with
    | none => .error (some .null)
    | some proc =>
      match Cpu.run C.table (s.runSys C) proc with
      | .ok (_, r) => .ok (s.ran C i proc r)
      | .error e => .error (some e)
  else s.thread C (.cpu i)

def SimSys.ldRest (s : SimSys) : Except (Option Ub) SimSys :=
  if (s.timer.dev LD_DEV).pc = .asleep then .ok s else s.thread C (.ld (s.early C))

def cpuStep (s : SimSys) (i : Nat) : Except (Option Ub) SimSys := do
  let s ← s.timed C (s.cpuTimer C i)
  s.cpuRest C i

def ldStep (s : SimSys) : Except (Option Ub) SimSys := do
  let s ← s.timed C (s.ldTimer C)
  s.ldRest C

/-- A step of a CPU, of the loader or of the timer, or `stop_timer` in `main`. -/
inductive SimAct
  | cpu (i : Nat)
  | ld
  | timer
  | stop
  deriving DecidableEq

def actStep (s : SimSys) : SimAct → Except (Option Ub) SimSys
  | .cpu i => if i < C.numCpus then cpuStep C s i else .error none
  | .ld => ldStep C s
  | .timer => s.timed C (some .timer)
  | .stop => if s.timer.stop then .error none else s.timed C (some .stop)

def simStep (s : SimSys) (act : SimAct) : Except (Option Ub) (Unit × SimSys) := do
  let s ← actStep C s act
  return ((), s)

end Steps

abbrev SimHistory := List (Entry SimSys SimAct Unit)

/-! ## What the steps do -/

variable {C : SimConfig} {s s' : SimSys} {i : Nat} {act : SimAct} {r : Unit}

def TimerCase (C : SimConfig) (t : TimerSys) (act : Option TimerAct) (t' : TimerSys) : Prop :=
  match act with
  | none => t' = t
  | some act => timerStep C.devices t act = .ok ((), t')

/-- A step of CPU `i` after its operation of `timer.c`: it sleeps, executes an instruction, or goes on. -/
inductive CpuCase (C : SimConfig) (s : SimSys) (i : Nat) : SimSys → Prop
  | sleep (hdev : (s.timer.dev (C.cpuDev i)).pc = .asleep) : CpuCase C s i s
  | run {proc : Nat} {stat : Int} {r : RunSys Nat} (hdev : (s.timer.dev (C.cpuDev i)).pc ≠ .asleep)
      (hpc : (s.os.cpu i).pc = .run) (hproc : (s.os.cpu i).proc = some proc)
      (hx : Cpu.run C.table (s.runSys C) proc = .ok (stat, r)) : CpuCase C s i (s.ran C i proc r)
  | thread {os : OsSys Nat Inst} (hdev : (s.timer.dev (C.cpuDev i)).pc ≠ .asleep) (hpc : (s.os.cpu i).pc ≠ .run)
      (hx : osStep (C.os false) s.os (.cpu i) = .ok ((), os)) : CpuCase C s i { s with os := os }

inductive LdCase (C : SimConfig) (s : SimSys) : SimSys → Prop
  | sleep (hdev : (s.timer.dev LD_DEV).pc = .asleep) : LdCase C s s
  | thread {os : OsSys Nat Inst} (hdev : (s.timer.dev LD_DEV).pc ≠ .asleep)
      (hx : osStep (C.os false) s.os (.ld (s.early C)) = .ok ((), os)) : LdCase C s { s with os := os }

inductive SimMove (C : SimConfig) (s : SimSys) : SimAct → SimSys → Prop
  | cpu {i : Nat} {timer : TimerSys} {s' : SimSys} (hi : i < C.numCpus)
      (htimer : TimerCase C s.timer (s.cpuTimer C i) timer) (hcase : CpuCase C { s with timer := timer } i s') :
      SimMove C s (.cpu i) s'
  | ld {timer : TimerSys} {s' : SimSys} (htimer : TimerCase C s.timer (s.ldTimer C) timer)
      (hcase : LdCase C { s with timer := timer } s') : SimMove C s .ld s'
  | timer {timer : TimerSys} (hx : timerStep C.devices s.timer .timer = .ok ((), timer)) :
      SimMove C s .timer { s with timer := timer }
  | stop {timer : TimerSys} (hstop : s.timer.stop = false) (hx : timerStep C.devices s.timer .stop = .ok ((), timer)) :
      SimMove C s .stop { s with timer := timer }

theorem timed_case {act : Option TimerAct} (h : s.timed C act = .ok s') :
    ∃ timer, s' = { s with timer := timer } ∧ TimerCase C s.timer act timer := by
  unfold SimSys.timed at h
  split at h
  · cases h
    exact ⟨s.timer, rfl, rfl⟩
  · split at h
    · next hx =>
      cases h
      exact ⟨_, rfl, hx⟩
    · cases h

theorem cpuRest_case (h : s.cpuRest C i = .ok s') : CpuCase C s i s' := by
  unfold SimSys.cpuRest at h
  split at h
  · next hdev =>
    cases h
    exact .sleep hdev
  · next hdev =>
    split at h
    · next hpc =>
      split at h
      · cases h
      · next hproc =>
        split at h
        · next hx =>
          cases h
          exact .run hdev hpc hproc hx
        · cases h
    · next hpc =>
      unfold SimSys.thread at h
      split at h
      · next hx =>
        cases h
        exact .thread hdev hpc hx
      · cases h

theorem ldRest_case (h : s.ldRest C = .ok s') : LdCase C s s' := by
  unfold SimSys.ldRest at h
  split at h
  · next hdev =>
    cases h
    exact .sleep hdev
  · next hdev =>
    unfold SimSys.thread at h
    split at h
    · next hx =>
      cases h
      exact .thread hdev hx
    · cases h

/-- A step makes one of its moves. -/
theorem simStep_move (h : simStep C s act = .ok (r, s')) : SimMove C s act s' := by
  unfold simStep at h
  obtain ⟨s₁, hx, h⟩ := Exec.bind_ok.mp h
  cases h
  cases act with
  | cpu i =>
    rw [actStep] at hx
    split at hx
    · next hi =>
      obtain ⟨s₂, htimed, hx⟩ := Exec.bind_ok.mp hx
      obtain ⟨timer, rfl, htimer⟩ := timed_case htimed
      exact .cpu hi htimer (cpuRest_case hx)
    · cases hx
  | ld =>
    obtain ⟨s₂, htimed, hx⟩ := Exec.bind_ok.mp hx
    obtain ⟨timer, rfl, htimer⟩ := timed_case htimed
    exact .ld htimer (ldRest_case hx)
  | timer =>
    rw [actStep] at hx
    obtain ⟨timer, rfl, htimer⟩ := timed_case hx
    exact .timer htimer
  | stop =>
    rw [actStep] at hx
    split at hx
    · cases hx
    · next hstop =>
      obtain ⟨timer, rfl, htimer⟩ := timed_case hx
      exact .stop (by simpa using hstop) htimer

/-! ## Two programs -/

/-- The code of the first program, which writes a byte and reads it, and of the second. -/
def twoProgramsCode (i : Nat) : CodeSeg :=
  if i = 0 then ⟨[⟨.alloc, 100, 0, 0, 0⟩, ⟨.write, 7, 0, 5, 0⟩, ⟨.read, 0, 5, 0, 0⟩], 3⟩ else ⟨[⟨.calc, 0, 0, 0, 0⟩], 1⟩

theorem twoProgramsCode_size (i : Nat) : (twoProgramsCode i).text.length = (twoProgramsCode i).size.toNat := by
  unfold twoProgramsCode
  split <;> rfl

/-- The second program starts in slot 2, on the same CPU. -/
def twoPrograms : SimConfig where
  timeSlot := 2
  numCpus := 1
  numProcesses := 2
  startTime := fun i => 2 * i
  prio := fun _ => 0
  memramsz := 512
  memswpsz := 512
  proc := fun i => ⟨BitVec.ofNat 32 (i + 1), 0, [], twoProgramsCode i, 0⟩
  regs := fun _ _ => 0
  size_eq := twoProgramsCode_size

def twoProgramsRun : List SimAct :=
  ([(3, .ld), (5, .cpu 0), (5, .timer), (3, .ld), (1, .timer), (6, .cpu 0), (6, .timer), (4, .ld), (1, .timer),
    (7, .cpu 0), (6, .timer), (3, .ld), (1, .timer), (7, .cpu 0), (7, .timer), (5, .cpu 0), (8, .timer)].flatMap
    fun x : Nat × SimAct => List.replicate x.1 x.2).reverse

theorem twoPrograms_killsNone : KillsNone twoPrograms.text := by
  intro i ins hins call hcall
  have hins : ins ∈ (twoProgramsCode i).text := hins
  unfold twoProgramsCode at hins
  split at hins
  · simp only [List.mem_cons, List.not_mem_nil, or_false] at hins
    rcases hins with rfl | rfl | rfl <;> cases hcall <;> rfl
  · obtain rfl := List.mem_singleton.mp hins
    cases hcall

end SimpleOs.Sim
