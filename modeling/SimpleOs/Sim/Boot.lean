import SimpleOs.Cpu.Program
import SimpleOs.Os.Config
import SimpleOs.Sim.Completion

/-!
# From the files to the run

`main` reads the configuration, and the loader thread the programs it names.

* `Loaded`, `loadProcess`, `loadAll` : the calls of `load` in `ld_routine`, in the order of the file;
* `initDevices`, `simConfig`, `boot` : the simulator that `main` starts; `boot_negative` : when it starts none;
* `Program`, `Program.meaning`, `decode` : the file of a program, and what is to be executed;
* `loadAll_programs` : the processes loaded from files with programs hold these programs;
* `programs_executed` : what the simulator has executed in the end is what stands in the files.
-/

namespace SimpleOs.Sim
open SimpleOs.Mm SimpleOs.Sched SimpleOs.Os SimpleOs.Cpu SimpleOs.Scanf

/-- The contents of the files that `fopen` finds. -/
abbrev Files := List Char → Option (List Char)

structure Loaded where
  proc : Pcb
  size_eq : proc.code.text.length = proc.code.size.toNat

def Loaded.empty : Loaded := ⟨⟨0, 0, [], ⟨[], 0⟩, 0⟩, rfl⟩

inductive BootStop
  | config (e : ConfigStop)
  /-- `malloc` has no storage of this size, and `memset` writes through the null pointer -/
  | device (maxSize : BitVec 32)
  | load (e : LoadStop)

def bytes (path : List Char) : List BYTE := path.map fun c => BitVec.ofNat 8 c.toNat

section Boot
variable (files : Files)

theorem loaded_size {availPid availPid' : Word} {path : List BYTE} {file : Option (List Char)} {old : OldMem}
    {proc : Pcb}
    (h : load availPid path file old = .ok (proc, availPid')) : proc.code.text.length = proc.code.size.toNat := by
  cases file with
  | none => cases h
  | some s => exact load_length h

def loadProcess (old : OldMem) (availPid : Word) (p : LdProcess) : Except LoadStop (Loaded × Word) :=
  match h : load availPid (bytes p.path) (files p.path) old with
  | .ok (proc, availPid) => .ok (⟨proc, loaded_size h⟩, availPid)
  | .error e => .error e

def loadAll (old : Nat → OldMem) : Nat → Word → List LdProcess → Except LoadStop (List Loaded)
  | _, _, [] => .ok []
  | i, availPid, p :: l => do
    let (proc, availPid) ← loadProcess files (old i) availPid p
    let procs ← loadAll old (i + 1) availPid l
    return proc :: procs

/-- The calls of `init_memphy`, for RAM and all of `mswp`: the sizes of the devices. -/
def initDevices : List (BitVec 32) → Except BootStop (List Nat)
  | [] => .ok []
  | maxSize :: l => do
    if maxSize.toInt < 0 then throw (.device maxSize)
    let sizes ← initDevices l
    return maxSize.toNat :: sizes

/-- What `main` starts on devices of the sizes `sizes`. `prio` goes to a field of 32 bits, and `mswp[0]` is the active
swap device. -/
def simConfig (c : Config) (sizes : List Nat) (procs : List Loaded) (regs : Nat → Fin 10 → Word) : SimConfig where
  timeSlot := c.timeSlot.toInt
  numCpus := c.numCpus.toInt.toNat
  numProcesses := c.numProcesses.toInt.toNat
  startTime i := (c.processes[i]?.map fun p => p.startTime.toNat).getD 0
  prio i := (c.processes[i]?.map fun p => (p.prio.setWidth 32).toNat).getD 0
  memramsz := sizes[0]?.getD 0
  memswpsz := sizes[1]?.getD 0
  proc i := (procs[i]?.getD .empty).proc
  regs := regs
  size_eq i := (procs[i]?.getD .empty).size_eq

/-- The simulator on a configuration file, with the old contents of the memory allocated. -/
def boot (config : List Char) (oldArgs : OldArgs) (old : Nat → OldMem) (regs : Nat → Fin 10 → Word) :
    Except BootStop SimConfig :=
  match readConfig (some config) oldArgs with
  | .error e => .error (.config e)
  | .ok c => do
    let sizes ← initDevices (c.memramsz :: c.memswpsz)
    match loadAll files old 0 1 c.processes with
    | .error e => .error (.load e)
    | .ok procs => .ok (simConfig c sizes procs regs)

end Boot

/-! ## Programs -/

/-- A program that the header of its file can count. -/
structure Program where
  priority : Word
  code : List Instr
  newline : Bool
  size : code.length < 4294967296

def Program.file (p : Program) : List Char := programText p.priority p.code p.newline

def Program.meaning (p : Program) : List (InsOpcode × List Nat) := p.code.map fun i => (i.opcode, i.args)

/-- What instructions in memory stand for. -/
def decode (l : List Inst) : List (InsOpcode × List Nat) := l.map fun ins => (ins.opcode, ins.used.map BitVec.toNat)

/-- No system call of the program is `killall`. -/
def Program.KillsNone (p : Program) : Prop := ∀ i ∈ p.code, i.opcode = .syscall → i.args.head? ≠ some 101

variable {files : Files} {p : LdProcess} {prog : Program} {old : Nat → OldMem}

/-- A process is loaded with the program in its file. -/
theorem loadProcess_program (m : OldMem) (availPid : Word) (hfile : files p.path = some prog.file) :
    ∃ proc, loadProcess files m availPid p = .ok (proc, availPid + 1) ∧ decode proc.proc.code.text = prog.meaning := by
  have hcode := scanCode_programText prog.priority m prog.newline prog.size
  obtain ⟨proc, hload, hdecode⟩ : ∃ proc, load availPid (bytes p.path) (some prog.file) m = .ok (proc, availPid + 1) ∧
      decode proc.code.text = prog.meaning := ⟨_, load_ok_iff.mpr ⟨_, hcode, rfl, rfl⟩, fillCode_scanned _ _ _⟩
  rw [← hfile] at hload
  refine ⟨⟨proc, loaded_size hload⟩, ?_, hdecode⟩
  unfold loadProcess
  split
  · next heq =>
    cases hload.symm.trans heq
    rfl
  · next heq => cases hload.symm.trans heq

/-- All processes are loaded, in order. -/
theorem loadAll_programs (old : Nat → OldMem) (i : Nat) (availPid : Word) {l : List LdProcess} {progs : List Program}
    (hfiles : List.Forall₂ (fun p prog => files p.path = some (Program.file prog)) l progs) :
    ∃ procs, loadAll files old i availPid l = .ok procs ∧
      List.Forall₂ (fun proc prog => decode proc.proc.code.text = Program.meaning prog) procs progs := by
  induction hfiles generalizing i availPid with
  | nil => exact ⟨[], rfl, .nil⟩
  | cons hfile _ ih =>
    obtain ⟨proc, hproc, hdecode⟩ := loadProcess_program (old i) availPid hfile
    obtain ⟨procs, hprocs, hall⟩ := ih (i + 1) (availPid + 1)
    exact ⟨proc :: procs, Exec.bind_ok.mpr ⟨_, hproc, Exec.bind_ok.mpr ⟨_, hprocs, rfl⟩⟩, .cons hdecode hall⟩

theorem decode_loaded {procs : List Loaded} {progs : List Program}
    (hprocs : List.Forall₂ (fun proc prog => decode proc.proc.code.text = Program.meaning prog) procs progs) (i : Nat) :
    decode (procs[i]?.getD .empty).proc.code.text = (progs[i]?.map Program.meaning).getD [] := by
  induction hprocs generalizing i with
  | nil => rfl
  | cons hproc _ ih =>
    cases i with
    | zero => exact hproc
    | succ i => exact ih i

/-! ## The devices -/

theorem initDevices_ok {l : List (BitVec 32)} (h : ∀ maxSize ∈ l, 0 ≤ maxSize.toInt) :
    initDevices l = .ok (l.map BitVec.toNat) := by
  induction l with
  | nil => rfl
  | cons maxSize l ih =>
    rw [List.forall_mem_cons] at h
    rw [initDevices, if_neg (Int.not_lt.mpr h.1), ih h.2]
    rfl

theorem initDevices_negative {l : List (BitVec 32)} (h : ∃ maxSize ∈ l, maxSize.toInt < 0) :
    ∃ maxSize, initDevices l = .error (.device maxSize) := by
  induction l with
  | nil =>
    obtain ⟨_, hmem, -⟩ := h
    cases hmem
  | cons maxSize l ih =>
    by_cases hneg : maxSize.toInt < 0
    · refine ⟨maxSize, ?_⟩
      rw [initDevices, if_pos hneg]
      rfl
    · obtain ⟨size, hmem, hlt⟩ := h
      have hl : size ∈ l := (List.mem_cons.mp hmem).resolve_left fun he => hneg (he ▸ hlt)
      obtain ⟨size, hsize⟩ := ih ⟨size, hl, hlt⟩
      refine ⟨size, ?_⟩
      rw [initDevices, if_neg hneg, hsize]
      rfl

/-! ## The simulator of the files -/

def ProgramFiles (files : Files) (t : ConfigText) (progs : List Program) : Prop :=
  List.Forall₂ (fun line prog => files (procDir ++ ProcLine.name line) = some (Program.file prog)) t.lines progs

structure Starts (t : ConfigText) (progs : List Program) (C : SimConfig) : Prop where
  timeSlot : C.timeSlot = t.timeSlot.toInt
  numCpus : C.numCpus = t.numCpus.toInt.toNat
  numProcesses : C.numProcesses = t.lines.length
  startTime : ∀ i line, t.lines[i]? = some line → C.startTime i = line.startTime.toNat
  prio : ∀ i line, t.lines[i]? = some line → C.prio i = (line.prio.setWidth 32).toNat
  memramsz : C.memramsz = t.memramsz.toNat
  memswpsz : C.memswpsz = (t.memswpsz[0]?.getD 0).toNat
  text : ∀ i, decode (C.text i) = (progs[i]?.map Program.meaning).getD []

variable {t : ConfigText} {progs : List Program} {s : List Char} {l : List (List Char)} {oldArgs : OldArgs}
  {regs : Nat → Fin 10 → Word} {C : SimConfig}

theorem readConfig_config (oldArgs : OldArgs) (h : words s = t.words ++ l)
    (hfits : ∀ line ∈ t.lines, line.overflow = none) : readConfig (some s) oldArgs = .ok t.config := by
  obtain ⟨rest, hrest, hconfig⟩ := readConfig_lines oldArgs h
  rwa [readProcesses_words oldArgs 0 t.lines hrest, List.findSome?_eq_none_iff.mpr hfits] at hconfig

theorem boot_starts (old : Nat → OldMem) (oldArgs : OldArgs) (regs : Nat → Fin 10 → Word) (h : words s = t.words ++ l)
    (hfits : ∀ line ∈ t.lines, line.overflow = none) (hsizes : ∀ size ∈ t.memramsz :: t.memswpsz, 0 ≤ size.toInt)
    (hfiles : ProgramFiles files t progs) : ∃ C, boot files s oldArgs old regs = .ok C ∧ Starts t progs C := by
  have hdev : initDevices (t.config.memramsz :: t.config.memswpsz) =
      .ok ((t.memramsz :: t.memswpsz).map BitVec.toNat) :=
    initDevices_ok hsizes
  have hpaths : List.Forall₂ (fun p prog => files p.path = some (Program.file prog)) t.config.processes progs :=
    List.forall₂_map_left_iff.mpr hfiles
  obtain ⟨procs, hload, hprocs⟩ := loadAll_programs old 0 1 hpaths
  refine ⟨simConfig t.config ((t.memramsz :: t.memswpsz).map BitVec.toNat) procs regs, ?_, rfl, rfl, t.rounds, ?_,
    ?_, rfl, ?_, decode_loaded hprocs⟩
  · unfold boot
    rw [readConfig_config oldArgs h hfits]
    dsimp only
    rw [hdev]
    dsimp only [bind, Except.bind]
    rw [hload]
  · intro i line hline
    simp [simConfig, ConfigText.config, hline, ProcLine.process]
  · intro i line hline
    simp [simConfig, ConfigText.config, hline, ProcLine.process]
  · show ((t.memramsz :: t.memswpsz).map BitVec.toNat)[1]?.getD 0 = _
    rw [List.map_cons, List.getElem?_cons_succ, List.getElem?_map]
    cases t.memswpsz[0]? <;> rfl

/-- No simulator is started with a negative size of a device, whatever the files of the programs hold. -/
theorem boot_negative (old : Nat → OldMem) (oldArgs : OldArgs) (regs : Nat → Fin 10 → Word) (h : words s = t.words ++ l)
    (hfits : ∀ line ∈ t.lines, line.overflow = none) (hneg : ∃ size ∈ t.memramsz :: t.memswpsz, size.toInt < 0) :
    ∃ size, boot files s oldArgs old regs = .error (.device size) := by
  obtain ⟨size, hdev⟩ : ∃ size, initDevices (t.config.memramsz :: t.config.memswpsz) = .error (.device size) :=
    initDevices_negative hneg
  refine ⟨size, ?_⟩
  unfold boot
  rw [readConfig_config oldArgs h hfits]
  dsimp only
  rw [hdev]
  rfl

theorem call_kills {ins : Inst} {call : LibCall} (hcall : ins.call = some call) (hkills : call.kills = true) :
    ins.opcode = .syscall ∧ (ins.used.map BitVec.toNat).head? = some 101 := by
  unfold Inst.call at hcall
  split at hcall
  case h_6 hsys =>
    cases hcall
    have harg : ins.arg0 = 101 := beq_iff_eq.mp hkills
    refine ⟨hsys, ?_⟩
    unfold Inst.used
    rw [hsys, harg]
    rfl
  all_goals
    cases hcall
    try cases hkills

theorem Starts.killsNone (hC : Starts t progs C) (hkill : ∀ prog ∈ progs, prog.KillsNone) : KillsNone C.text := by
  intro i ins hins call hcall
  have hmem : (ins.opcode, ins.used.map BitVec.toNat) ∈ decode (C.text i) := List.mem_map_of_mem hins
  rw [hC.text i] at hmem
  rw [← Bool.not_eq_true]
  intro hkills
  obtain ⟨hsys, hhead⟩ := call_kills hcall hkills
  cases hprog : progs[i]? with
  | none =>
    rw [hprog] at hmem
    cases hmem
  | some prog =>
    rw [hprog] at hmem
    obtain ⟨instr, hinstr, heq⟩ := List.mem_map.mp hmem
    obtain ⟨hopcode, hargs⟩ := Prod.mk.inj heq
    have hne := hkill prog (List.mem_of_getElem? hprog) instr hinstr (hopcode.trans hsys)
    rw [hargs] at hne
    exact hne hhead

theorem Starts.fits (hC : Starts t progs C)
    (hlevel : ∀ n : Nat, t.lines.countP (fun line => (line.prio.setWidth 32).toNat = n) ≤ MAX_QUEUE_SIZE) :
    Fits (C.os true) := by
  intro n
  have hprio : (List.range C.numProcesses).map C.prio = t.lines.map fun line => (line.prio.setWidth 32).toNat := by
    apply List.ext_getElem?
    intro i
    rw [List.getElem?_map, List.getElem?_map, hC.numProcesses]
    by_cases hi : i < t.lines.length
    · rw [List.getElem?_range hi, List.getElem?_eq_getElem hi]
      exact congrArg some (hC.prio i _ (List.getElem?_eq_getElem hi))
    · rw [List.getElem?_eq_none (by rwa [List.length_range, ← Nat.not_lt]), List.getElem?_eq_none (Nat.le_of_not_lt hi)]
      rfl
  calc ((List.range C.numProcesses).filter (C.prio · = n)).length
      = ((List.range C.numProcesses).map C.prio).countP (· = n) := by
        rw [List.countP_map, List.countP_eq_length_filter]
        rfl
    _ = t.lines.countP (fun line => (line.prio.setWidth 32).toNat = n) := by
        rw [hprio, List.countP_map]
        rfl
    _ ≤ MAX_QUEUE_SIZE := hlevel n

/-- The programs in the files are executed. The simulator starts on the files of a configuration and its programs,
and by slot `doneBy` it has executed for each process exactly the instructions of its file, in order, in every run. -/
theorem programs_executed (h : words s = t.words ++ l) (hfits : ∀ line ∈ t.lines, line.overflow = none)
    (hsizes : ∀ size ∈ t.memramsz :: t.memswpsz, 0 ≤ size.toInt) (hfiles : ProgramFiles files t progs)
    (hn : 0 < t.numCpus.toInt) (hkill : ∀ prog ∈ progs, prog.KillsNone)
    (hlevel : ∀ n : Nat, t.lines.countP (fun line => (line.prio.setWidth 32).toNat = n) ≤ MAX_QUEUE_SIZE) :
    ∃ C, boot files s oldArgs old regs = .ok C ∧ Starts t progs C ∧
      ∀ k st, Run (simStep C) (.boot C) k st →
        (doneBy C < st.timer.time ∨ stepBound C (doneBy C) < k.length ∨ AllEnded C st) →
        ∀ i prog, progs[i]? = some prog → st.os.freed i = true ∧ decode (st.os.executed i) = prog.meaning := by
  obtain ⟨C, hboot, hC⟩ := boot_starts old oldArgs regs h hfits hsizes hfiles
  refine ⟨C, hboot, hC, fun k st hrun hend i prog hprog => ?_⟩
  have hcpus : 0 < C.numCpus := by
    rw [hC.numCpus]
    omega
  have hi : i < C.numProcesses := by
    rw [hC.numProcesses, hfiles.length_eq]
    exact (List.getElem?_eq_some_iff.mp hprog).1
  have hdone : st.os.freed i = true ∧ st.os.executed i = C.text i := by
    rcases hend with hlate | hlong | hend
    · exact completed_at (hC.killsNone hkill) hcpus (hC.fits hlevel) hrun hlate i hi
    · exact completed_at (hC.killsNone hkill) hcpus (hC.fits hlevel) hrun (late_of_long hrun hlong) i hi
    · exact completed_of_ended (hC.killsNone hkill) hcpus (hC.fits hlevel) hrun hend i hi
  refine ⟨hdone.1, ?_⟩
  rw [hdone.2, hC.text i, hprog]
  rfl

/-! ## A program in a file -/

def allocProgram : Program := ⟨20, [calcInstr, ⟨.alloc, [200, 0], rfl, by simp [InsOpcode.bound]⟩], true, by decide⟩

def oneFile : Files := fun path => if path = "input/proc/p1s".toList then some allocProgram.file else none

theorem programs_executed_oneFile :
    ∃ C, boot oneFile "2 1  1\n2048 16777216 0 0 0\n5 p1s 10  \n".toList anyArgs (fun _ => anyMem) (fun _ _ => 0) =
      .ok C ∧
      Starts oneProcess [allocProgram] C ∧ ∀ k st, Run (simStep C) (.boot C) k st →
        (doneBy C < st.timer.time ∨ stepBound C (doneBy C) < k.length ∨ AllEnded C st) →
        ∀ i prog, [allocProgram][i]? = some prog → st.os.freed i = true ∧ decode (st.os.executed i) = prog.meaning := by
  have hkill : ∀ prog ∈ [allocProgram], prog.KillsNone := by
    intro prog hprog i hi hsys
    rw [List.mem_singleton.mp hprog] at hi
    simp only [allocProgram, List.mem_cons, List.not_mem_nil, or_false] at hi
    rcases hi with rfl | rfl <;> cases hsys
  have hlevel (n : Nat) : oneProcess.lines.countP (fun line => (line.prio.setWidth 32).toNat = n) ≤ MAX_QUEUE_SIZE :=
    List.countP_le_length.trans (by decide)
  have hsizes : ∀ size ∈ oneProcess.memramsz :: oneProcess.memswpsz, 0 ≤ size.toInt := by
    simp [oneProcess, BitVec.toInt]
  exact programs_executed (t := oneProcess) (l := []) (by decide) (by decide) hsizes (.cons rfl .nil) (by decide) hkill
    hlevel

end SimpleOs.Sim
