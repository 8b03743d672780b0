import SimpleOs.Lib.Scanf
import SimpleOs.Mm.Memphy
import SimpleOs.Mm.Pte

/-!
# Loading a program (`loader.c`)

Memory from `malloc` holds what it held before; a local variable that was not assigned is indeterminate.

* `Inst`, `CodeSeg`, `Pcb` : what is loaded; `OldMem` : the contents of the memory that `load` allocates;
* `getOpcode` : `get_opcode`; `scanInst` : one round of the calls of `fscanf`, `fgets` and `sscanf`;
* `loadInst`, `loadLoop`, `load` : `load`;
* `scanCode`, `fillCode` : what the file gives, and the rest from the old contents; `loadLoop_eq`, `load_ok_iff`;
* `load_length` : the code segment is as long as its size.
-/

namespace SimpleOs.Cpu
open SimpleOs.Mm SimpleOs.Scanf

inductive InsOpcode
  | calc
  | alloc
  | free
  | read
  | write
  | syscall
  deriving DecidableEq

structure Inst where
  opcode : InsOpcode
  arg0 : Word
  arg1 : Word
  arg2 : Word
  arg3 : Word
  deriving DecidableEq

structure CodeSeg where
  text : List Inst
  size : Word
  deriving DecidableEq

structure Pcb where
  pid : Word
  priority : Word
  path : List BYTE
  code : CodeSeg
  pc : Word
  deriving DecidableEq

/-- What the memory allocated for `priority`, `code->size` and `code->text` held. -/
structure OldMem where
  priority : Word
  size : Word
  text : Nat → Inst

inductive LoadStop
  | exit
  | ub (e : Ub)
  deriving DecidableEq

/-- The stream, and the locals `opcode` and `buf`, `none` before the first assignment. -/
structure LoadSt where
  stream : List Char
  opcode : Option (List Char)
  buf : Option (List Char)
  deriving DecidableEq

/-- `sizeof(path)` : the size of a pointer -/
def SIZEOF_PATH : Nat := 8

/-- `snprintf(str, size, "%s", l)` -/
def snprintf (size : Nat) (l : List BYTE) : List BYTE := l.take (size - 1)

/-- The string in the `path` of a process loaded from `path`. -/
def loadPath (path : List BYTE) : List BYTE := snprintf (2 * SIZEOF_PATH + 1) path

def getOpcode (opt : List Char) : Except LoadStop InsOpcode :=
  if cstr opt = "calc".toList then .ok .calc
  else if cstr opt = "alloc".toList then .ok .alloc
  else if cstr opt = "free".toList then .ok .free
  else if cstr opt = "read".toList then .ok .read
  else if cstr opt = "write".toList then .ok .write
  else if cstr opt = "syscall".toList then .ok .syscall
  else .error .exit

def InsOpcode.format : InsOpcode → List Directive
  | .calc => []
  | .alloc => [.u, .space, .u, .space]
  | .free => [.u, .space]
  | .read | .write => [.u, .space, .u, .space, .u, .space]
  | .syscall => [.d, .d, .d, .d]

/-- `fscanf(file, "%s", opcode)` -/
def scanOpcode (st : LoadSt) : Except LoadStop LoadSt :=
  match scanString st.stream with
  | none => .ok { st with stream := [] }
  | some (word, rest) =>
    if word.length < 10 then .ok { st with stream := rest, opcode := some word } else .error (.ub (.stack 10))

/-- `fgets(buf, sizeof(buf), file)` -/
def scanBuf (st : LoadSt) : LoadSt :=
  match fgets 200 st.stream with
  | none => { st with stream := [] }
  | some (line, rest) => { st with stream := rest, buf := some line }

/-- The arguments of an instruction, as far as they are converted. -/
def scanArgs (opcode : InsOpcode) (st : LoadSt) : Except LoadStop (List Word × LoadSt) :=
  match opcode with
  | .calc => .ok ([], st)
  | .alloc | .free | .read | .write =>
    let (vals, rest) := scanf opcode.format st.stream
    .ok (vals, { st with stream := rest })
  | .syscall =>
    match (scanBuf st).buf with
    | none => .error (.ub .uninit)
    | some buf => .ok ((scanf opcode.format (cstr buf)).1, scanBuf st)

structure Scanned where
  opcode : InsOpcode
  vals : List Word
  deriving DecidableEq

def scanInst (st : LoadSt) : Except LoadStop (Scanned × LoadSt) := do
  let st ← scanOpcode st
  match st.opcode with
  | none => .error (.ub .uninit)
  | some opt =>
    let opcode ← getOpcode opt
    let (vals, st) ← scanArgs opcode st
    return (⟨opcode, vals⟩, st)

/-- The instruction with the values converted, and otherwise what it was. -/
def Inst.assign (ins : Inst) (x : Scanned) : Inst where
  opcode := x.opcode
  arg0 := x.vals[0]?.getD ins.arg0
  arg1 := x.vals[1]?.getD ins.arg1
  arg2 := x.vals[2]?.getD ins.arg2
  arg3 := x.vals[3]?.getD ins.arg3

/-- A round of the loop, with `ins` for `proc->code->text[i]`. -/
def loadInst (ins : Inst) (st : LoadSt) : Except LoadStop (Inst × LoadSt) := do
  let (x, st) ← scanInst st
  return (ins.assign x, st)

/-- The loop from `i` on, with `n` rounds left. -/
def loadLoop (old : Nat → Inst) : Nat → Nat → LoadSt → Except LoadStop (List Inst)
  | _, 0, _ => .ok []
  | i, n + 1, st => do
    let (ins, st) ← loadInst (old i) st
    let text ← loadLoop old (i + 1) n st
    return ins :: text

def headerFormat : List Directive := [.u, .space, .u]

/-- `load` of a file with these contents, or of no file, with `avail_pid` before and after. -/
def load (availPid : Word) (path : List BYTE) (file : Option (List Char)) (old : OldMem) :
    Except LoadStop (Pcb × Word) :=
  match file with
  | none => .error .exit
  | some s => do
    let (vals, rest) := scanf headerFormat s
    let priority := vals[0]?.getD old.priority
    let size := vals[1]?.getD old.size
    let text ← loadLoop old.text 0 size.toNat ⟨rest, none, none⟩
    return (⟨availPid, priority, loadPath path, ⟨text, size⟩, 0⟩, availPid + 1)

/-! ## What the file gives -/

variable {st st' : LoadSt} {n i : Nat} {l : List Scanned} {old : OldMem}

def scanCode : Nat → LoadSt → Except LoadStop (List Scanned)
  | 0, _ => .ok []
  | n + 1, st => do
    let (x, st) ← scanInst st
    let l ← scanCode n st
    return x :: l

/-- The instructions, with the old contents for what was not read. -/
def fillCode (old : Nat → Inst) : Nat → List Scanned → List Inst
  | _, [] => []
  | i, x :: l => (old i).assign x :: fillCode old (i + 1) l

/-- The loop reads the same for all old contents, and keeps them where it reads nothing. -/
theorem loadLoop_eq (text : Nat → Inst) (i n : Nat) (st : LoadSt) :
    loadLoop text i n st = (scanCode n st).map (fillCode text i) := by
  induction n generalizing i st with
  | zero => rfl
  | succ n ih =>
    rw [loadLoop, scanCode, loadInst]
    cases hx : scanInst st with
    | error e => rfl
    | ok y =>
      obtain ⟨x, st'⟩ := y
      have hl := ih (i + 1) st'
      cases hc : scanCode n st' with
      | error e =>
        rw [hc] at hl
        simp [bind, Except.bind, pure, Except.pure, hl, hc, Except.map]
      | ok l =>
        rw [hc] at hl
        simp [bind, Except.bind, pure, Except.pure, hl, hc, Except.map, fillCode]

@[simp] theorem fillCode_length (text : Nat → Inst) (i : Nat) (l : List Scanned) :
    (fillCode text i l).length = l.length := by
  induction l generalizing i with
  | nil => rfl
  | cons x l ih => rw [fillCode, List.length_cons, List.length_cons, ih]

theorem fillCode_getElem? (text : Nat → Inst) (i k : Nat) (l : List Scanned) :
    (fillCode text i l)[k]? = l[k]?.map (text (i + k)).assign := by
  induction l generalizing i k with
  | nil => rfl
  | cons x l ih =>
    cases k with
    | zero => rfl
    | succ k =>
      rw [fillCode, List.getElem?_cons_succ, List.getElem?_cons_succ, ih, Nat.add_right_comm, Nat.add_assoc]

theorem scanCode_length (h : scanCode n st = .ok l) : l.length = n := by
  induction n generalizing st l with
  | zero =>
    cases h
    rfl
  | succ n ih =>
    obtain ⟨⟨x, st'⟩, -, h⟩ := Exec.bind_ok.mp h
    obtain ⟨l, hl, h⟩ := Exec.bind_ok.mp h
    cases h
    rw [List.length_cons, ih hl]

def header (s : List Char) : List Word × LoadSt :=
  ((scanf headerFormat s).1, ⟨(scanf headerFormat s).2, none, none⟩)

def codeSize (s : List Char) (old : OldMem) : Word := (header s).1[1]?.getD old.size

/-- What `load` gives. -/
theorem load_ok_iff {availPid availPid' : Word} {path : List BYTE} {s : List Char} {proc : Pcb} :
    load availPid path (some s) old = .ok (proc, availPid') ↔
      ∃ l, scanCode (codeSize s old).toNat (header s).2 = .ok l ∧ availPid' = availPid + 1 ∧
        proc = ⟨availPid, (header s).1[0]?.getD old.priority, loadPath path,
          ⟨fillCode old.text 0 l, codeSize s old⟩, 0⟩ := by
  rw [load, Exec.bind_ok, loadLoop_eq]
  show (∃ text, (scanCode (codeSize s old).toNat (header s).2).map (fillCode old.text 0) = .ok text ∧ _) ↔ _
  cases hx : scanCode (codeSize s old).toNat (header s).2 with
  | error e =>
    constructor
    · rintro ⟨text, htext, -⟩
      cases htext
    · rintro ⟨l, hl, -⟩
      cases hl
  | ok l =>
    constructor
    · rintro ⟨text, htext, h⟩
      cases htext
      cases h
      exact ⟨l, rfl, rfl, rfl⟩
    · rintro ⟨l', hl, rfl, rfl⟩
      cases hl
      exact ⟨_, rfl, rfl⟩

theorem load_length {availPid availPid' : Word} {path : List BYTE} {s : List Char} {proc : Pcb}
    (h : load availPid path (some s) old = .ok (proc, availPid')) : proc.code.text.length = proc.code.size.toNat := by
  obtain ⟨l, hl, -, rfl⟩ := load_ok_iff.mp h
  dsimp only
  rw [fillCode_length, scanCode_length hl]

end SimpleOs.Cpu
