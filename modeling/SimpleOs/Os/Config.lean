import SimpleOs.Lib.Words
import SimpleOs.Ub

/-!
# The configuration file (`read_config` of `os.c`)

The static variables are 0 before, `start_time` and `prio` hold what the memory from `malloc` held, and `proc` is
indeterminate in each round of the loop.

* `Config` : the static variables after the call; `OldArgs` : the old contents;
* `scanProcess`, `readProcess`, `readProcesses`, `readConfig` : the function;
* `ConfigText` : what a configuration says; `ConfigText.words` : the words of such a file;
* `config_read` : every such file is read back, however it is laid out;
* `legacy_rejected` : one without the line for the memory is not.
-/

namespace SimpleOs.Os
open SimpleOs.Scanf

/-- `unsigned long` -/
abbrev ULong := BitVec 64

/-- `PAGING_MAX_MMSWP` -/
def MAX_MMSWP : Nat := 4

structure LdProcess where
  path : List Char
  startTime : ULong
  prio : ULong
  deriving DecidableEq

structure Config where
  timeSlot : BitVec 32
  numCpus : BitVec 32
  numProcesses : BitVec 32
  memramsz : BitVec 32
  memswpsz : List (BitVec 32)
  processes : List LdProcess
  deriving DecidableEq

/-- What the memory allocated for `start_time` and `prio` held. -/
structure OldArgs where
  startTime : Nat → ULong
  prio : Nat → ULong

inductive ConfigStop
  | exit
  /-- `proc` is read in a round that did not assign it -/
  | uninit
  /-- a word does not fit `proc` -/
  | proc
  /-- a path does not fit `path[i]` -/
  | path
  deriving DecidableEq

/-- The size of `proc` and of `path[i]`. -/
def NAME_SIZE : Nat := 100

def procDir : List Char := "input/proc/".toList

structure ProcScan where
  startTime : Option ULong
  proc : Option (List Char)
  prio : Option ULong
  deriving DecidableEq

/-- `fscanf(file, "%lu %s %lu\n", &start_time[i], proc, &prio[i])` -/
def scanProcess (s : List Char) : ProcScan × List Char :=
  match scanNumber s with
  | (none, s) => (⟨none, none, none⟩, s)
  | (some (neg, start), s) =>
    match scanString s with
    | none => (⟨some (convertLong neg start), none, none⟩, [])
    | some (proc, s) =>
      match scanNumber s with
      | (none, s) => (⟨some (convertLong neg start), some proc, none⟩, s)
      | (some (neg', prio), s) =>
        (⟨some (convertLong neg start), some proc, some (convertLong neg' prio)⟩, skipSpace s)

def readProcess (old : OldArgs) (i : Nat) (s : List Char) : Except ConfigStop (LdProcess × List Char) :=
  let (line, rest) := scanProcess s
  match line.proc with
  | none => .error .uninit
  | some proc =>
    if NAME_SIZE ≤ proc.length then .error .proc
    else if NAME_SIZE ≤ (procDir ++ cstr proc).length then .error .path
    else .ok (⟨procDir ++ cstr proc, line.startTime.getD (old.startTime i), line.prio.getD (old.prio i)⟩, rest)

def readProcesses (old : OldArgs) : Nat → Nat → List Char → Except ConfigStop (List LdProcess)
  | _, 0, _ => .ok []
  | i, n + 1, s => do
    let (process, s) ← readProcess old i s
    let processes ← readProcesses old (i + 1) n s
    return process :: processes

/-- A call of `fscanf` for one number, with the static variable 0 before. -/
def scanInt (format : List Directive) (s : List Char) : BitVec 32 × List Char :=
  let (vals, s) := scanf format s
  (vals[0]?.getD 0, s)

def scanMemswpsz : Nat → List Char → List (BitVec 32) × List Char
  | 0, s => ([], s)
  | n + 1, s =>
    let (size, s) := scanInt [.d] s
    let (sizes, s) := scanMemswpsz n s
    (size :: sizes, s)

/-- `read_config` of a file with these contents, or of no file. -/
def readConfig (file : Option (List Char)) (old : OldArgs) : Except ConfigStop Config :=
  match file with
  | none => .error .exit
  | some s => do
    let (vals, s) := scanf [.d, .space, .d, .space, .d, .space] s
    let (memramsz, s) := scanInt [.d, .space] s
    let (memswpsz, s) := scanMemswpsz MAX_MMSWP s
    let numProcesses := vals[2]?.getD 0
    let processes ← readProcesses old 0 numProcesses.toInt.toNat (skipSpace s)
    return ⟨vals[0]?.getD 0, vals[1]?.getD 0, numProcesses, memramsz, memswpsz, processes⟩

/-! ## Configurations -/

structure ProcLine where
  startTime : ULong
  name : List Char
  prio : ULong
  nonempty : name ≠ []
  chars : ∀ c ∈ name, isspace c = false ∧ c ≠ Char.ofNat 0

def ProcLine.words (p : ProcLine) : List (List Char) := [decimal p.startTime.toNat, p.name, decimal p.prio.toNat]

def ProcLine.process (p : ProcLine) : LdProcess := ⟨procDir ++ p.name, p.startTime, p.prio⟩

def ProcLine.overflow (p : ProcLine) : Option ConfigStop :=
  if NAME_SIZE ≤ p.name.length then some .proc
  else if NAME_SIZE ≤ (procDir ++ p.name).length then some .path
  else none

structure ConfigText where
  timeSlot : BitVec 32
  numCpus : BitVec 32
  memramsz : BitVec 32
  memswpsz : List (BitVec 32)
  lines : List ProcLine
  swaps : memswpsz.length = MAX_MMSWP
  count : lines.length < 2147483648

def ConfigText.header (t : ConfigText) : List Nat := [t.timeSlot.toNat, t.numCpus.toNat, t.lines.length]

def ConfigText.memory (t : ConfigText) : List Nat := t.memramsz.toNat :: t.memswpsz.map BitVec.toNat

def ConfigText.body (t : ConfigText) : List (List Char) := t.lines.flatMap ProcLine.words

def ConfigText.words (t : ConfigText) : List (List Char) :=
  t.header.map decimal ++ (t.memory.map decimal ++ t.body)

def ConfigText.legacyWords (t : ConfigText) : List (List Char) := t.header.map decimal ++ t.body

def ConfigText.config (t : ConfigText) : Config where
  timeSlot := t.timeSlot
  numCpus := t.numCpus
  numProcesses := BitVec.ofNat 32 t.lines.length
  memramsz := t.memramsz
  memswpsz := t.memswpsz
  processes := t.lines.map ProcLine.process

variable {s : List Char} {l : List (List Char)} {p : ProcLine} {old : OldArgs} {i : Nat} {t : ConfigText}

/-! ## The lines for the processes -/

/-- The line of a process is read. -/
theorem scanProcess_words (h : words s = p.words ++ l) :
    ∃ rest, scanProcess s = (⟨some p.startTime, some p.name, some p.prio⟩, rest) ∧ words rest = l := by
  obtain ⟨s₁, hstart, h⟩ := scanNumber_words h
  obtain ⟨s₂, hname, h⟩ := scanString_words h
  obtain ⟨s₃, hprio, h⟩ := scanNumber_words h
  refine ⟨skipSpace s₃, ?_, (words_skipSpace s₃).trans h⟩
  unfold scanProcess
  rw [hstart]
  dsimp only
  rw [hname]
  dsimp only
  rw [hprio]
  dsimp only
  rw [convertLong_of_lt p.startTime.isLt, convertLong_of_lt p.prio.isLt, BitVec.ofNat_toNat, BitVec.ofNat_toNat,
    BitVec.setWidth_eq, BitVec.setWidth_eq]

theorem ProcLine.cstr_name (p : ProcLine) : cstr p.name = p.name :=
  cstr_of_not_mem fun h => (p.chars _ h).2 rfl

theorem readProcess_words (old : OldArgs) (i : Nat) (h : words s = p.words ++ l) :
    match p.overflow with
    | none => ∃ rest, readProcess old i s = .ok (p.process, rest) ∧ words rest = l
    | some e => readProcess old i s = .error e := by
  obtain ⟨rest, hscan, hl⟩ := scanProcess_words h
  unfold readProcess ProcLine.overflow
  rw [hscan]
  dsimp only
  rw [p.cstr_name]
  split_ifs
  · rfl
  · rfl
  · exact ⟨rest, rfl, hl⟩

/-- All lines are read, in order, up to a name that overflows. -/
theorem readProcesses_words (old : OldArgs) (i : Nat) (lines : List ProcLine)
    (h : words s = lines.flatMap ProcLine.words ++ l) : readProcesses old i lines.length s =
      match lines.findSome? ProcLine.overflow with
      | none => .ok (lines.map ProcLine.process)
      | some e => .error e := by
  induction lines generalizing s i with
  | nil => rfl
  | cons p lines ih =>
    rw [List.flatMap_cons, List.append_assoc] at h
    have hline := readProcess_words old i h
    rw [List.length_cons, readProcesses, List.findSome?_cons]
    cases hover : p.overflow with
    | none =>
      rw [hover] at hline
      obtain ⟨rest, hread, hrest⟩ := hline
      have hlines := ih (i + 1) hrest
      rw [hread]
      show (readProcesses old (i + 1) lines.length rest >>= fun processes => pure (p.process :: processes)) = _
      rw [hlines]
      cases lines.findSome? ProcLine.overflow <;> rfl
    | some e =>
      rw [hover] at hline
      dsimp only at hline
      rw [hline]
      rfl

/-! ## The file -/

theorem scanInt_words {n : Nat} (spaces : List Directive) (hspaces : numbers spaces = 0)
    (h : words s = decimal n :: l) :
    ∃ rest, scanInt (.d :: spaces) s = (convert true false n, rest) ∧ words rest = l := by
  obtain ⟨mid, hnumber, hmid⟩ := scanNumber_words h
  obtain ⟨rest, hscan, hl⟩ := scanf_words spaces [] hspaces (fun _ hn => absurd hn List.not_mem_nil) hmid
  refine ⟨rest, ?_, hl⟩
  rw [scanInt, scanf, hnumber]
  dsimp only
  rw [hscan]
  rfl

theorem scanMemswpsz_words (sizes : List (BitVec 32)) (h : words s = (sizes.map BitVec.toNat).map decimal ++ l) :
    ∃ rest, scanMemswpsz sizes.length s = (sizes, rest) ∧ words rest = l := by
  induction sizes generalizing s with
  | nil => exact ⟨s, rfl, h⟩
  | cons size sizes ih =>
    obtain ⟨mid, hfirst, hmid⟩ := scanInt_words [] rfl h
    obtain ⟨rest, hsizes, hl⟩ := ih hmid
    refine ⟨rest, ?_, hl⟩
    rw [List.length_cons, scanMemswpsz, hfirst]
    dsimp only
    rw [hsizes, convert_of_lt true size.isLt, BitVec.ofNat_toNat, BitVec.setWidth_eq]

theorem header_words (h : words s = t.header.map decimal ++ l) :
    ∃ rest, scanf [.d, .space, .d, .space, .d, .space] s =
      ([t.timeSlot, t.numCpus, BitVec.ofNat 32 t.lines.length], rest) ∧ words rest = l := by
  have hvals : ∀ n ∈ t.header, n < 4294967296 := by
    have hcount := t.count
    have hslot := t.timeSlot.isLt
    have hcpus := t.numCpus.isLt
    simp only [ConfigText.header, List.forall_mem_cons, List.not_mem_nil, false_implies, implies_true, and_true]
    omega
  obtain ⟨rest, hscan, hl⟩ := scanf_words [.d, .space, .d, .space, .d, .space] t.header rfl hvals h
  refine ⟨rest, ?_, hl⟩
  rw [hscan]
  simp [ConfigText.header]

theorem ConfigText.rounds (t : ConfigText) : (BitVec.ofNat 32 t.lines.length).toInt.toNat = t.lines.length := by
  have hcount := t.count
  have hnat : (BitVec.ofNat 32 t.lines.length).toNat = t.lines.length := by
    rw [BitVec.toNat_ofNat]
    omega
  rw [BitVec.toInt_eq_toNat_of_lt (by omega), hnat, Int.toNat_natCast]

theorem readConfig_lines (old : OldArgs) (h : words s = t.words ++ l) : ∃ rest, words rest = t.body ++ l ∧
    readConfig (some s) old = (readProcesses old 0 t.lines.length rest).map fun processes =>
      { t.config with processes := processes } := by
  unfold ConfigText.words at h
  rw [List.append_assoc, List.append_assoc] at h
  obtain ⟨s₁, hheader, h⟩ := header_words h
  obtain ⟨s₂, hram, h⟩ := scanInt_words [.space] rfl h
  obtain ⟨s₃, hswp, h⟩ := scanMemswpsz_words t.memswpsz h
  refine ⟨skipSpace s₃, (words_skipSpace s₃).trans h, ?_⟩
  unfold readConfig
  dsimp only
  rw [hheader]
  dsimp only
  rw [hram]
  dsimp only
  rw [← t.swaps, hswp]
  dsimp only [List.getElem?_cons_succ, List.getElem?_cons_zero, Option.getD]
  rw [t.rounds, convert_of_lt true t.memramsz.isLt, BitVec.ofNat_toNat, BitVec.setWidth_eq]
  cases readProcesses old 0 t.lines.length (skipSpace s₃) <;> rfl

/-- Every configuration is read back if its paths fit, in whatever white space its words stand, whatever follows
them and whatever the memory held before. Otherwise the first name that does not fit overflows its array. -/
theorem config_read (h : words s = t.words ++ l) : readConfig (some s) old =
    match t.lines.findSome? ProcLine.overflow with
    | none => .ok t.config
    | some e => .error e := by
  obtain ⟨rest, hrest, hconfig⟩ := readConfig_lines old h
  rw [hconfig, readProcesses_words old 0 t.lines hrest]
  cases t.lines.findSome? ProcLine.overflow <;> rfl

def anyArgs : OldArgs := ⟨fun _ => 7, fun _ => 7⟩

/-- A process that is loaded at time 5, with blanks at the end of its line. -/
def blankLine : ProcLine := ⟨5, "p1s".toList, 10, by decide, by simp [isspace]⟩

def oneProcess : ConfigText := ⟨2, 1, 2048, [16777216, 0, 0, 0], [blankLine], rfl, by decide⟩

theorem config_read_oneProcess :
    readConfig (some "2 1  1\n2048 16777216 0 0 0\n5 p1s 10  \n".toList) anyArgs = .ok oneProcess.config :=
  config_read (t := oneProcess) (l := []) (by decide)

theorem scanMemswpsz_not {w : List Char} (n : Nat) (h : words s = w :: l) (hw : NoNumber w) :
    ∃ rest, scanMemswpsz n s = (List.replicate n 0, rest) ∧ words rest = w :: l := by
  induction n generalizing s with
  | zero => exact ⟨s, rfl, h⟩
  | succ n ih =>
    obtain ⟨rest, hsizes, hl⟩ := ih ((words_skipSpace s).trans h)
    refine ⟨rest, ?_, hl⟩
    rw [scanMemswpsz, scanInt, scanf_not true [] h hw]
    dsimp only
    rw [hsizes]
    rfl

/-- A file without the line for the memory is not read: `memramsz` takes the first start time, and then no `%d` and
no `%lu` gets past the first name. -/
theorem legacy_rejected {lines : List ProcLine} (hlines : t.lines = p :: lines) (hname : NoNumber p.name)
    (h : words s = t.legacyWords ++ l) : readConfig (some s) old = .error .uninit := by
  unfold ConfigText.legacyWords ConfigText.body at h
  rw [List.append_assoc, hlines] at h
  obtain ⟨s₁, hheader, h⟩ := header_words h
  obtain ⟨s₂, hram, h⟩ := scanInt_words [.space] rfl h
  obtain ⟨s₃, hswp, h⟩ := scanMemswpsz_not MAX_MMSWP h hname
  have hread : readProcess old 0 (skipSpace s₃) = .error .uninit := by
    unfold readProcess scanProcess
    rw [scanNumber_not ((words_skipSpace s₃).trans h) hname]
  have hround : readProcesses old 0 (lines.length + 1) (skipSpace s₃) = .error .uninit := by
    unfold readProcesses
    rw [hread]
    rfl
  unfold readConfig
  dsimp only
  rw [hheader]
  dsimp only
  rw [hram]
  dsimp only
  rw [hswp]
  dsimp only [List.getElem?_cons_succ, List.getElem?_cons_zero, Option.getD]
  rw [t.rounds, hlines, List.length_cons, hround]
  rfl

theorem legacy_rejected_oneProcess :
    readConfig (some "2 1 1\n5 p1s 10\n".toList) anyArgs = .error .uninit :=
  legacy_rejected (t := oneProcess) (l := []) rfl ⟨'p', "1s".toList, rfl, by decide, by decide, by decide⟩ (by decide)

end SimpleOs.Os
