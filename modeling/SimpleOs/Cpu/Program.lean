import SimpleOs.Cpu.Loader

/-!
# Programs and their files

* `Instr` : an instruction, with as many arguments as its opcode takes, in range;
* `programText` : the file of a program, one instruction a line, with or without a newline at its end;
* `scanInst_line` : a line is read as its instruction; `scanCode_body` : so are all of them;
* `load_program` : `load` gives the program of fewer than 2^32 instructions;
* `load_long` : the count of a longer one does not fit the header.
-/

namespace SimpleOs.Cpu
open SimpleOs.Mm SimpleOs.Scanf

def InsOpcode.arity : InsOpcode → Nat
  | .calc => 0
  | .alloc => 2
  | .free => 1
  | .read | .write => 3
  | .syscall => 4

def InsOpcode.bound : InsOpcode → Nat
  | .syscall => 2147483648
  | _ => 4294967296

def InsOpcode.name : InsOpcode → List Char
  | .calc => "calc".toList
  | .alloc => "alloc".toList
  | .free => "free".toList
  | .read => "read".toList
  | .write => "write".toList
  | .syscall => "syscall".toList

structure Instr where
  opcode : InsOpcode
  args : List Nat
  arity : args.length = opcode.arity
  bound : ∀ n ∈ args, n < opcode.bound

def Instr.line (i : Instr) : List Char := i.opcode.name ++ Scanf.args i.args

def body (l : List Instr) (newline : Bool) : List Char :=
  (l.flatMap fun i => '\n' :: i.line) ++ if newline then ['\n'] else []

def programText (priority : Word) (l : List Instr) (newline : Bool) : List Char :=
  decimal priority.toNat ++ ' ' :: decimal l.length ++ body l newline

def Inst.used (ins : Inst) : List Word := [ins.arg0, ins.arg1, ins.arg2, ins.arg3].take ins.opcode.arity

/-- `load` of the program gives it back. -/
structure LoadsAs (priority : Word) (l : List Instr) (proc : Pcb) : Prop where
  size : proc.code.size.toNat = l.length
  text : proc.code.text.map (fun ins => (ins.opcode, ins.used.map BitVec.toNat)) = l.map fun i => (i.opcode, i.args)
  pc : proc.pc = 0
  priority : proc.priority = priority

variable {i : Instr} {l : List Instr} {newline : Bool} {priority : Word} {st : LoadSt} {s : List Char}

/-! ## A line -/

theorem getOpcode_name (opcode : InsOpcode) : getOpcode opcode.name = .ok opcode := by
  cases opcode <;> rfl

theorem name_word (opcode : InsOpcode) :
    opcode.name ≠ [] ∧ opcode.name.length < 10 ∧ ∀ c ∈ opcode.name, isspace c = false := by
  have hall : opcode.name.all (!isspace ·) = true := by cases opcode <;> rfl
  refine ⟨?_, ?_, fun c hc => ?_⟩
  · cases opcode <;> decide
  · cases opcode <;> decide
  · have hnot := List.all_eq_true.mp hall c hc
    rwa [Bool.not_eq_true'] at hnot

theorem numbers_format (opcode : InsOpcode) : numbers opcode.format = opcode.arity := by
  cases opcode <;> rfl

theorem Instr.lt (i : Instr) : ∀ n ∈ i.args, n < 4294967296 := by
  intro n hn
  have hlt := i.bound n hn
  unfold InsOpcode.bound at hlt
  split at hlt <;> omega

theorem body_cases (l : List Instr) (newline : Bool) : body l newline = [] ∨ ∃ rest, body l newline = '\n' :: rest := by
  cases l with
  | nil =>
    cases newline with
    | false => exact .inl rfl
    | true => exact .inr ⟨[], rfl⟩
  | cons i l => exact .inr ⟨_, rfl⟩

theorem body_ends {p : Char → Bool} (hp : p '\n' = false) (l : List Instr) (newline : Bool) :
    Ends p (body l newline) := by
  rcases body_cases l newline with h | ⟨rest, h⟩
  · rw [h]
    exact ends_nil p
  · rw [h]
    exact ends_cons hp

theorem skipSpace_body (i : Instr) (l : List Instr) (newline : Bool) :
    skipSpace (body (i :: l) newline) = i.opcode.name ++ (Scanf.args i.args ++ body l newline) := by
  obtain ⟨hne, -, hspace⟩ := name_word i.opcode
  obtain ⟨c, w, hw⟩ := List.exists_cons_of_ne_nil hne
  have happend : body (i :: l) newline = '\n' :: (i.opcode.name ++ (Scanf.args i.args ++ body l newline)) := by
    simp [body, Instr.line]
  rw [happend, skipSpace_cons (by decide), hw]
  exact skipSpace_of_not (hspace c (by rw [hw]; exact List.mem_cons_self))

theorem ends_args_body (i : Instr) (l : List Instr) (newline : Bool) :
    Ends (!isspace ·) (Scanf.args i.args ++ body l newline) := by
  cases hargs : i.args with
  | nil => exact body_ends (by decide) l newline
  | cons => exact ends_cons (by decide)

theorem args_length_le (vals : List Nat) (hvals : ∀ n ∈ vals, n < 4294967296) :
    (Scanf.args vals).length ≤ 11 * vals.length := by
  induction vals with
  | nil => exact Nat.le_refl 0
  | cons n vals ih =>
    rw [List.forall_mem_cons] at hvals
    have hn : (decimal n).length ≤ 10 :=
      (Nat.length_toDigits_le_iff (by decide) (by decide)).mpr (Nat.lt_trans hvals.1 (by decide))
    have happend : Scanf.args (n :: vals) = ' ' :: (decimal n ++ Scanf.args vals) := rfl
    have hlen := ih hvals.2
    rw [happend, List.length_cons, List.length_append, List.length_cons]
    omega

theorem mem_args {c : Char} {vals : List Nat} (hc : c ∈ Scanf.args vals) : c = ' ' ∨ c.isDigit = true := by
  obtain ⟨n, -, hc⟩ := List.mem_flatMap.mp hc
  rcases List.mem_cons.mp hc with rfl | hc
  · exact .inl rfl
  · exact .inr (isDigit_of_mem_decimal hc)

theorem not_mem_args {c : Char} (hspace : c ≠ ' ') (hdigit : c.isDigit = false) (vals : List Nat) :
    c ∉ Scanf.args vals := by
  intro hc
  rcases mem_args hc with rfl | hd
  · exact hspace rfl
  · rw [hdigit] at hd
    cases hd

theorem fgets_args (vals : List Nat) (hne : vals ≠ []) (hlen : (Scanf.args vals).length < 199) (l : List Instr)
    (newline : Bool) : ∃ eol rest, (eol = [] ∨ eol = ['\n']) ∧
      fgets 200 (Scanf.args vals ++ body l newline) = some (Scanf.args vals ++ eol, rest) ∧
      skipSpace rest = skipSpace (body l newline) := by
  have hargs : ∃ c w, Scanf.args vals = c :: w := by
    cases vals with
    | nil => exact absurd rfl hne
    | cons n vals => exact ⟨_, _, rfl⟩
  obtain ⟨c, w, hw⟩ := hargs
  have hline : '\n' ∉ Scanf.args vals := not_mem_args (by decide) (by decide) vals
  rcases body_cases l newline with h | ⟨rest, h⟩
  · refine ⟨[], [], .inl rfl, ?_, by rw [h]⟩
    rw [h, List.append_nil, fgets, takeLine_end hline hlen.le, hw]
  · refine ⟨['\n'], rest, .inr rfl, ?_, by rw [h, skipSpace_cons (by decide)]⟩
    rw [h, fgets, takeLine_line hline hlen, hw]
    rfl

theorem scanBuf_args {vals : List Nat} (hne : vals ≠ []) (hlen : (Scanf.args vals).length < 199) (l : List Instr)
    (newline : Bool) (hst : st.stream = Scanf.args vals ++ body l newline) :
    ∃ eol rest, Ends Char.isDigit eol ∧ scanBuf st = { st with stream := rest, buf := some (Scanf.args vals ++ eol) } ∧
      cstr (Scanf.args vals ++ eol) = Scanf.args vals ++ eol ∧ skipSpace rest = skipSpace (body l newline) := by
  obtain ⟨eol, rest, heol, hline, hleft⟩ := fgets_args vals hne hlen l newline
  refine ⟨eol, rest, ?_, ?_, ?_, hleft⟩
  · rcases heol with rfl | rfl
    · exact ends_nil _
    · exact ends_cons (by decide)
  · rw [scanBuf, hst, hline]
  · apply cstr_of_not_mem
    rw [List.mem_append, not_or]
    refine ⟨not_mem_args (by decide) (by decide) vals, ?_⟩
    rcases heol with rfl | rfl <;> decide

def Instr.scanned (i : Instr) : Scanned := ⟨i.opcode, i.args.map (BitVec.ofNat 32)⟩

theorem scanArgs_line (st : LoadSt) (i : Instr) (l : List Instr) (newline : Bool)
    (hst : st.stream = Scanf.args i.args ++ body l newline) :
    ∃ st', scanArgs i.opcode st = .ok (i.args.map (BitVec.ofNat 32), st') ∧
      skipSpace st'.stream = skipSpace (body l newline) := by
  have hcount : numbers i.opcode.format = i.args.length := (numbers_format i.opcode).trans i.arity.symm
  have hends : Ends Char.isDigit (body l newline) := body_ends (by decide) l newline
  obtain ⟨hvals, hrest⟩ := scanf_args i.opcode.format i.args hcount i.lt hends (congrArg skipSpace hst)
  unfold scanArgs
  split
  · next hop =>
    have hnil : i.args = [] := by
      rw [← List.length_eq_zero_iff, i.arity, hop]
      rfl
    refine ⟨st, by rw [hnil]; rfl, ?_⟩
    rw [hst, hnil]
    rfl
  · next => exact ⟨_, by rw [← hvals], hrest⟩
  · next => exact ⟨_, by rw [← hvals], hrest⟩
  · next => exact ⟨_, by rw [← hvals], hrest⟩
  · next => exact ⟨_, by rw [← hvals], hrest⟩
  · next hop =>
    have hfour : i.args.length = 4 := by rw [i.arity, hop]; rfl
    have hne : i.args ≠ [] := fun hnil => by
      rw [hnil] at hfour
      cases hfour
    have hlen := args_length_le i.args i.lt
    obtain ⟨eol, rest, heol, hbuf, hcstr, hleft⟩ := scanBuf_args hne (by omega) l newline hst
    have hscan := (scanf_args i.opcode.format i.args hcount i.lt heol rfl).1
    refine ⟨scanBuf st, ?_, by rw [hbuf]; exact hleft⟩
    rw [hbuf]
    dsimp only
    rw [hcstr, ← hscan, hop]

/-- A line is read as its instruction, and the next line comes after what is read. -/
theorem scanInst_line (i : Instr) (l : List Instr) (newline : Bool)
    (hst : skipSpace st.stream = skipSpace (body (i :: l) newline)) :
    ∃ st', scanInst st = .ok (i.scanned, st') ∧ skipSpace st'.stream = skipSpace (body l newline) := by
  obtain ⟨hne, hlen, hspace⟩ := name_word i.opcode
  rw [skipSpace_body] at hst
  have hword := scanString_word hst hne hspace (ends_args_body i l newline)
  have hopcode : scanOpcode st =
      .ok { st with stream := Scanf.args i.args ++ body l newline, opcode := some i.opcode.name } := by
    rw [scanOpcode, hword]
    exact if_pos hlen
  obtain ⟨st', hargs, hleft⟩ := scanArgs_line
    { st with stream := Scanf.args i.args ++ body l newline, opcode := some i.opcode.name } i l newline rfl
  refine ⟨st', ?_, hleft⟩
  refine Exec.bind_ok.mpr ⟨_, hopcode, ?_⟩
  dsimp only
  refine Exec.bind_ok.mpr ⟨_, getOpcode_name i.opcode, Exec.bind_ok.mpr ⟨_, hargs, rfl⟩⟩

/-- All lines are read, in order. -/
theorem scanCode_body (l : List Instr) (newline : Bool) (hst : skipSpace st.stream = skipSpace (body l newline)) :
    scanCode l.length st = .ok (l.map Instr.scanned) := by
  induction l generalizing st with
  | nil => rfl
  | cons i l ih =>
    obtain ⟨st', hline, hleft⟩ := scanInst_line i l newline hst
    exact Exec.bind_ok.mpr ⟨_, hline, Exec.bind_ok.mpr ⟨_, ih hleft, rfl⟩⟩

/-! ## The program -/

theorem header_programText (priority : Word) (l : List Instr) (newline : Bool)
    (hlen : l.length < 18446744073709551616) :
    (header (programText priority l newline)).1 = [priority, BitVec.ofNat 32 l.length] ∧
      skipSpace (header (programText priority l newline)).2.stream = skipSpace (body l newline) := by
  have hsplit : programText priority l newline =
      decimal priority.toNat ++ (' ' :: (decimal l.length ++ body l newline)) := by
    simp [programText]
  have hfirst : scanNumber (programText priority l newline) =
      (some (false, priority.toNat), ' ' :: (decimal l.length ++ body l newline)) := by
    rw [hsplit]
    exact scanNumber_decimal (skipSpace_decimal _ _) (ends_cons (by decide))
  have hblank : skipSpace (' ' :: (decimal l.length ++ body l newline)) = decimal l.length ++ body l newline := by
    rw [skipSpace_cons (by decide), skipSpace_decimal]
  have hsecond : scanNumber (decimal l.length ++ body l newline) = (some (false, l.length), body l newline) :=
    scanNumber_decimal (skipSpace_decimal _ _) (body_ends (by decide) l newline)
  have hscan : scanf headerFormat (programText priority l newline) =
      ([priority, BitVec.ofNat 32 l.length], body l newline) := by
    rw [headerFormat, scanf, hfirst]
    dsimp only
    rw [scanf, hblank, scanf, hsecond]
    dsimp only
    have hlt := priority.isLt
    rw [scanf, convert_unsigned (by omega), convert_unsigned hlen, BitVec.ofNat_toNat, BitVec.setWidth_eq]
  rw [header, hscan]
  exact ⟨rfl, rfl⟩

theorem assign_used (ins : Inst) {x : Scanned} (hlen : x.vals.length = x.opcode.arity) :
    (ins.assign x).used = x.vals := by
  have hfour : x.opcode.arity ≤ 4 := by cases x.opcode <;> decide
  obtain ⟨opcode, vals⟩ := x
  dsimp only at hlen hfour
  show [vals[0]?.getD ins.arg0, vals[1]?.getD ins.arg1, vals[2]?.getD ins.arg2, vals[3]?.getD ins.arg3].take
    opcode.arity = vals
  rw [← hlen] at hfour ⊢
  rcases vals with _ | ⟨a, _ | ⟨b, _ | ⟨c, _ | ⟨d, _ | ⟨e, vals⟩⟩⟩⟩⟩
  · rfl
  · rfl
  · rfl
  · rfl
  · rfl
  · simp only [List.length_cons] at hfour
    omega

theorem assign_scanned (ins : Inst) (i : Instr) :
    ((ins.assign i.scanned).opcode, (ins.assign i.scanned).used.map BitVec.toNat) = (i.opcode, i.args) := by
  have hlen : i.scanned.vals.length = i.scanned.opcode.arity := by
    rw [Instr.scanned, List.length_map]
    exact i.arity
  have hargs : (i.args.map (BitVec.ofNat 32)).map BitVec.toNat = i.args := by
    rw [List.map_map]
    calc i.args.map (BitVec.toNat ∘ BitVec.ofNat 32) = i.args.map id := by
          refine List.map_congr_left fun n hn => ?_
          rw [Function.comp_apply, BitVec.toNat_ofNat, Nat.mod_eq_of_lt (i.lt n hn), id]
      _ = i.args := List.map_id _
  rw [assign_used ins hlen]
  exact congrArg (Prod.mk i.opcode) hargs

theorem fillCode_scanned (text : Nat → Inst) (k : Nat) (l : List Instr) :
    (fillCode text k (l.map Instr.scanned)).map (fun ins => (ins.opcode, ins.used.map BitVec.toNat)) =
      l.map fun i => (i.opcode, i.args) := by
  induction l generalizing k with
  | nil => rfl
  | cons i l ih =>
    rw [List.map_cons, fillCode, List.map_cons, List.map_cons, ih, assign_scanned]

theorem codeSize_programText (priority : Word) (old : OldMem) (newline : Bool) (hlen : l.length < 4294967296) :
    (codeSize (programText priority l newline) old).toNat = l.length := by
  obtain ⟨hhead, -⟩ := header_programText priority l newline (by omega)
  rw [codeSize, hhead]
  show (BitVec.ofNat 32 l.length).toNat = l.length
  rw [BitVec.toNat_ofNat, Nat.mod_eq_of_lt hlen]

theorem scanCode_programText (priority : Word) (old : OldMem) (newline : Bool) (hlen : l.length < 4294967296) :
    scanCode (codeSize (programText priority l newline) old).toNat (header (programText priority l newline)).2 =
      .ok (l.map Instr.scanned) := by
  rw [codeSize_programText priority old newline hlen]
  exact scanCode_body l newline (header_programText priority l newline (by omega)).2

/-- The loader decodes every well-formed program that its header can count: `load` returns a code segment with
the instructions of the program and their arguments, in order, `pc` at 0 and the priority, whatever the memory it
allocates held before. -/
theorem load_program (availPid priority : Word) (path : List BYTE) (old : OldMem) (l : List Instr) (newline : Bool)
    (hlen : l.length < 4294967296) :
    ∃ proc, load availPid path (some (programText priority l newline)) old = .ok (proc, availPid + 1) ∧
      LoadsAs priority l proc := by
  obtain ⟨hhead, -⟩ := header_programText priority l newline (by omega)
  have hcode := scanCode_programText priority old newline hlen
  refine ⟨_, load_ok_iff.mpr ⟨_, hcode, rfl, rfl⟩, ?_, fillCode_scanned _ _ _, rfl, ?_⟩
  · exact codeSize_programText priority old newline hlen
  · rw [hhead]
    rfl

/-! ## Two programs -/

def calcInstr : Instr := ⟨.calc, [], rfl, fun _ h => by cases h⟩

def mixedProgram : List Instr :=
  [calcInstr, ⟨.alloc, [300, 0], rfl, by decide⟩, ⟨.syscall, [101, 1, 2, 3], rfl, by decide⟩, calcInstr,
    ⟨.write, [4294967295, 1, 2], rfl, by decide⟩]

def anyMem : OldMem := ⟨7, 7, fun _ => ⟨.free, 7, 7, 7, 7⟩⟩

theorem load_program_mixed :
    ∃ proc, load 1 [] (some (programText 20 mixedProgram false)) anyMem = .ok (proc, 2) ∧
      LoadsAs 20 mixedProgram proc :=
  load_program 1 20 [] anyMem mixedProgram false (by decide)

/-- The count of 2^32 instructions is read as 0, and the program is not loaded. -/
theorem load_long :
    (∃ proc, load 1 [] (some (programText 20 (List.replicate 4294967296 calcInstr) true)) anyMem = .ok (proc, 2) ∧
      proc.code.text = []) ∧
    ¬ ∃ proc, load 1 [] (some (programText 20 (List.replicate 4294967296 calcInstr) true)) anyMem = .ok (proc, 2) ∧
      LoadsAs 20 (List.replicate 4294967296 calcInstr) proc := by
  constructor
  · obtain ⟨hhead, -⟩ := header_programText 20 (List.replicate 4294967296 calcInstr) true
      (by rw [List.length_replicate]; decide)
    rw [List.length_replicate] at hhead
    have hsize : codeSize (programText 20 (List.replicate 4294967296 calcInstr) true) anyMem = 0 := by
      rw [codeSize, hhead]
      rfl
    refine ⟨_, load_ok_iff.mpr ⟨[], ?_, rfl, rfl⟩, rfl⟩
    rw [hsize]
    rfl
  · rintro ⟨proc, -, hload⟩
    have hsize := hload.size
    have hlt := proc.code.size.isLt
    rw [List.length_replicate] at hsize
    omega

end SimpleOs.Cpu
