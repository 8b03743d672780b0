import Mathlib.Data.List.TakeWhile

/-!
# Formatted input of the C library

What is still to be read of a stream is a list of characters. The white space is that of the C locale.

* `scanNumber` : the sign and the digits of a decimal number, after white space; `convert` : its value in 32
  bits, through `strtoul` or `strtol` with a `long` of 64 bits;
* `Directive`, `scanf` : white space, `%u` and `%d` in a format, with the values converted before the first
  failure;
* `scanString` : `%s`; `fgets`; `cstr` : the string in an array;
* `decimal` : a number written in decimal digits; `scanNumber_decimal`, `scanString_word`, `takeLine_line` : how
  what was written is read.
-/

namespace SimpleOs.Scanf

variable {s rest l w : List Char} {c : Char} {n : Nat}

def isspace (c : Char) : Bool := c = ' ' || ('\t' ≤ c && c ≤ '\r')

def skipSpace (s : List Char) : List Char := s.dropWhile isspace

def scanSign : List Char → Bool × List Char
  | [] => (false, [])
  | c :: s => if c = '-' then (true, s) else if c = '+' then (false, s) else (false, c :: s)

/-- Whether a number has a minus sign, and its digits. A sign without digits is read. -/
def scanNumber (s : List Char) : Option (Bool × Nat) × List Char :=
  let (neg, s) := scanSign (skipSpace s)
  if s.takeWhile Char.isDigit = [] then (none, s)
  else (some (neg, Nat.ofDigitChars 10 (s.takeWhile Char.isDigit) 0), s.dropWhile Char.isDigit)

/-- The value of a number for `%d` (`signed`) or `%u` : clipped to the range of `long`, where `strtoul` negates
modulo that range, and cut to 32 bits. -/
def convert (signed neg : Bool) (n : Nat) : BitVec 32 :=
  if signed then BitVec.ofInt 32 (if neg then max (-9223372036854775808) (-n) else min 9223372036854775807 n)
  else if n < 18446744073709551616 then BitVec.ofInt 32 (if neg then -n else n) else -1

/-- A part of a format: white space, or a number. -/
inductive Directive
  | space
  | number (signed : Bool)
  deriving DecidableEq

/-- `%u` -/
abbrev Directive.u : Directive := .number false

/-- `%d` -/
abbrev Directive.d : Directive := .number true

def scanf : List Directive → List Char → List (BitVec 32) × List Char
  | [], s => ([], s)
  | .space :: format, s => scanf format (skipSpace s)
  | .number signed :: format, s =>
    match scanNumber s with
    | (none, s) => ([], s)
    | (some (neg, n), s) =>
      let (vals, s) := scanf format s
      (convert signed neg n :: vals, s)

def scanString (s : List Char) : Option (List Char × List Char) :=
  match (skipSpace s).takeWhile (!isspace ·) with
  | [] => none
  | word => some (word, (skipSpace s).dropWhile (!isspace ·))

def takeLine : Nat → List Char → List Char × List Char
  | 0, s => ([], s)
  | _ + 1, [] => ([], [])
  | n + 1, c :: s =>
    if c = '\n' then ([c], s)
    else
      let (line, rest) := takeLine n s
      (c :: line, rest)

/-- `fgets`, with `none` for `NULL` at the end of the file. -/
def fgets (size : Nat) (s : List Char) : Option (List Char × List Char) :=
  match takeLine (size - 1) s with
  | ([], _) => none
  | (line, rest) => some (line, rest)

def cstr (l : List Char) : List Char := l.takeWhile (· ≠ Char.ofNat 0)

/-- `n` written for `%u`. -/
def decimal (n : Nat) : List Char := Nat.toDigits 10 n

/-! ## White space -/

theorem skipSpace_of_not (hc : isspace c = false) : skipSpace (c :: s) = c :: s := by
  rw [skipSpace, List.dropWhile_cons_of_neg (by simp [hc])]

theorem skipSpace_cons (hc : isspace c = true) : skipSpace (c :: s) = skipSpace s := by
  rw [skipSpace, List.dropWhile_cons_of_pos hc, skipSpace]

@[simp] theorem skipSpace_skipSpace (s : List Char) : skipSpace (skipSpace s) = skipSpace s := by
  induction s with
  | nil => rfl
  | cons c s ih =>
    cases hc : isspace c with
    | true => rw [skipSpace_cons hc, ih]
    | false => rw [skipSpace_of_not hc, skipSpace_of_not hc]

theorem isspace_of_isDigit (hc : c.isDigit = true) : isspace c = false := by
  have h0 : 48 ≤ c.toNat := by
    simp only [Char.isDigit, Bool.and_eq_true, decide_eq_true_eq] at hc
    exact hc.1
  have hne : c ≠ ' ' := by
    rintro rfl
    exact absurd h0 (by decide)
  have hlt : ¬ c ≤ '\r' := fun hle => absurd (h0.trans hle) (by decide)
  simp [isspace, hne, hlt]

/-! ## Words -/

/-- No character of `rest` belongs to what stands before it: it is empty, or its first character does not meet `p`. -/
def Ends (p : Char → Bool) (rest : List Char) : Prop := ∀ c, rest.head? = some c → p c = false

theorem ends_nil (p : Char → Bool) : Ends p [] := fun _ h => by cases h

theorem ends_cons {p : Char → Bool} (hc : p c = false) : Ends p (c :: s) := fun _ h => by
  cases h
  exact hc

theorem Ends.takeWhile {p : Char → Bool} (hw : ∀ c ∈ w, p c = true) (hrest : Ends p rest) :
    (w ++ rest).takeWhile p = w ∧ (w ++ rest).dropWhile p = rest := by
  rw [List.takeWhile_append_of_pos hw, List.dropWhile_append_of_pos hw]
  cases rest with
  | nil => exact ⟨List.append_nil w, rfl⟩
  | cons c rest =>
    have hc := hrest c rfl
    rw [List.takeWhile_cons_of_neg (by simp [hc]), List.dropWhile_cons_of_neg (by simp [hc]), List.append_nil]
    exact ⟨rfl, rfl⟩

/-- A word is read up to white space or the end of the file. -/
theorem scanString_word (hs : skipSpace s = w ++ rest) (hne : w ≠ []) (hw : ∀ c ∈ w, isspace c = false)
    (hrest : Ends (!isspace ·) rest) : scanString s = some (w, rest) := by
  obtain ⟨htake, hdrop⟩ := Ends.takeWhile (p := (!isspace ·)) (fun c hc => by rw [hw c hc]; rfl) hrest
  unfold scanString
  rw [hs, htake, hdrop]
  cases w with
  | nil => exact absurd rfl hne
  | cons => rfl

/-! ## Numbers -/

theorem decimal_ne_nil (n : Nat) : decimal n ≠ [] := Nat.toDigits_ne_nil

theorem isDigit_of_mem_decimal (hc : c ∈ decimal n) : c.isDigit = true :=
  Nat.isDigit_of_mem_toDigits (by decide) (by decide) hc

theorem ofDigitChars_decimal (n : Nat) : Nat.ofDigitChars 10 (decimal n) 0 = n := Nat.ofDigitChars_ten_toDigits

theorem scanSign_of_isDigit (hc : c.isDigit = true) : scanSign (c :: s) = (false, c :: s) := by
  have hminus : c ≠ '-' := fun h => by
    rw [h] at hc
    exact absurd hc (by decide)
  have hplus : c ≠ '+' := fun h => by
    rw [h] at hc
    exact absurd hc (by decide)
  rw [scanSign, if_neg hminus, if_neg hplus]

/-- A number is read up to a character that is no digit. -/
theorem scanNumber_decimal (hs : skipSpace s = decimal n ++ rest) (hrest : Ends Char.isDigit rest) :
    scanNumber s = (some (false, n), rest) := by
  obtain ⟨htake, hdrop⟩ := Ends.takeWhile (fun c hc => isDigit_of_mem_decimal hc) hrest
  obtain ⟨c, l, hl⟩ := List.exists_cons_of_ne_nil (decimal_ne_nil n)
  have hsign : scanSign (decimal n ++ rest) = (false, decimal n ++ rest) := by
    rw [hl]
    exact scanSign_of_isDigit (isDigit_of_mem_decimal (by rw [hl]; exact List.mem_cons_self))
  unfold scanNumber
  rw [hs, hsign]
  dsimp only
  rw [htake, hdrop, if_neg (decimal_ne_nil n), ofDigitChars_decimal]

theorem skipSpace_decimal (n : Nat) (rest : List Char) : skipSpace (decimal n ++ rest) = decimal n ++ rest := by
  obtain ⟨c, l, hl⟩ := List.exists_cons_of_ne_nil (decimal_ne_nil n)
  rw [hl]
  exact skipSpace_of_not (isspace_of_isDigit (isDigit_of_mem_decimal (n := n) (by rw [hl]; exact List.mem_cons_self)))

theorem convert_unsigned (hn : n < 18446744073709551616) : convert false false n = BitVec.ofNat 32 n := by
  simp [convert, hn]

theorem convert_of_lt (signed : Bool) (hn : n < 4294967296) : convert signed false n = BitVec.ofNat 32 n := by
  cases signed with
  | false => exact convert_unsigned (by omega)
  | true =>
    have hmin : min 9223372036854775807 (n : Int) = n := by omega
    simp [convert, hmin]

/-! ## Formats -/

def args (vals : List Nat) : List Char := vals.flatMap fun n => ' ' :: decimal n

def numbers (format : List Directive) : Nat := format.countP (· ≠ .space)

theorem ends_args (vals : List Nat) (hrest : Ends Char.isDigit rest) : Ends Char.isDigit (args vals ++ rest) := by
  cases vals with
  | nil => exact hrest
  | cons => exact ends_cons (by decide)

theorem skipSpace_args (n : Nat) (vals : List Nat) (rest : List Char) :
    skipSpace (args (n :: vals) ++ rest) = decimal n ++ (args vals ++ rest) := by
  have happend : args (n :: vals) ++ rest = ' ' :: (decimal n ++ (args vals ++ rest)) := by
    simp [args]
  rw [happend, skipSpace_cons (by decide), skipSpace_decimal]

/-- The numbers of a line are read by every format that asks for as many. -/
theorem scanf_args (format : List Directive) (vals : List Nat) (hcount : numbers format = vals.length)
    (hvals : ∀ n ∈ vals, n < 4294967296) (hrest : Ends Char.isDigit rest)
    (hs : skipSpace s = skipSpace (args vals ++ rest)) :
    (scanf format s).1 = vals.map (BitVec.ofNat 32) ∧ skipSpace (scanf format s).2 = skipSpace rest := by
  induction format generalizing vals s with
  | nil =>
    cases List.length_eq_zero_iff.mp hcount.symm
    exact ⟨rfl, hs⟩
  | cons directive format ih =>
    cases directive with
    | space => exact ih vals hcount hvals (by rw [skipSpace_skipSpace]; exact hs)
    | number signed =>
      cases vals with
      | nil => simp [numbers] at hcount
      | cons n vals =>
        rw [List.forall_mem_cons] at hvals
        rw [skipSpace_args] at hs
        have hnumber := scanNumber_decimal hs (ends_args vals hrest)
        have hcount : numbers format = vals.length := by
          simpa [numbers] using hcount
        obtain ⟨hvals', hleft⟩ := ih vals hcount hvals.2 rfl
        rw [scanf, hnumber]
        dsimp only
        rw [hvals', convert_of_lt signed hvals.1]
        exact ⟨rfl, hleft⟩

/-! ## Lines -/

theorem takeLine_line (hl : '\n' ∉ l) (hn : l.length < n) : takeLine n (l ++ '\n' :: rest) = (l ++ ['\n'], rest) := by
  induction l generalizing n with
  | nil =>
    cases n with
    | zero => exact absurd hn (Nat.not_lt_zero _)
    | succ n => rfl
  | cons c l ih =>
    cases n with
    | zero => exact absurd hn (Nat.not_lt_zero _)
    | succ n =>
      rw [List.mem_cons, not_or] at hl
      rw [List.cons_append, takeLine, if_neg (Ne.symm hl.1), ih hl.2 (Nat.lt_of_succ_lt_succ hn)]
      rfl

theorem takeLine_end (hl : '\n' ∉ l) (hn : l.length ≤ n) : takeLine n l = (l, []) := by
  induction l generalizing n with
  | nil => cases n <;> rfl
  | cons c l ih =>
    cases n with
    | zero => exact absurd hn (Nat.not_succ_le_zero _)
    | succ n =>
      rw [List.mem_cons, not_or] at hl
      rw [takeLine, if_neg (Ne.symm hl.1), ih hl.2 (Nat.le_of_succ_le_succ hn)]

theorem cstr_of_not_mem (hl : Char.ofNat 0 ∉ l) : cstr l = l := by
  rw [cstr, List.takeWhile_eq_self_iff]
  intro c hc
  rw [decide_eq_true_eq]
  rintro rfl
  exact hl hc

end SimpleOs.Scanf
