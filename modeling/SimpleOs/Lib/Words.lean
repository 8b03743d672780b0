import SimpleOs.Lib.Scanf

/-!
# Words of a text

Formatted input does not tell one piece of white space from another, so what it reads of a text is a matter of
the words in it.

* `words` : the words, however they are laid out; `words_cons` : where the first one stands;
* `convertLong` : `%lu` in 64 bits;
* `scanNumber_words`, `scanString_words`, `scanf_words` : a number, a word and a format of numbers take the first
  words; `scanNumber_not` : a word that does not start as a number is left where it is.
-/

namespace SimpleOs.Scanf

variable {s w : List Char} {c : Char} {l : List (List Char)} {n : Nat}

def words (s : List Char) : List (List Char) := (s.splitOnP isspace).filter (· ≠ [])

/-- The value of a number for `%lu` : `strtoul` negates modulo 2^64, and stops at the greatest value. -/
def convertLong (neg : Bool) (n : Nat) : BitVec 64 :=
  if n < 18446744073709551616 then BitVec.ofInt 64 (if neg then -n else n) else -1

/-! ## Layout -/

@[simp] theorem words_nil : words [] = [] := rfl

theorem words_space (hc : isspace c = true) (s : List Char) : words (c :: s) = words s := by
  unfold words
  rw [List.splitOnP_cons_eq_if_modifyHead, if_pos hc]
  exact List.filter_cons_of_neg (by simp)

theorem splitOnP_piece {p : Char → Bool} (s : List Char) : ∃ l, s.splitOnP p = s.takeWhile (!p ·) :: l ∧
    (s.dropWhile (!p ·)).splitOnP p = [] :: l := by
  induction s with
  | nil => exact ⟨[], rfl, rfl⟩
  | cons c s ih =>
    obtain ⟨l, hs, hrest⟩ := ih
    cases hc : p c with
    | true =>
      refine ⟨s.splitOnP p, ?_, ?_⟩
      · rw [List.splitOnP_cons_eq_if_modifyHead, if_pos hc, List.takeWhile_cons_of_neg (by simp [hc])]
      · rw [List.dropWhile_cons_of_neg (by simp [hc]), List.splitOnP_cons_eq_if_modifyHead, if_pos hc]
    | false =>
      refine ⟨l, ?_, ?_⟩
      · rw [List.splitOnP_cons_eq_if_modifyHead, if_neg (by simp [hc]), hs, List.takeWhile_cons_of_pos (by simp [hc])]
        rfl
      · rw [List.dropWhile_cons_of_pos (by simp [hc])]
        exact hrest

@[simp] theorem words_skipSpace (s : List Char) : words (skipSpace s) = words s := by
  induction s with
  | nil => rfl
  | cons c s ih =>
    cases hc : isspace c with
    | true => rw [skipSpace_cons hc, ih, words_space hc]
    | false => rw [skipSpace_of_not hc]

theorem words_of_not (hc : isspace c = false) (s : List Char) :
    words (c :: s) = (c :: s).takeWhile (!isspace ·) :: words ((c :: s).dropWhile (!isspace ·)) := by
  obtain ⟨l, hs, hrest⟩ := splitOnP_piece (p := isspace) (c :: s)
  unfold words
  rw [hs, hrest, List.filter_cons_of_pos]
  · rw [List.filter_cons_of_neg (by simp)]
  · rw [List.takeWhile_cons_of_pos (by simp [hc])]
    simp

/-- The first word stands behind white space, and ends where white space or the end of the text follows. -/
theorem words_cons (h : words s = w :: l) : ∃ rest, skipSpace s = w ++ rest ∧ w ≠ [] ∧ (∀ c ∈ w, isspace c = false) ∧
    Ends (!isspace ·) rest ∧ words rest = l := by
  rw [← words_skipSpace] at h
  cases hs : skipSpace s with
  | nil =>
    rw [hs] at h
    cases h
  | cons c t =>
    have hc : isspace c = false := by
      have hhead := List.head?_dropWhile_not isspace s
      rw [show s.dropWhile isspace = c :: t from hs] at hhead
      simpa using hhead
    rw [hs, words_of_not hc, List.cons.injEq] at h
    obtain ⟨rfl, hl⟩ := h
    refine ⟨(c :: t).dropWhile (!isspace ·), (List.takeWhile_append_dropWhile).symm, ?_, ?_, ?_, hl⟩
    · rw [List.takeWhile_cons_of_pos (by simp [hc])]
      exact List.cons_ne_nil _ _
    · intro d hd
      have hnot := List.mem_takeWhile_imp hd
      simpa using hnot
    · intro d hd
      have hnot := List.head?_dropWhile_not (!isspace ·) (c :: t)
      rw [hd] at hnot
      simpa using hnot

/-! ## Reading -/

/-- A word is read. -/
theorem scanString_words (h : words s = w :: l) : ∃ rest, scanString s = some (w, rest) ∧ words rest = l := by
  obtain ⟨rest, hs, hne, hw, hrest, hl⟩ := words_cons h
  exact ⟨rest, scanString_word hs hne hw hrest, hl⟩

theorem Ends.isDigit {rest : List Char} (h : Ends (!isspace ·) rest) : Ends Char.isDigit rest := by
  intro c hc
  have hspace : isspace c = true := by simpa using h c hc
  cases hd : c.isDigit with
  | false => rfl
  | true =>
    rw [isspace_of_isDigit hd] at hspace
    exact hspace.symm

/-- A number is read. -/
theorem scanNumber_words (h : words s = decimal n :: l) :
    ∃ rest, scanNumber s = (some (false, n), rest) ∧ words rest = l := by
  obtain ⟨rest, hs, -, -, hrest, hl⟩ := words_cons h
  exact ⟨rest, scanNumber_decimal hs hrest.isDigit, hl⟩

/-- A word that starts with neither a sign nor a digit. -/
def NoNumber (w : List Char) : Prop := ∃ c w', w = c :: w' ∧ c ≠ '-' ∧ c ≠ '+' ∧ c.isDigit = false

/-- A word that is no number is left where it is. -/
theorem scanNumber_not (h : words s = w :: l) (hw : NoNumber w) : scanNumber s = (none, skipSpace s) := by
  obtain ⟨c, w', rfl, hminus, hplus, hdigit⟩ := hw
  obtain ⟨rest, hs, -⟩ := words_cons h
  unfold scanNumber
  rw [hs, List.cons_append, scanSign, if_neg hminus, if_neg hplus]
  dsimp only
  rw [List.takeWhile_cons_of_neg (by simp [hdigit]), if_pos rfl]

/-- Numbers are read by every format that asks for as many. -/
theorem scanf_words (format : List Directive) (vals : List Nat) (hcount : numbers format = vals.length)
    (hvals : ∀ n ∈ vals, n < 4294967296) (h : words s = vals.map decimal ++ l) :
    ∃ rest, scanf format s = (vals.map (BitVec.ofNat 32), rest) ∧ words rest = l := by
  induction format generalizing vals s with
  | nil =>
    cases List.length_eq_zero_iff.mp hcount.symm
    exact ⟨s, rfl, h⟩
  | cons directive format ih =>
    cases directive with
    | space => exact ih vals hcount hvals (by rw [words_skipSpace]; exact h)
    | number signed =>
      cases vals with
      | nil => simp [numbers] at hcount
      | cons n vals =>
        rw [List.forall_mem_cons] at hvals
        have hcount : numbers format = vals.length := by
          simpa [numbers] using hcount
        obtain ⟨mid, hnumber, hmid⟩ := scanNumber_words h
        obtain ⟨rest, hscan, hrest⟩ := ih vals hcount hvals.2 hmid
        refine ⟨rest, ?_, hrest⟩
        rw [scanf, hnumber]
        dsimp only
        rw [hscan, convert_of_lt signed hvals.1]
        rfl

theorem scanf_not (signed : Bool) (format : List Directive) (h : words s = w :: l) (hw : NoNumber w) :
    scanf (.number signed :: format) s = ([], skipSpace s) := by
  rw [scanf, scanNumber_not h hw]

theorem convertLong_of_lt (hn : n < 18446744073709551616) : convertLong false n = BitVec.ofNat 64 n := by
  simp [convertLong, hn]

end SimpleOs.Scanf
