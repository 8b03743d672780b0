import Mathlib.Algebra.Group.Int.Defs
import Mathlib.Algebra.Group.Nat.Defs
import Mathlib.Order.Basic
import Mathlib.Tactic.Tauto

/-!
# Page table entries and addresses

The macros of `bitops.h` and `mm.h` on 32-bit words, and the two entry encoders of `mm.c`.

* `pteSetFpn`, `pteSetSwap` : an entry is given a RAM frame or a swap frame;
* `pagingFpn`, `pagingPteSwp` : the frame fields; `pagingPgn`, `pagingOffst` : page and offset of an
  address;
* `InRam`, `Swapped` : the two states of a present entry; `ramFrame`, `swpFrame` : the frame an entry
  names in each of them;
* `ramFrame_setFpn`, `swpFrame_setSwap` : the encoders against the decoders;
* `pagingPgn_eq`, `pagingOffst_eq` : the address macros as arithmetic.
-/

namespace SimpleOs.Mm

/-- A `uint32_t`. -/
abbrev Word := BitVec 32

def BITS_PER_LONG : Nat := 32

/-- `BIT(nr)` -/
def bit (nr : Nat) : Word := 1#32 <<< nr

/-- `GENMASK(h, l)` -/
def genmask (h l : Nat) : Word := (BitVec.allOnes 32 <<< l) &&& (BitVec.allOnes 32 >>> (BITS_PER_LONG - h - 1))

def setbit (v mask : Word) : Word := v ||| mask

def clrbit (v mask : Word) : Word := v &&& ~~~mask

def setval (v value mask : Word) (offst : Nat) : Word := (v &&& ~~~mask) ||| ((value <<< offst) &&& mask)

def getval (v mask : Word) (offst : Nat) : Word := (v &&& mask) >>> offst

def PAGING_CPU_BUS_WIDTH : Nat := 22
def PAGING_PAGESZ : Nat := 256
def PAGING_MAX_PGN : Nat := (2 ^ PAGING_CPU_BUS_WIDTH + PAGING_PAGESZ - 1) / PAGING_PAGESZ

def PAGING_PTE_PRESENT_MASK : Word := bit 31
def PAGING_PTE_SWAPPED_MASK : Word := bit 30
def PAGING_PTE_FPN_LOBIT : Nat := 0
def PAGING_PTE_FPN_MASK : Word := genmask 12 PAGING_PTE_FPN_LOBIT
def PAGING_PTE_SWPTYP_LOBIT : Nat := 0
def PAGING_PTE_SWPTYP_MASK : Word := genmask 4 PAGING_PTE_SWPTYP_LOBIT
def PAGING_PTE_SWPOFF_LOBIT : Nat := 5
def PAGING_PTE_SWPOFF_MASK : Word := genmask 25 PAGING_PTE_SWPOFF_LOBIT
def PAGING_SWPFPN_OFFSET : Nat := 5
/-- `NBITS(PAGING_PAGESZ)` -/
def PAGING_ADDR_PGN_LOBIT : Nat := 8
def PAGING_ADDR_FPN_LOBIT : Nat := 8
def PAGING_PGN_MASK : Word := genmask (PAGING_CPU_BUS_WIDTH - 1) PAGING_ADDR_PGN_LOBIT
def PAGING_OFFST_MASK : Word := genmask (PAGING_ADDR_PGN_LOBIT - 1) 0

def pagingPagePresent (pte : Word) : Bool := pte &&& PAGING_PTE_PRESENT_MASK != 0#32

/-- `PAGING_FPN(x)`, also `PAGING_PTE_FPN(pte)` -/
def pagingFpn (pte : Word) : Nat := (getval pte PAGING_PTE_FPN_MASK PAGING_PTE_FPN_LOBIT).toNat

def pagingPteSwp (pte : Word) : Nat := (getval pte PAGING_PTE_SWPOFF_MASK PAGING_SWPFPN_OFFSET).toNat

def pagingPgn (x : Int) : Nat := (getval (BitVec.ofInt 32 x) PAGING_PGN_MASK PAGING_ADDR_PGN_LOBIT).toNat

def pagingOffst (x : Int) : Nat := (getval (BitVec.ofInt 32 x) PAGING_OFFST_MASK 0).toNat

def pteSetSwap (pte : Word) (swptyp swpoff : Nat) : Word :=
  let pte := setbit pte PAGING_PTE_PRESENT_MASK
  let pte := setbit pte PAGING_PTE_SWAPPED_MASK
  let pte := setval pte (BitVec.ofNat 32 swptyp) PAGING_PTE_SWPTYP_MASK PAGING_PTE_SWPTYP_LOBIT
  setval pte (BitVec.ofNat 32 swpoff) PAGING_PTE_SWPOFF_MASK PAGING_PTE_SWPOFF_LOBIT

def pteSetFpn (pte : Word) (fpn : Nat) : Word :=
  let pte := setbit pte PAGING_PTE_PRESENT_MASK
  let pte := clrbit pte PAGING_PTE_SWAPPED_MASK
  setval pte (BitVec.ofNat 32 fpn) PAGING_PTE_FPN_MASK PAGING_PTE_FPN_LOBIT

/-! ## What an entry says -/

/-- The entry marks its page as held in RAM. -/
def InRam (pte : Word) : Prop :=
  pagingPagePresent pte = true ∧ pte &&& PAGING_PTE_SWAPPED_MASK = 0#32

/-- The entry marks its page as swapped. -/
def Swapped (pte : Word) : Prop :=
  pagingPagePresent pte = true ∧ pte &&& PAGING_PTE_SWAPPED_MASK ≠ 0#32

instance (pte : Word) : Decidable (InRam pte) := inferInstanceAs (Decidable (_ ∧ _))
instance (pte : Word) : Decidable (Swapped pte) := inferInstanceAs (Decidable (_ ∧ _))

/-- The RAM frame named by an entry that marks its page as held in RAM. -/
def ramFrame (pte : Word) : Option Nat := if InRam pte then some (pagingFpn pte) else none

/-- The swap frame named by an entry that marks its page as swapped. -/
def swpFrame (pte : Word) : Option Nat := if Swapped pte then some (pagingPteSwp pte) else none

/-! ## Single bits -/

theorem getLsbD_bit (nr i : Nat) : (bit nr).getLsbD i = decide (i < 32 ∧ i = nr) := by
  unfold bit
  rw [BitVec.getLsbD_shiftLeft, BitVec.getLsbD_one]
  by_cases h : i < 32 <;> by_cases h' : i = nr <;> simp [h, h'] ; omega

theorem getLsbD_genmask {h l : Nat} (hh : h < 32) (i : Nat) :
    (genmask h l).getLsbD i = decide (l ≤ i ∧ i ≤ h) := by
  unfold genmask BITS_PER_LONG
  rw [BitVec.getLsbD_and, BitVec.getLsbD_shiftLeft, BitVec.getLsbD_ushiftRight,
    BitVec.getLsbD_allOnes, BitVec.getLsbD_allOnes]
  by_cases h₁ : l ≤ i <;> by_cases h₂ : i ≤ h <;> simp [h₁, h₂] <;> omega

theorem getLsbD_getval {h l : Nat} (hh : h < 32) (v : Word) (i : Nat) :
    (getval v (genmask h l) l).getLsbD i = (v.getLsbD (l + i) && decide (l + i ≤ h)) := by
  unfold getval
  rw [BitVec.getLsbD_ushiftRight, BitVec.getLsbD_and, getLsbD_genmask hh]
  simp

theorem getLsbD_setval {h l : Nat} (hh : h < 32) (v value : Word) {i : Nat} (hi : i < 32) :
    (setval v value (genmask h l) l).getLsbD i =
      if l ≤ i ∧ i ≤ h then value.getLsbD (i - l) else v.getLsbD i := by
  unfold setval
  rw [BitVec.getLsbD_or, BitVec.getLsbD_and, BitVec.getLsbD_and, BitVec.getLsbD_not,
    BitVec.getLsbD_shiftLeft, getLsbD_genmask hh]
  by_cases h₁ : l ≤ i <;> by_cases h₂ : i ≤ h <;> simp [h₁, h₂, hi]

theorem getLsbD_setbit (v : Word) (nr i : Nat) :
    (setbit v (bit nr)).getLsbD i = (v.getLsbD i || decide (i < 32 ∧ i = nr)) := by
  rw [setbit, BitVec.getLsbD_or, getLsbD_bit]

theorem getLsbD_clrbit (v : Word) (nr i : Nat) :
    (clrbit v (bit nr)).getLsbD i = (v.getLsbD i && decide (i ≠ nr)) := by
  rw [clrbit, BitVec.getLsbD_and, BitVec.getLsbD_not, getLsbD_bit]
  by_cases h : i < 32
  · simp [h]
  · simp [BitVec.getLsbD_of_ge v i (by omega)]

theorem and_bit_eq_zero (v : Word) {nr : Nat} (hnr : nr < 32) :
    v &&& bit nr = 0#32 ↔ v.getLsbD nr = false := by
  constructor
  · intro h
    have hbit : (v &&& bit nr).getLsbD nr = (0#32).getLsbD nr := by rw [h]
    rw [BitVec.getLsbD_and, getLsbD_bit, BitVec.getLsbD_zero] at hbit
    simpa only [hnr, true_and, decide_true, Bool.and_true] using hbit
  · intro h
    apply BitVec.eq_of_getLsbD_eq
    intro i hi
    rw [BitVec.getLsbD_and, getLsbD_bit]
    by_cases hin : i = nr
    · simp [hin, h]
    · simp [hin]

theorem pagingPagePresent_eq (pte : Word) : pagingPagePresent pte = pte.getLsbD 31 := by
  unfold pagingPagePresent PAGING_PTE_PRESENT_MASK
  rw [Bool.eq_iff_iff, bne_iff_ne, Ne, and_bit_eq_zero pte (by decide), Bool.not_eq_false]

theorem inRam_iff (pte : Word) : InRam pte ↔ pte.getLsbD 31 = true ∧ pte.getLsbD 30 = false := by
  unfold InRam PAGING_PTE_SWAPPED_MASK
  rw [pagingPagePresent_eq, and_bit_eq_zero pte (by decide)]

theorem swapped_iff (pte : Word) : Swapped pte ↔ pte.getLsbD 31 = true ∧ pte.getLsbD 30 = true := by
  unfold Swapped PAGING_PTE_SWAPPED_MASK
  rw [pagingPagePresent_eq, Ne, and_bit_eq_zero pte (by decide), Bool.not_eq_false]

/-! ## The encoders bit by bit -/

theorem getLsbD_pteSetFpn (pte : Word) (fpn : Nat) {i : Nat} (hi : i < 32) :
    (pteSetFpn pte fpn).getLsbD i =
      if i ≤ 12 then fpn.testBit i else if i = 30 then false else if i = 31 then true else pte.getLsbD i := by
  unfold pteSetFpn PAGING_PTE_FPN_MASK PAGING_PTE_PRESENT_MASK PAGING_PTE_SWAPPED_MASK PAGING_PTE_FPN_LOBIT
  rw [getLsbD_setval (by decide) _ _ hi, getLsbD_clrbit, getLsbD_setbit, BitVec.getLsbD_ofNat]
  by_cases h₁ : i ≤ 12
  · simp [h₁]; omega
  · by_cases h₂ : i = 30
    · simp [h₂]
    · by_cases h₃ : i = 31 <;> simp [h₁, h₂, h₃]

theorem getLsbD_pteSetSwap (pte : Word) (swptyp swpoff : Nat) {i : Nat} (hi : i < 32) :
    (pteSetSwap pte swptyp swpoff).getLsbD i =
      if i ≤ 4 then swptyp.testBit i else if i ≤ 25 then swpoff.testBit (i - 5)
      else if i = 30 ∨ i = 31 then true else pte.getLsbD i := by
  unfold pteSetSwap PAGING_PTE_SWPTYP_MASK PAGING_PTE_SWPOFF_MASK PAGING_PTE_PRESENT_MASK
    PAGING_PTE_SWAPPED_MASK PAGING_PTE_SWPTYP_LOBIT PAGING_PTE_SWPOFF_LOBIT
  rw [getLsbD_setval (by decide) _ _ hi, getLsbD_setval (by decide) _ _ hi, getLsbD_setbit,
    getLsbD_setbit, BitVec.getLsbD_ofNat, BitVec.getLsbD_ofNat]
  by_cases h₁ : i ≤ 4
  · simp [h₁, show ¬ 5 ≤ i by omega]; omega
  · by_cases h₂ : i ≤ 25
    · simp [h₁, h₂, show 5 ≤ i by omega]; omega
    · by_cases h₃ : i = 30
      · simp [h₃]
      · by_cases h₄ : i = 31 <;> simp [h₁, h₂, h₃, h₄]

/-! ## The fields as arithmetic -/

theorem toNat_getval {h l : Nat} (hh : h < 32) (hl : l ≤ h) (v : Word) :
    (getval v (genmask h l) l).toNat = v.toNat / 2 ^ l % 2 ^ (h + 1 - l) := by
  apply Nat.eq_of_testBit_eq
  intro i
  rw [BitVec.testBit_toNat, getLsbD_getval hh, Nat.testBit_mod_two_pow, Nat.testBit_div_two_pow,
    BitVec.testBit_toNat, Bool.and_comm, Nat.add_comm i l]
  congr 1
  rw [decide_eq_decide]
  omega

theorem pagingFpn_eq (pte : Word) : pagingFpn pte = pte.toNat % 2 ^ 13 := by
  unfold pagingFpn PAGING_PTE_FPN_MASK PAGING_PTE_FPN_LOBIT
  rw [toNat_getval (by decide) (by decide), Nat.pow_zero, Nat.div_one]

theorem pagingPteSwp_eq (pte : Word) : pagingPteSwp pte = pte.toNat / 2 ^ 5 % 2 ^ 21 := by
  unfold pagingPteSwp PAGING_PTE_SWPOFF_MASK PAGING_SWPFPN_OFFSET PAGING_PTE_SWPOFF_LOBIT
  rw [toNat_getval (by decide) (by decide)]

theorem pagingPgn_eq (x : Int) : (pagingPgn x : Int) = x / 256 % 16384 := by
  unfold pagingPgn PAGING_PGN_MASK PAGING_ADDR_PGN_LOBIT PAGING_CPU_BUS_WIDTH
  rw [toNat_getval (by decide) (by decide), BitVec.toNat_ofInt]
  omega

theorem pagingOffst_eq (x : Int) : (pagingOffst x : Int) = x % 256 := by
  unfold pagingOffst PAGING_OFFST_MASK PAGING_ADDR_PGN_LOBIT
  rw [toNat_getval (by decide) (by decide), BitVec.toNat_ofInt]
  omega

/-! ## The encoders against the decoders -/

theorem pagingFpn_setFpn (pte : Word) (fpn : Nat) : pagingFpn (pteSetFpn pte fpn) = fpn % 2 ^ 13 := by
  apply Nat.eq_of_testBit_eq
  intro i
  rw [pagingFpn_eq, Nat.testBit_mod_two_pow, Nat.testBit_mod_two_pow, BitVec.testBit_toNat]
  by_cases hi : i < 13
  · rw [getLsbD_pteSetFpn pte fpn (by omega), if_pos (by omega)]
  · simp [hi]

theorem pagingPteSwp_setSwap (pte : Word) (swptyp swpoff : Nat) :
    pagingPteSwp (pteSetSwap pte swptyp swpoff) = swpoff % 2 ^ 21 := by
  apply Nat.eq_of_testBit_eq
  intro i
  rw [pagingPteSwp_eq, Nat.testBit_mod_two_pow, Nat.testBit_mod_two_pow, Nat.testBit_div_two_pow,
    BitVec.testBit_toNat]
  by_cases hi : i < 21
  · rw [getLsbD_pteSetSwap pte swptyp swpoff (by omega), if_neg (by omega), if_pos (by omega),
      Nat.add_sub_cancel]
  · simp [hi]

theorem inRam_setFpn (pte : Word) (fpn : Nat) : InRam (pteSetFpn pte fpn) := by
  rw [inRam_iff, getLsbD_pteSetFpn _ _ (by decide), getLsbD_pteSetFpn _ _ (by decide)]
  simp

theorem swapped_setSwap (pte : Word) (swptyp swpoff : Nat) : Swapped (pteSetSwap pte swptyp swpoff) := by
  rw [swapped_iff, getLsbD_pteSetSwap _ _ _ (by decide), getLsbD_pteSetSwap _ _ _ (by decide)]
  simp

theorem not_inRam_of_swapped {pte : Word} (h : Swapped pte) : ¬ InRam pte := fun h' => h.2 h'.2

theorem present_iff (pte : Word) : pagingPagePresent pte = true ↔ InRam pte ∨ Swapped pte := by
  unfold InRam Swapped
  tauto

@[simp] theorem ramFrame_setFpn (pte : Word) (fpn : Nat) :
    ramFrame (pteSetFpn pte fpn) = some (fpn % 2 ^ 13) := by
  rw [ramFrame, if_pos (inRam_setFpn pte fpn), pagingFpn_setFpn]

@[simp] theorem ramFrame_setSwap (pte : Word) (swptyp swpoff : Nat) :
    ramFrame (pteSetSwap pte swptyp swpoff) = none :=
  if_neg (not_inRam_of_swapped (swapped_setSwap pte swptyp swpoff))

@[simp] theorem swpFrame_setSwap (pte : Word) (swptyp swpoff : Nat) :
    swpFrame (pteSetSwap pte swptyp swpoff) = some (swpoff % 2 ^ 21) := by
  rw [swpFrame, if_pos (swapped_setSwap pte swptyp swpoff), pagingPteSwp_setSwap]

@[simp] theorem swpFrame_setFpn (pte : Word) (fpn : Nat) : swpFrame (pteSetFpn pte fpn) = none :=
  if_neg fun h => not_inRam_of_swapped h (inRam_setFpn pte fpn)

theorem ramFrame_eq_some {pte : Word} {f : Nat} : ramFrame pte = some f ↔ InRam pte ∧ pagingFpn pte = f := by
  unfold ramFrame
  split <;> simp_all

theorem frames_of_not_present {pte : Word} (h : pagingPagePresent pte = false) :
    ramFrame pte = none ∧ swpFrame pte = none := by
  have h₁ : ¬ InRam pte := fun h' => by rw [h'.1] at h; cases h
  have h₂ : ¬ Swapped pte := fun h' => by rw [h'.1] at h; cases h
  exact ⟨if_neg h₁, if_neg h₂⟩

end SimpleOs.Mm
