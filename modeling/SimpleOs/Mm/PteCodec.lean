import SimpleOs.Mm.Pte

/-!
# The two codings of a page table entry

* `PteCall`, `pteCalls` : an entry after any calls of `pte_set_fpn` and `pte_set_swap`;
* `pteSwptyp`, `pagingSwp` : the decoders beside `pagingFpn` and `pagingPteSwp`;
* `pteCalls_reserved` : the bits no call changes; `pteCodec` : what is decoded after a call, whatever was in the entry.
-/

namespace SimpleOs.Mm

def pagingSwp (pte : Word) : Nat := ((pte &&& PAGING_PTE_SWPOFF_MASK) >>> PAGING_SWPFPN_OFFSET).toNat

/-- The field of `pte` that `pte_set_swap` sets to `swptyp`. -/
def pteSwptyp (pte : Word) : Nat := (getval pte PAGING_PTE_SWPTYP_MASK PAGING_PTE_SWPTYP_LOBIT).toNat

inductive PteCall
  | setFpn (fpn : Nat)
  | setSwap (swptyp swpoff : Nat)
  deriving DecidableEq

def pteCall (pte : Word) : PteCall → Word
  | .setFpn fpn => pteSetFpn pte fpn
  | .setSwap swptyp swpoff => pteSetSwap pte swptyp swpoff

def pteCalls (pte : Word) (calls : List PteCall) : Word := calls.foldl pteCall pte

variable {pte : Word} {calls : List PteCall} {call : PteCall} {fpn swptyp swpoff i : Nat}

theorem pteCalls_concat (pte : Word) (calls : List PteCall) (call : PteCall) :
    pteCalls pte (calls ++ [call]) = pteCall (pteCalls pte calls) call := by
  unfold pteCalls
  rw [List.foldl_append, List.foldl_cons, List.foldl_nil]

/-! ## What a call leaves -/

theorem getLsbD_pteSetFpn_kept (pte : Word) (fpn : Nat) (h₁ : 13 ≤ i) (h₂ : i ≤ 29) :
    (pteSetFpn pte fpn).getLsbD i = pte.getLsbD i := by
  rw [getLsbD_pteSetFpn pte fpn (by omega), if_neg (by omega), if_neg (by omega), if_neg (by omega)]

theorem getLsbD_pteSetSwap_kept (pte : Word) (swptyp swpoff : Nat) (h₁ : 26 ≤ i) (h₂ : i ≤ 29) :
    (pteSetSwap pte swptyp swpoff).getLsbD i = pte.getLsbD i := by
  rw [getLsbD_pteSetSwap pte swptyp swpoff (by omega), if_neg (by omega), if_neg (by omega), if_neg (by omega)]

theorem pteCall_reserved (pte : Word) (call : PteCall) (h₁ : 26 ≤ i) (h₂ : i ≤ 29) :
    (pteCall pte call).getLsbD i = pte.getLsbD i := by
  cases call with
  | setFpn fpn => exact getLsbD_pteSetFpn_kept pte fpn (by omega) h₂
  | setSwap swptyp swpoff => exact getLsbD_pteSetSwap_kept pte swptyp swpoff h₁ h₂

/-- Bits 26 to 29 are never changed. -/
theorem pteCalls_reserved (pte : Word) (calls : List PteCall) (h₁ : 26 ≤ i) (h₂ : i ≤ 29) :
    (pteCalls pte calls).getLsbD i = pte.getLsbD i := by
  induction calls generalizing pte with
  | nil => rfl
  | cons call calls ih =>
    show (pteCalls (pteCall pte call) calls).getLsbD i = _
    rw [ih, pteCall_reserved pte call h₁ h₂]

/-! ## The decoders -/

theorem pagingSwp_eq (pte : Word) : pagingSwp pte = pagingPteSwp pte := rfl

theorem pteSwptyp_setSwap (pte : Word) (swptyp swpoff : Nat) :
    pteSwptyp (pteSetSwap pte swptyp swpoff) = swptyp % 2 ^ 5 := by
  unfold pteSwptyp PAGING_PTE_SWPTYP_MASK PAGING_PTE_SWPTYP_LOBIT
  rw [toNat_getval (by decide) (by decide), Nat.pow_zero, Nat.div_one]
  apply Nat.eq_of_testBit_eq
  intro i
  rw [Nat.testBit_mod_two_pow, Nat.testBit_mod_two_pow, BitVec.testBit_toNat]
  by_cases hi : i < 5
  · rw [getLsbD_pteSetSwap pte swptyp swpoff (by omega), if_pos (by omega)]
  · simp [hi]

/-- After a call the entry is what the call made it: the flags, every field of the call, and no other bit. -/
structure PteCodec (pte : Word) (calls : List PteCall) : Prop where
  reserved : ∀ i, 26 ≤ i → i ≤ 29 → (pteCalls pte calls).getLsbD i = pte.getLsbD i
  setFpn : ∀ fpn < 2 ^ 13, InRam (pteCalls pte (calls ++ [.setFpn fpn])) ∧
    pagingFpn (pteCalls pte (calls ++ [.setFpn fpn])) = fpn ∧
    ∀ i, 13 ≤ i → i ≤ 29 → (pteCalls pte (calls ++ [.setFpn fpn])).getLsbD i = (pteCalls pte calls).getLsbD i
  setSwap : ∀ swptyp < 2 ^ 5, ∀ swpoff < 2 ^ 21, Swapped (pteCalls pte (calls ++ [.setSwap swptyp swpoff])) ∧
    pagingPteSwp (pteCalls pte (calls ++ [.setSwap swptyp swpoff])) = swpoff ∧
    pagingSwp (pteCalls pte (calls ++ [.setSwap swptyp swpoff])) = swpoff ∧
    pteSwptyp (pteCalls pte (calls ++ [.setSwap swptyp swpoff])) = swptyp

/-- The codec of page table entries: for every entry, after any calls. -/
theorem pteCodec (pte : Word) (calls : List PteCall) : PteCodec pte calls where
  reserved := fun i h₁ h₂ => pteCalls_reserved pte calls h₁ h₂
  setFpn := by
    intro fpn hfpn
    rw [pteCalls_concat]
    refine ⟨inRam_setFpn _ fpn, ?_, fun i h₁ h₂ => getLsbD_pteSetFpn_kept _ fpn h₁ h₂⟩
    exact (pagingFpn_setFpn _ fpn).trans (Nat.mod_eq_of_lt hfpn)
  setSwap := by
    intro swptyp htyp swpoff hoff
    rw [pteCalls_concat]
    have hswp : pagingPteSwp (pteSetSwap (pteCalls pte calls) swptyp swpoff) = swpoff :=
      (pagingPteSwp_setSwap _ swptyp swpoff).trans (Nat.mod_eq_of_lt hoff)
    refine ⟨swapped_setSwap _ swptyp swpoff, hswp, (pagingSwp_eq _).trans hswp, ?_⟩
    exact (pteSwptyp_setSwap _ swptyp swpoff).trans (Nat.mod_eq_of_lt htyp)

/-- Entries that differ before are decoded alike after a call. -/
example : pagingFpn (pteCalls 0xFFFFFFFF [.setSwap 3 5, .setFpn 9]) = 9 := by decide

end SimpleOs.Mm
