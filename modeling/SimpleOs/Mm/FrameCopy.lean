import SimpleOs.Mm.Frames

/-!
# Copying a frame (`__swap_cp_page`)

* `FrameCopied` : one frame has the bytes another had, on the same device or on two, and nothing else has changed;
* `copyFrame_copied` : a copied frame is one; `FrameCopied.agree` : copies of equal frames are equal;
* `swapCpPage_copies` : every copy inside the devices.
-/

namespace SimpleOs.Mm

variable {ι : Type} {dev dev' : ι → MemphyStruct} {src dst : ι} {a b : Nat}

/-- Frame `b` of `dst` holds what frame `a` of `src` held. -/
structure FrameCopied (dev : ι → MemphyStruct) (src : ι) (a : Nat) (dst : ι) (b : Nat) (dev' : ι → MemphyStruct) :
    Prop where
  copied : ∀ x < PAGING_PAGESZ,
    (dev' dst).storage (b * PAGING_PAGESZ + x) = (dev src).storage (a * PAGING_PAGESZ + x)
  frame : ∀ d x, ¬ (d = dst ∧ x / PAGING_PAGESZ = b) → (dev' d).storage x = (dev d).storage x
  free : ∀ d, (dev' d).freeFpList = (dev d).freeFpList
  size : ∀ d, (dev' d).maxsz = (dev d).maxsz ∧ (dev' d).rdmflg = (dev d).rdmflg

theorem cell_mod_pagesz (b : Nat) {x : Nat} (hx : x < PAGING_PAGESZ) :
    (b * PAGING_PAGESZ + x) / PAGING_PAGESZ = b ∧ (b * PAGING_PAGESZ + x) % PAGING_PAGESZ = x := by
  unfold PAGING_PAGESZ at *
  omega

theorem copyFrame_copied [DecidableEq ι] (dev : ι → MemphyStruct) (src : ι) (a : Nat) (dst : ι) (b : Nat) :
    FrameCopied dev src a dst b
      (Function.update dev dst { dev dst with storage := copyFrame (dev src).storage a (dev dst).storage b }) where
  copied := by
    intro x hx
    obtain ⟨hdiv, hmod⟩ := cell_mod_pagesz b hx
    rw [Function.update_self]
    show copyFrame _ _ _ _ _ = _
    rw [copyFrame_of_eq hdiv, hmod]
  frame := by
    intro d x hx
    by_cases hd : d = dst
    · subst hd
      rw [Function.update_self]
      exact copyFrame_of_ne fun hb => hx ⟨rfl, hb⟩
    · rw [Function.update_of_ne hd]
  free := by
    intro d
    by_cases hd : d = dst
    · rw [hd, Function.update_self]
    · rw [Function.update_of_ne hd]
  size := by
    intro d
    by_cases hd : d = dst
    · rw [hd, Function.update_self]
      exact ⟨rfl, rfl⟩
    · rw [Function.update_of_ne hd]
      exact ⟨rfl, rfl⟩

/-- Devices that agree in the bytes `S`, the source among them, agree in these bytes after both copies. -/
theorem FrameCopied.agree {e e' : ι → MemphyStruct} {S : ι → Nat → Prop} (h : FrameCopied dev src a dst b dev')
    (h' : FrameCopied e src a dst b e') (hsrc : ∀ x, x / PAGING_PAGESZ = a → S src x)
    (hagree : ∀ k x, S k x → (e k).storage x = (dev k).storage x) (k : ι) (x : Nat) (hx : S k x) :
    (e' k).storage x = (dev' k).storage x := by
  by_cases hin : k = dst ∧ x / PAGING_PAGESZ = b
  · obtain ⟨rfl, rfl⟩ := hin
    have hcell : x % PAGING_PAGESZ < PAGING_PAGESZ := Nat.mod_lt _ (by decide)
    have hpos : x / PAGING_PAGESZ * PAGING_PAGESZ + x % PAGING_PAGESZ = x := Nat.div_add_mod' ..
    have hnew := h.copied _ hcell
    have hnew' := h'.copied _ hcell
    rw [hpos] at hnew hnew'
    rw [hnew, hnew']
    exact hagree _ _ (hsrc _ (cell_mod_pagesz a hcell).1)
  · rw [h.frame k x hin, h'.frame k x hin]
    exact hagree k x hx

/-- A frame is copied by `__swap_cp_page`, between any two frames that lie inside their devices. -/
theorem swapCpPage_copies [DecidableEq ι] (hsrc : (dev src).rdmflg = true) (hdst : (dev dst).rdmflg = true)
    (hmax : (dev src).maxsz < 2 ^ 31) (hmax' : (dev dst).maxsz < 2 ^ 31)
    (ha : (a + 1) * PAGING_PAGESZ ≤ (dev src).maxsz) (hb : (b + 1) * PAGING_PAGESZ ≤ (dev dst).maxsz) :
    ∃ dev', swapCpPage dev src a dst b = .ok (0, dev') ∧ FrameCopied dev src a dst b dev' := by
  have ha₂₃ : a < 2 ^ 23 := by
    unfold PAGING_PAGESZ at ha
    omega
  have hb₂₃ : b < 2 ^ 23 := by
    unfold PAGING_PAGESZ at hb
    omega
  have hcopy := (swapCpPage_ok_iff src dst ha₂₃ hb₂₃ hsrc hdst).mpr ⟨⟨ha, hb⟩, rfl⟩
  exact ⟨_, hcopy, copyFrame_copied dev src a dst b⟩

/-- Frame 0 of a device copied over its frame 1. -/
theorem swapCpPage_copies_same :
    ∃ dev', swapCpPage (fun _ : Dev => initMemphy .zeroed 512 true) .mram 0 .mram 1 = .ok (0, dev') ∧
    FrameCopied (fun _ => initMemphy .zeroed 512 true) .mram 0 .mram 1 dev' :=
  swapCpPage_copies rfl rfl (by decide) (by decide) (by decide) (by decide)

end SimpleOs.Mm
