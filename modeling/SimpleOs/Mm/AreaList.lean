import Mathlib.Data.List.Pairwise
import SimpleOs.Mm.Vm

/-!
# The list of areas

* `VmAreaStruct.Shares`, `VmAreaStruct.Touches` : an area and a planned range with a byte in common, and without one
  but refused by the test of `validate_overlap_vm_area`;
* `overlapsVma_iff` : the test sees exactly these areas; `overlapExact_iff` : when the validation is exact;
* `AreaFound` : what a lookup by id has to return; `lookupExact_iff` : when `get_vma_by_num` returns it.
-/

namespace SimpleOs.Mm
open CInt

/-! ## Overlap -/

/-- Some byte of the range `[lo, hi)` lies in the range of the area. -/
def VmAreaStruct.Shares (a : VmAreaStruct) (lo hi : Nat) : Prop :=
  ∃ x, (lo ≤ x ∧ x < hi) ∧ a.vmStart ≤ x ∧ x < a.vmEnd

/-- The area ends where the range `[lo, hi)` starts, or starts where it ends. An area whose end lies below its start has
no bytes, and is in the way of every range around one of its bounds. -/
def VmAreaStruct.Touches (a : VmAreaStruct) (lo hi : Nat) : Prop :=
  a.vmStart ≠ a.vmEnd ∧ (a.vmEnd = lo ∨ a.vmStart = hi ∨ a.vmEnd < a.vmStart ∧ lo ≤ a.vmStart ∧ a.vmEnd ≤ hi)

/-- Overlap validation is exact: the planned range is accepted if and only if it shares no byte with an area that is
not empty. The bounds are those the code compares. -/
def OverlapExact (caller : Caller) (vmaid vmastart vmaend : Int) : Prop :=
  validateOverlapVmArea caller vmaid vmastart vmaend = 0 ↔
    ∀ a ∈ caller.mm.mmap, a.vmStart ≠ a.vmEnd → ¬ a.Shares (toULong vmastart) (toULong vmaend)

variable {a : VmAreaStruct} {lo hi : Nat} {l : List VmAreaStruct}

theorem VmAreaStruct.shares_iff (h : lo < hi) :
    a.Shares lo hi ↔ a.vmStart < a.vmEnd ∧ a.vmStart < hi ∧ lo < a.vmEnd := by
  constructor
  · rintro ⟨x, ⟨hlo, hhi⟩, hstart, hend⟩
    omega
  · rintro ⟨hne, hstart, hend⟩
    rcases Nat.le_total lo a.vmStart with hle | hle
    · exact ⟨a.vmStart, ⟨hle, hstart⟩, le_rfl, hne⟩
    · exact ⟨lo, ⟨le_rfl, h⟩, hle, hend⟩

theorem overlapsVma_iff (h : lo < hi) (hne : a.vmStart ≠ a.vmEnd) :
    overlapsVma a lo hi = true ↔ a.Shares lo hi ∨ a.Touches lo hi := by
  rw [VmAreaStruct.shares_iff h]
  simp only [overlapsVma, VmAreaStruct.Touches, Bool.or_eq_true, Bool.and_eq_true, decide_eq_true_eq]
  omega

theorem validateOverlapVmAreaLoop_eq_zero_iff (lo hi : Nat) (l : List VmAreaStruct) :
    validateOverlapVmAreaLoop lo hi l = 0 ↔ ∀ a ∈ l, a.vmStart ≠ a.vmEnd → ¬ overlapsVma a lo hi = true := by
  induction l with
  | nil => exact ⟨fun _ a ha => (List.not_mem_nil ha).elim, fun _ => rfl⟩
  | cons a l ih =>
    rw [validateOverlapVmAreaLoop, List.forall_mem_cons]
    by_cases he : a.vmStart = a.vmEnd
    · rw [if_pos he, ih]
      exact ⟨fun h => ⟨fun hne => absurd he hne, h⟩, fun h => h.2⟩
    · rw [if_neg he]
      by_cases ho : overlapsVma a lo hi = true
      · rw [if_pos ho]
        exact ⟨fun h => absurd h (by decide), fun h => absurd ho (h.1 he)⟩
      · rw [if_neg ho, ih]
        exact ⟨fun h => ⟨fun _ => ho, h⟩, fun h => h.2⟩

/-- Overlap validation is exact as long as no area merely touches the planned range, or some area overlaps it. -/
theorem overlapExact_iff {caller : Caller} {vmaid vmastart vmaend : Int} (h : toULong vmastart < toULong vmaend) :
    OverlapExact caller vmaid vmastart vmaend ↔
      (∃ a ∈ caller.mm.mmap, a.Shares (toULong vmastart) (toULong vmaend)) ∨
        ∀ a ∈ caller.mm.mmap, ¬ a.Touches (toULong vmastart) (toULong vmaend) := by
  unfold OverlapExact validateOverlapVmArea
  rw [validateOverlapVmAreaLoop_eq_zero_iff]
  constructor
  · intro hexact
    by_cases hshare : ∃ a ∈ caller.mm.mmap, a.Shares (toULong vmastart) (toULong vmaend)
    · exact .inl hshare
    · refine .inr fun a ha htouch => ?_
      have hnone := hexact.mpr fun a ha _ hs => hshare ⟨a, ha, hs⟩
      exact hnone a ha htouch.1 ((overlapsVma_iff h htouch.1).mpr (.inr htouch))
  · intro hcond
    constructor
    · intro hnone a ha hne hs
      exact hnone a ha hne ((overlapsVma_iff h hne).mpr (.inl hs))
    · intro hnone a ha hne ho
      rcases hcond with ⟨b, hb, hs⟩ | htouch
      · have hs' := (VmAreaStruct.shares_iff h).mp hs
        exact hnone b hb (by omega) hs
      · rcases (overlapsVma_iff h hne).mp ho with hs | ht
        · exact hnone a ha hne hs
        · exact htouch a ha ht

/-- A range behind the heap, with a hole between. -/
theorem overlapExact_iff_hole :
    OverlapExact ⟨{ initMm .zeroed with mmap := [⟨0, 0, 256, 256, []⟩] },
      fun _ => initMemphy .zeroed 0 true⟩ 0 512 768 ↔
      (∃ a ∈ [(⟨0, 0, 256, 256, []⟩ : VmAreaStruct)], a.Shares (toULong 512) (toULong 768)) ∨
        ∀ a ∈ [(⟨0, 0, 256, 256, []⟩ : VmAreaStruct)], ¬ a.Touches (toULong 512) (toULong 768) :=
  overlapExact_iff (by decide)

/-- An area that ends at 256, and a heap that grows from there. -/
theorem touching_refused : ¬ ∀ (caller : Caller) (vmaid vmastart vmaend : Int), toULong vmastart < toULong vmaend →
    OverlapExact caller vmaid vmastart vmaend := by
  intro hall
  have hexact := hall ⟨{ initMm .zeroed with mmap := [⟨0, 0, 256, 256, []⟩] }, fun _ => initMemphy .zeroed 0 true⟩
    0 256 512 (by decide)
  have hzero := hexact.mpr fun a ha _ hs => by
    rw [List.mem_singleton.mp ha, VmAreaStruct.shares_iff (by decide)] at hs
    exact absurd hs.2.2 (by decide)
  exact absurd hzero (by decide)

/-! ## Lookup -/

/-- `o` is the position of the area of that id, `none` if there is none. -/
def AreaFound (mm : MmStruct) (vmaid : Int) : Option Nat → Prop
  | some i => ∃ a, mm.mmap[i]? = some a ∧ (a.vmId : Int) = vmaid
  | none => ∀ a ∈ mm.mmap, (a.vmId : Int) ≠ vmaid

/-- Area lookup is total and exact: `get_vma_by_num` returns the area of that id, or `NULL`. -/
def LookupExact (mm : MmStruct) (vmaid : Int) : Prop := ∃ o, getVmaByNum mm vmaid = .ok o ∧ AreaFound mm vmaid o

theorem getVmaByNumLoop_ne_none {vmaid : Int} {i : Nat} : getVmaByNumLoop vmaid i l ≠ .ok none := by
  induction l generalizing i with
  | nil => exact fun h => by cases h
  | cons a l ih =>
    rw [getVmaByNumLoop]
    split
    · exact ih
    · exact fun h => by cases h

theorem getVmaByNumLoop_append {vmaid : Int} {i : Nat} {l₁ l₂ : List VmAreaStruct}
    (h₁ : ∀ b ∈ l₁, toInt b.vmId < vmaid) (ha : ¬ toInt a.vmId < vmaid) :
    getVmaByNumLoop vmaid i (l₁ ++ a :: l₂) = .ok (some (i + l₁.length)) := by
  induction l₁ generalizing i with
  | nil => rw [List.nil_append, getVmaByNumLoop, if_neg ha, List.length_nil, Nat.add_zero]
  | cons b l₁ ih =>
    rw [List.forall_mem_cons] at h₁
    rw [List.cons_append, getVmaByNumLoop, if_pos h₁.1, ih h₁.2, List.length_cons]
    congr 2
    omega

/-- Area lookup is total and exact when there are no areas at all or one has the id. -/
theorem lookupExact_iff {mm : MmStruct} {vmaid : Int} (hsort : mm.mmap.Pairwise (·.vmId < ·.vmId)) (h₀ : 0 ≤ vmaid)
    (h₁ : vmaid < 2 ^ 31) : LookupExact mm vmaid ↔ mm.mmap = [] ∨ ∃ a ∈ mm.mmap, (a.vmId : Int) = vmaid := by
  constructor
  · rintro ⟨o, hget, hfound⟩
    cases o with
    | none =>
      rw [getVmaByNum] at hget
      split at hget
      · next hnil => exact .inl hnil
      · exact absurd hget getVmaByNumLoop_ne_none
    | some i =>
      obtain ⟨a, hi, ha⟩ := hfound
      exact .inr ⟨a, List.mem_of_getElem? hi, ha⟩
  · rintro (hnil | ⟨a, ha, hid⟩)
    · refine ⟨none, by rw [getVmaByNum, if_pos hnil], fun a ha => ?_⟩
      rw [hnil] at ha
      cases ha
    · obtain ⟨l₁, l₂, hl⟩ := List.append_of_mem ha
      rw [hl, List.pairwise_append] at hsort
      have hbefore : ∀ b ∈ l₁, toInt b.vmId < vmaid := by
        intro b hb
        have hlt : b.vmId < a.vmId := hsort.2.2 b hb a List.mem_cons_self
        rw [toInt_of_bounds (by omega) (by omega)]
        omega
      have hstop : ¬ toInt a.vmId < vmaid := by
        rw [toInt_of_bounds (by omega) (by omega)]
        omega
      refine ⟨some l₁.length, ?_, a, ?_, hid⟩
      · rw [getVmaByNum, if_neg (List.ne_nil_of_mem ha), hl, getVmaByNumLoop_append hbefore hstop, Nat.zero_add]
      · rw [hl, List.getElem?_append_right le_rfl, Nat.sub_self, List.getElem?_cons_zero]

/-- Area 3 behind area 1. -/
theorem lookupExact_iff_third :
    LookupExact { initMm .zeroed with mmap := [⟨1, 0, 0, 0, []⟩, ⟨3, 0, 0, 0, []⟩] } 3 ↔
      [(⟨1, 0, 0, 0, []⟩ : VmAreaStruct), ⟨3, 0, 0, 0, []⟩] = [] ∨
        ∃ a ∈ [(⟨1, 0, 0, 0, []⟩ : VmAreaStruct), ⟨3, 0, 0, 0, []⟩], (a.vmId : Int) = 3 :=
  lookupExact_iff (by decide) (by decide) (by decide)

/-- Area 1 of a new process. -/
theorem lookup_past_end : ¬ ∀ (mm : MmStruct) (vmaid : Int), mm.mmap.Pairwise (·.vmId < ·.vmId) → 0 ≤ vmaid →
    vmaid < 2 ^ 31 → LookupExact mm vmaid := by
  intro hall
  obtain ⟨o, hget, -⟩ := hall (initMm .zeroed) 1 (by decide) (by decide) (by decide)
  have hnull : getVmaByNum (initMm .zeroed) 1 = .error .null := by decide
  cases hnull.symm.trans hget

end SimpleOs.Mm
