import SimpleOs.Mm.Frames
import SimpleOs.Mm.Libmem

/-!
# What `liballoc` and `libfree` do

An address space has one area, area 0.

* `AllocCase a size a' rg` : the ways a request of `size` bytes leaves area `a` as `a'` with the region
  `rg`: from the free region list, from the gap under `vm_end`, or by growth;
* `freshPages`, `MmStruct.growth` : the pages a request asks RAM for;
* `Caller.place` : the area and one region written back;
* `liballoc_ok_iff`, `libfree_ok_iff` : the calls.
-/

namespace SimpleOs.Mm
open CInt

/-! ## One area -/

structure MmStruct.Single (mm : MmStruct) (a : VmAreaStruct) : Prop where
  mmap : mm.mmap = [a]
  vmId : a.vmId = 0

def Caller.withArea (c : Caller) (a : VmAreaStruct) : Caller := { c with mm := { c.mm with mmap := [a] } }

def Caller.place (c : Caller) (a : VmAreaStruct) (rgid : Int) (rg : VmRgStruct) : Caller :=
  { c with mm := { c.mm with mmap := [a], symrgtbl := Function.update c.mm.symrgtbl rgid.toNat rg } }

variable {c c' : Caller} {a a' : VmAreaStruct}

theorem MmStruct.Single.getVmaByNum {mm : MmStruct} (h : mm.Single a) : getVmaByNum mm 0 = .ok (some 0) := by
  rw [Mm.getVmaByNum, h.mmap, if_neg (by simp), getVmaByNumLoop, if_neg]
  rw [h.vmId]
  decide

theorem MmStruct.Single.area {mm : MmStruct} (h : mm.Single a) : mm.area 0 = .ok a := by
  simp only [MmStruct.area, h.mmap, List.getElem?_cons_zero]

theorem MmStruct.Single.setArea {mm : MmStruct} (h : mm.Single a) (a' : VmAreaStruct) :
    mm.setArea 0 a' = { mm with mmap := [a'] } := by
  simp only [MmStruct.setArea, h.mmap, List.set_cons_zero]

theorem Caller.place_symrgtbl (c : Caller) (a : VmAreaStruct) (rgid : Int) (rg : VmRgStruct) :
    (c.place a rgid rg).mm.symrgtbl = Function.update c.mm.symrgtbl rgid.toNat rg := rfl

theorem Caller.withArea_single (h : a.vmId = 0) : (c.withArea a).mm.Single a := ⟨rfl, h⟩

theorem Caller.mapRam_withArea (c : Caller) (a : VmAreaStruct) (startPgn n : Nat) :
    (c.withArea a).mapRam startPgn n = (c.mapRam startPgn n).withArea a := by
  unfold Caller.mapRam
  dsimp only
  rw [apply_ite (fun c : Caller => c.withArea a)]
  refine if_congr Iff.rfl ?_ rfl
  simp only [Caller.withArea, Caller.withFree, Caller.setDev, mapPages_with_mmap]

/-! ## Growth -/

/-- `inc_amt` of a request of `size` bytes: the request is aligned by `__alloc` and by
`inc_vma_limit`. -/
def growthAmt (size : Int) : Int := pagingPageAlignsz (pagingPageAlignsz size)

theorem align_align (size : Int) : pagingPageAlignsz (pagingPageAlignsz size) = growthAmt size := rfl

def brkEnd (a : VmAreaStruct) (inc : Int) : Nat := toULong (a.sbrk + toULong inc)

/-- `inc_vma_limit` finds the region at the break inside the area. -/
def growthOverlaps (a : VmAreaStruct) (inc : Int) : Bool :=
  a.vmStart ≠ a.vmEnd && overlapsVma a (toULong (toInt a.sbrk)) (toULong (toInt (brkEnd a inc)))

def grownArea (a : VmAreaStruct) (inc : Int) : VmAreaStruct :=
  if growthOverlaps a inc then { a with sbrk := brkEnd a inc }
  else { a with sbrk := brkEnd a inc, vmEnd := toULong (toInt (toInt a.vmEnd + inc)) }

def grownPages (a : VmAreaStruct) (inc : Int) : Nat :=
  if growthOverlaps a inc then 0 else (inc.tdiv PAGING_PAGESZ).toNat

theorem validateOverlapVmArea_lt_iff (c : Caller) (a : VmAreaStruct) (inc : Int) :
    validateOverlapVmArea (c.withArea { a with sbrk := brkEnd a inc }) 0 (toInt a.sbrk) (toInt (brkEnd a inc)) < 0 ↔
      growthOverlaps a inc = true := by
  have hover : ∀ x y, overlapsVma { a with sbrk := brkEnd a inc } x y = overlapsVma a x y := fun _ _ => rfl
  simp only [validateOverlapVmArea, Caller.withArea, validateOverlapVmAreaLoop, growthOverlaps, hover]
  by_cases h : a.vmStart = a.vmEnd
  · simp [h]
  · cases overlapsVma a (toULong (toInt a.sbrk)) (toULong (toInt (brkEnd a inc))) <;> simp [h]

theorem getVmAreaNodeAtBrk_single (h : c.mm.Single a) (sz inc : Int) :
    getVmAreaNodeAtBrk c 0 sz inc =
      .ok (some (a.sbrk, brkEnd a inc), c.withArea { a with sbrk := brkEnd a inc }) := by
  simp only [getVmAreaNodeAtBrk, h.getVmaByNum, Exec.ok_bind, h.area, h.setArea]
  rfl

/-- `inc_vma_limit` moves the break, then the end of the area, and asks for the pages from the old
end on. -/
theorem incVmaLimit_ok_iff (h : c.mm.Single a) {sz : Int} :
    (∃ ret, incVmaLimit c 0 sz = .ok (ret, c')) ↔
      c.MapFits (pagingPgn (toInt a.vmEnd)) (grownPages a (pagingPageAlignsz sz)) ∧
      c' = (c.mapRam (pagingPgn (toInt a.vmEnd)) (grownPages a (pagingPageAlignsz sz))).withArea
        (grownArea a (pagingPageAlignsz sz)) := by
  generalize hinc : pagingPageAlignsz sz = inc
  have hb : (c.withArea { a with sbrk := brkEnd a inc }).mm.Single { a with sbrk := brkEnd a inc } :=
    Caller.withArea_single h.vmId
  simp only [incVmaLimit, hinc, getVmAreaNodeAtBrk_single h, Exec.ok_bind, hb.getVmaByNum, derefVma, hb.area,
    validateOverlapVmArea_lt_iff, hb.setArea, Option.getD_some, grownPages, grownArea]
  by_cases ho : growthOverlaps a inc = true
  · simp only [ho, if_true, Exec.pure_eq_ok, Except.ok.injEq, Prod.mk.injEq, Caller.mapRam_zero]
    exact ⟨fun ⟨_, _, h⟩ => ⟨fun _ => .inl rfl, h.symm⟩, fun h => ⟨_, rfl, h.2.symm⟩⟩
  · have hmap : ∀ c'', (∃ ret rg, vmMapRam
        (c.withArea { a with sbrk := brkEnd a inc, vmEnd := toULong (toInt (toInt a.vmEnd + inc)) })
        (toInt a.sbrk) (toInt (brkEnd a inc)) (toInt a.vmEnd) (inc.tdiv PAGING_PAGESZ) = .ok (ret, rg, c'')) ↔ _ :=
      fun _ => vmMapRam_ok_iff
    rw [Caller.mapRam_withArea] at hmap
    simp only [ho, if_false, Exec.bind_ok, Bool.false_eq_true]
    constructor
    · rintro ⟨ret, ⟨r, rg, c''⟩, hx, hret⟩
      obtain ⟨hf, rfl⟩ := (hmap c'').mp ⟨r, rg, hx⟩
      refine ⟨hf, ?_⟩
      split at hret <;> cases hret <;> rfl
    · rintro ⟨hf, rfl⟩
      obtain ⟨r, rg, hx⟩ := (hmap _).mpr ⟨hf, rfl⟩
      by_cases hr : r < 0
      · exact ⟨-1, _, hx, if_pos hr⟩
      · exact ⟨0, _, hx, if_neg hr⟩

/-! ## `liballoc` -/

def brkRegion (a : VmAreaStruct) (size : Int) : VmRgStruct :=
  ⟨0, toULong (toInt a.sbrk), toULong (toInt (toInt a.sbrk + size))⟩

def advance (a : VmAreaStruct) (size : Int) : VmAreaStruct := { a with sbrk := toULong (a.sbrk + toULong size) }

/-- `AllocCase a size a' rg` : a request of `size` bytes is met in area `a` by the region `rg`, and
leaves `a'`. -/
inductive AllocCase (a : VmAreaStruct) (size : Int) : VmAreaStruct → VmRgStruct → Prop
  /-- a region of the free list -/
  | reuse {rgStart rgEnd : Nat} {l : List VmRgStruct}
      (h : freeSearchList 0 size a.vmFreergList = .ok (0, some (rgStart, rgEnd), l)) :
      AllocCase a size { a with vmFreergList := l } ⟨0, rgStart, rgEnd⟩
  /-- the gap between `sbrk` and `vm_end` -/
  | gap {ret : Int} {o : Option (Nat × Nat)} {l : List VmRgStruct}
      (h : freeSearchList 0 size a.vmFreergList = .ok (ret, o, l)) (hret : ret ≠ 0)
      (hgap : size ≤ gapSize a (toInt a.sbrk)) :
      AllocCase a size (advance { a with vmFreergList := l } size) (brkRegion a size)
  /-- growth: the break moves by the aligned size and again by the size -/
  | grow {ret : Int} {o : Option (Nat × Nat)} {l : List VmRgStruct}
      (h : freeSearchList 0 size a.vmFreergList = .ok (ret, o, l)) (hret : ret ≠ 0)
      (hgap : ¬ size ≤ gapSize a (toInt a.sbrk)) :
      AllocCase a size (advance (grownArea { a with vmFreergList := l } (growthAmt size)) size) (brkRegion a size)

/-- The number of pages a request of `size` bytes asks RAM for. -/
def freshPages (a : VmAreaStruct) (size : Int) : Nat :=
  match freeSearchList 0 size a.vmFreergList with
  | .ok (ret, _, _) =>
    if ret = 0 ∨ size ≤ gapSize a (toInt a.sbrk) then 0 else grownPages a (growthAmt size)
  | .error _ => 0

/-- The first page a growth maps. -/
def freshStart (a : VmAreaStruct) : Nat := pagingPgn (toInt a.vmEnd)

theorem AllocCase.vmId {size : Int} {rg : VmRgStruct} (h : AllocCase a size a' rg) : a'.vmId = a.vmId := by
  cases h with
  | reuse => rfl
  | gap => rfl
  | grow =>
    simp only [advance, grownArea]
    split <;> rfl

/-- A region id `symrgtbl` has. -/
def ValidRg (rgid : Int) : Prop := 0 ≤ rgid ∧ rgid < PAGING_MAX_SYMTBL_SZ

instance (rgid : Int) : Decidable (ValidRg rgid) := inferInstanceAs (Decidable (_ ∧ _))

theorem MmStruct.setRg_ok_iff {mm mm' : MmStruct} {rgid : Int} {rg : VmRgStruct} :
    mm.setRg rgid rg = .ok mm' ↔
      ValidRg rgid ∧ mm' = { mm with symrgtbl := Function.update mm.symrgtbl rgid.toNat rg } := by
  unfold MmStruct.setRg ValidRg
  split
  · next h => simp only [h, Except.ok.injEq, and_self, true_and]; exact eq_comm
  · next h => simp only [h, reduceCtorEq, false_and]

theorem MmStruct.getRg_ok_iff {mm : MmStruct} {rgid : Int} {rg : VmRgStruct} :
    mm.getRg rgid = .ok rg ↔ ValidRg rgid ∧ rg = mm.symrgtbl rgid.toNat := by
  unfold MmStruct.getRg ValidRg
  split
  · next h => simp only [h, Except.ok.injEq, and_self, true_and]; exact eq_comm
  · next h => simp only [h, reduceCtorEq, false_and]

theorem allocHeap_gap_iff (h : c.mm.Single a) {rgid size incSz : Int} (hgap : size ≤ gapSize a (toInt a.sbrk)) :
    Libmem.allocHeap c 0 0 rgid size incSz = .ok c' ↔
      ValidRg rgid ∧ c' = c.place (advance a size) rgid (brkRegion a size) := by
  simp only [Libmem.allocHeap, h.area, Exec.ok_bind, ge_iff_le, hgap, if_true, h.setArea, Exec.bind_ok,
    MmStruct.setRg_ok_iff]
  constructor
  · rintro ⟨mm, ⟨hv, rfl⟩, hx⟩
    cases hx
    exact ⟨hv, rfl⟩
  · rintro ⟨hv, rfl⟩
    exact ⟨_, ⟨hv, rfl⟩, rfl⟩

theorem allocHeap_grow_iff (h : c.mm.Single a) {rgid size incSz : Int}
    (hgap : ¬ size ≤ gapSize a (toInt a.sbrk)) :
    Libmem.allocHeap c 0 0 rgid size incSz = .ok c' ↔
      ValidRg rgid ∧ c.MapFits (freshStart a) (grownPages a (pagingPageAlignsz incSz)) ∧
      c' = (c.mapRam (freshStart a) (grownPages a (pagingPageAlignsz incSz))).place
        (advance (grownArea a (pagingPageAlignsz incSz)) size) rgid (brkRegion a size) := by
  have hinc : ∀ c'', (∃ ret, incVmaLimit c 0 incSz = .ok (ret, c'')) ↔ _ := fun _ => incVmaLimit_ok_iff h
  simp only [Libmem.allocHeap, h.area, Exec.ok_bind, ge_iff_le, hgap, if_false, Exec.bind_ok,
    MmStruct.setRg_ok_iff]
  constructor
  · rintro ⟨⟨ret, c''⟩, hx, mm, ⟨hv, rfl⟩, b, hb, hret⟩
    obtain ⟨hf, rfl⟩ := (hinc c'').mp ⟨ret, hx⟩
    cases hb
    cases hret
    exact ⟨hv, hf, rfl⟩
  · rintro ⟨hv, hf, rfl⟩
    obtain ⟨ret, hx⟩ := (hinc _).mpr ⟨hf, rfl⟩
    exact ⟨_, hx, _, ⟨hv, rfl⟩, _, rfl, rfl⟩

inductive AllocOutcome (c : Caller) (a : VmAreaStruct) (rgid size : Int) : Int → Caller → Prop
  | refused (h : rgid < 0 ∨ rgid > PAGING_MAX_SYMTBL_SZ) : AllocOutcome c a rgid size (-1) c
  | placed {a' : VmAreaStruct} {rg : VmRgStruct} (hv : ValidRg rgid) (hcase : AllocCase a size a' rg)
      (hfits : c.MapFits (freshStart a) (freshPages a size)) :
      AllocOutcome c a rgid size 0 ((c.mapRam (freshStart a) (freshPages a size)).place a' rgid rg)

theorem ValidRg.not_refused {rgid : Int} (h : ValidRg rgid) : ¬ (rgid < 0 ∨ rgid > PAGING_MAX_SYMTBL_SZ) := by
  unfold ValidRg at h
  omega

theorem ValidRg.toNat_lt {rgid : Int} (h : ValidRg rgid) : rgid.toNat < PAGING_MAX_SYMTBL_SZ := by
  unfold ValidRg at h
  omega

theorem getFreeVmrgArea_single (h : c.mm.Single a) (size : Int) :
    getFreeVmrgArea c 0 size = (do
      let (ret, newrg, l) ← freeSearchList 0 size a.vmFreergList
      return (ret, newrg, c.withArea { a with vmFreergList := l })) := by
  simp only [getFreeVmrgArea, h.getVmaByNum, Exec.ok_bind, derefVma, h.area, Option.getD_some, h.setArea]
  rfl

theorem allocCase_iff {size ret₀ : Int} {o : Option (Nat × Nat)} {l : List VmRgStruct} {rg : VmRgStruct}
    (hfs : freeSearchList 0 size a.vmFreergList = .ok (ret₀, o, l)) : AllocCase a size a' rg ↔
      (ret₀ = 0 ∧ ∃ nr, o = some nr ∧ a' = { a with vmFreergList := l } ∧ rg = ⟨0, nr.1, nr.2⟩) ∨
      (ret₀ ≠ 0 ∧ rg = brkRegion a size ∧
        ((size ≤ gapSize a (toInt a.sbrk) ∧ a' = advance { a with vmFreergList := l } size) ∨
        (¬ size ≤ gapSize a (toInt a.sbrk) ∧
          a' = advance (grownArea { a with vmFreergList := l } (growthAmt size)) size))) := by
  constructor
  · rintro (h | ⟨h, hret, hgap⟩ | ⟨h, hret, hgap⟩)
    · cases hfs.symm.trans h
      exact .inl ⟨rfl, _, rfl, rfl, rfl⟩
    · cases hfs.symm.trans h
      exact .inr ⟨hret, rfl, .inl ⟨hgap, rfl⟩⟩
    · cases hfs.symm.trans h
      exact .inr ⟨hret, rfl, .inr ⟨hgap, rfl⟩⟩
  · rintro (⟨rfl, nr, rfl, rfl, rfl⟩ | ⟨hret, rfl, ⟨hgap, rfl⟩ | ⟨hgap, rfl⟩⟩)
    · exact .reuse hfs
    · exact .gap hfs hret hgap
    · exact .grow hfs hret hgap

theorem AllocOutcome.placed_iff {rgid size ret : Int} (hr : ¬ (rgid < 0 ∨ rgid > PAGING_MAX_SYMTBL_SZ)) :
    AllocOutcome c a rgid size ret c' ↔ ret = 0 ∧ ∃ a' rg, ValidRg rgid ∧ AllocCase a size a' rg ∧
      c.MapFits (freshStart a) (freshPages a size) ∧
      c' = (c.mapRam (freshStart a) (freshPages a size)).place a' rgid rg := by
  constructor
  · rintro (hr' | ⟨hv, hcase, hfits⟩)
    · exact absurd hr' hr
    · exact ⟨rfl, _, _, hv, hcase, hfits, rfl⟩
  · rintro ⟨rfl, a', rg, hv, hcase, hfits, rfl⟩
    exact .placed hv hcase hfits

theorem alloc_ok_iff (h : c.mm.Single a) {rgid size ret : Int} :
    (∃ addr, Libmem.alloc c 0 rgid size = .ok (ret, addr, c')) ↔ AllocOutcome c a rgid size ret c' := by
  unfold Libmem.alloc
  by_cases hr : rgid < 0 ∨ rgid > PAGING_MAX_SYMTBL_SZ
  · simp only [hr, if_true, Exec.pure_eq_ok, Except.ok.injEq, Prod.mk.injEq]
    constructor
    · rintro ⟨addr, rfl, -, rfl⟩
      exact .refused hr
    · rintro (- | ⟨hv⟩)
      · exact ⟨_, rfl, rfl, rfl⟩
      · exact absurd hr hv.not_refused
  · rw [if_neg hr, getFreeVmrgArea_single h, AllocOutcome.placed_iff hr]
    cases hfs : freeSearchList 0 size a.vmFreergList with
    | error e =>
      simp only [Exec.error_bind, reduceCtorEq, exists_false, false_iff]
      rintro ⟨-, a', rg, -, hcase, -⟩
      cases hcase <;> rw [hfs] at * <;> contradiction
    | ok x =>
      obtain ⟨ret₀, o, l⟩ := x
      have hl : (c.withArea { a with vmFreergList := l }).mm.Single { a with vmFreergList := l } :=
        Caller.withArea_single h.vmId
      have hfresh : freshPages a size =
          if ret₀ = 0 ∨ size ≤ gapSize a (toInt a.sbrk) then 0 else grownPages a (growthAmt size) := by
        simp only [freshPages, hfs]
      simp only [Exec.ok_bind, Exec.pure_eq_ok, allocCase_iff hfs]
      by_cases hret : ret₀ = 0
      · -- a free region serves the request
        have hfits : c.MapFits (freshStart a) 0 := fun _ => .inl rfl
        rw [if_pos (.inl hret)] at hfresh
        rw [hfresh, Caller.mapRam_zero]
        subst hret
        cases o with
        | none => simp
        | some rs =>
          simp only [if_true, Exec.bind_ok, MmStruct.setRg_ok_iff, hfits, ne_eq, not_true_eq_false, false_and, or_false,
            true_and]
          constructor
          · rintro ⟨addr, mm, ⟨hv, rfl⟩, hx⟩
            cases hx
            exact ⟨rfl, _, _, hv, ⟨_, rfl, rfl, rfl⟩, rfl⟩
          · rintro ⟨rfl, a', rg, hv, ⟨nr, hnr, rfl, rfl⟩, rfl⟩
            cases hnr
            exact ⟨_, _, ⟨hv, rfl⟩, rfl⟩
      · simp only [hret, if_false, if_true, hl.getVmaByNum, Exec.ok_bind, derefVma, hl.area, Option.getD_some,
          Exec.bind_ok, Except.ok.injEq, Prod.mk.injEq, false_and, false_or, ne_eq, not_false_eq_true, true_and]
        by_cases hgap : size ≤ gapSize a (toInt a.sbrk)
        · -- the gap under `vm_end`
          have hfits : c.MapFits (freshStart a) 0 := fun _ => .inl rfl
          rw [if_pos (.inr hgap)] at hfresh
          rw [hfresh, Caller.mapRam_zero]
          simp only [allocHeap_gap_iff hl hgap, hgap, true_and, not_true_eq_false, false_and, or_false, hfits]
          constructor
          · rintro ⟨addr, c'', ⟨hv, rfl⟩, rfl, -, rfl⟩
            exact ⟨rfl, _, _, hv, ⟨rfl, rfl⟩, rfl⟩
          · rintro ⟨rfl, a', rg, hv, ⟨rfl, rfl⟩, rfl⟩
            exact ⟨_, _, ⟨hv, rfl⟩, rfl, rfl, rfl⟩
        · -- growth
          rw [if_neg (not_or.mpr ⟨hret, hgap⟩)] at hfresh
          rw [hfresh]
          have hpages : grownPages { a with vmFreergList := l } (growthAmt size) = grownPages a (growthAmt size) := rfl
          simp only [allocHeap_grow_iff hl hgap, Caller.mapRam_withArea, align_align, hpages, hgap, false_and, false_or,
            not_false_eq_true, true_and]
          constructor
          · rintro ⟨addr, c'', ⟨hv, hf, rfl⟩, rfl, -, rfl⟩
            exact ⟨rfl, _, _, hv, ⟨rfl, rfl⟩, hf, rfl⟩
          · rintro ⟨rfl, a', rg, hv, ⟨rfl, rfl⟩, hf, rfl⟩
            exact ⟨_, _, ⟨hv, hf, rfl⟩, rfl, rfl, rfl⟩

/-- `liballoc` refuses the region id or places a region. -/
theorem liballoc_ok_iff (h : c.mm.Single a) {size regIndex : Nat} {ret : Int} :
    liballoc c size regIndex = .ok (ret, c') ↔ AllocOutcome c a (toInt regIndex) (toInt size) ret c' := by
  rw [← alloc_ok_iff h, liballoc, Exec.bind_ok]
  constructor
  · rintro ⟨⟨ret', addr, c''⟩, hx, hret⟩
    cases hret
    exact ⟨addr, hx⟩
  · rintro ⟨addr, hx⟩
    exact ⟨_, hx, rfl⟩

/-! ## `libfree` -/

def freedRegion (rg : VmRgStruct) : VmRgStruct := { rg with rgStart := toULong (-1), rgEnd := toULong (-1) }

inductive FreeOutcome (c : Caller) (a : VmAreaStruct) (rgid : Int) : Int → Caller → Prop
  | refused (h : rgid < 0 ∨ rgid > PAGING_MAX_SYMTBL_SZ) : FreeOutcome c a rgid (-1) c
  | empty (hv : ValidRg rgid) (h : (c.mm.symrgtbl rgid.toNat).rgEnd ≤ (c.mm.symrgtbl rgid.toNat).rgStart) :
      FreeOutcome c a rgid (-1) (c.place a rgid (freedRegion (c.mm.symrgtbl rgid.toNat)))
  | freed (hv : ValidRg rgid) (h : (c.mm.symrgtbl rgid.toNat).rgStart < (c.mm.symrgtbl rgid.toNat).rgEnd) :
      FreeOutcome c a rgid 0
        (c.place { a with vmFreergList := c.mm.symrgtbl rgid.toNat :: a.vmFreergList } rgid
          (freedRegion (c.mm.symrgtbl rgid.toNat)))

/-- `libfree` moves a region from `symrgtbl` to the free region list. -/
theorem libfree_ok_iff (h : c.mm.Single a) {regIndex : Nat} {ret : Int} :
    libfree c regIndex = .ok (ret, c') ↔ FreeOutcome c a (toInt regIndex) ret c' := by
  unfold libfree Libmem.free
  generalize toInt regIndex = rgid
  by_cases hr : rgid < 0 ∨ rgid > PAGING_MAX_SYMTBL_SZ
  · simp only [hr, if_true, Exec.pure_eq_ok, Except.ok.injEq, Prod.mk.injEq]
    constructor
    · rintro ⟨rfl, rfl⟩
      exact .refused hr
    · rintro (- | ⟨hv⟩ | ⟨hv⟩)
      · exact ⟨rfl, rfl⟩
      · exact absurd hr hv.not_refused
      · exact absurd hr hv.not_refused
  · rw [if_neg hr]
    by_cases hv : ValidRg rgid
    · let mm := { c.mm with
        symrgtbl := Function.update c.mm.symrgtbl rgid.toNat (freedRegion (c.mm.symrgtbl rgid.toNat)) }
      have hmm : mm.Single a := ⟨h.mmap, h.vmId⟩
      have hget : c.mm.getRg rgid = .ok _ := MmStruct.getRg_ok_iff.mpr ⟨hv, rfl⟩
      have hset : c.mm.setRg rgid (freedRegion (c.mm.symrgtbl rgid.toNat)) = .ok mm :=
        MmStruct.setRg_ok_iff.mpr ⟨hv, rfl⟩
      rw [freedRegion] at hset
      simp only [hget, hset, Exec.ok_bind, enlistVmFreergList, hmm.area, ge_iff_le, hmm.setArea]
      by_cases he : (c.mm.symrgtbl rgid.toNat).rgEnd ≤ (c.mm.symrgtbl rgid.toNat).rgStart
      · have hplace : c.place a rgid (freedRegion (c.mm.symrgtbl rgid.toNat)) = { c with mm := mm } := by
          simp only [Caller.place, mm, h.mmap]
        simp only [he, if_true, Exec.pure_eq_ok, Exec.ok_bind, Except.ok.injEq, Prod.mk.injEq, ne_eq,
          show ¬ (-1 : Int) = 0 by decide, not_false_eq_true]
        constructor
        · rintro ⟨rfl, rfl⟩
          rw [← hplace]
          exact .empty hv he
        · rintro (hr' | - | ⟨-, hlt⟩)
          · exact absurd hr' hr
          · exact ⟨rfl, hplace.symm⟩
          · omega
      · simp only [he, if_false, Exec.pure_eq_ok, Exec.ok_bind, Except.ok.injEq, Prod.mk.injEq, ne_eq,
          not_true_eq_false]
        constructor
        · rintro ⟨rfl, rfl⟩
          exact .freed hv (by omega)
        · rintro (hr' | ⟨-, hle⟩ | -)
          · exact absurd hr' hr
          · exact absurd hle he
          · exact ⟨rfl, rfl⟩
    · simp only [MmStruct.getRg, if_neg (show ¬ (0 ≤ rgid ∧ rgid < PAGING_MAX_SYMTBL_SZ) from hv), Exec.error_bind,
        reduceCtorEq, false_iff]
      rintro (hr' | ⟨hv', -⟩ | ⟨hv', -⟩)
      · exact hr hr'
      · exact hv hv'
      · exact hv hv'

end SimpleOs.Mm
