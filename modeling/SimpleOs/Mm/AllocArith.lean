import SimpleOs.Mm.FreeRegions
import SimpleOs.Mm.HeapExtent

/-!
# The arithmetic of an allocation

* `roundUp` : rounding up to whole pages, over the integers;
* `HeapArith`, `AllocExact` : what a `liballoc` computes is what integer arithmetic gives, and its region lies above or
  between the others;
* `AllocFits` : no operand, sum or rounding of an allocation leaves the range of its C type;
* `AllocBounds` : what a run of such allocations keeps; `allocBounds_run`;
* `AllocDone` : a `liballoc` returns, refused or exact; `allocExact_iff` : after such a run, exactly when it is
  `AllocServed`.
-/

namespace SimpleOs.Mm
open CInt

/-- `size` rounded up to whole pages. -/
def roundUp (size : Int) : Int := (size + PAGING_PAGESZ - 1) / PAGING_PAGESZ * PAGING_PAGESZ

/-- What the heap part of `__alloc` asks `inc_vma_limit` for: nothing when the gap under `vm_end` is large enough. -/
def heapGrowth (a : VmAreaStruct) (size : Int) : Int := if size ≤ (a.vmEnd : Int) - a.sbrk then 0 else roundUp size

/-- What the heap part of `__alloc` and `inc_vma_limit` compute from area `a`, which they leave as `a'`. -/
structure HeapArith (a : VmAreaStruct) (size : Int) (a' : VmAreaStruct) : Prop where
  oldSbrk : toInt a.sbrk = a.sbrk
  gap : gapSize a (toInt a.sbrk) = a.vmEnd - a.sbrk
  align : pagingPageAlignsz size = roundUp size
  alignTwice : growthAmt size = roundUp size
  sbrk : (a'.sbrk : Int) = a.sbrk + heapGrowth a size + size
  vmEnd : (a'.vmEnd : Int) = a.vmEnd + if growthOverlaps a (roundUp size) then 0 else heapGrowth a size

/-- A successful `liballoc` of `size` bytes that left area `a` as `a'` and placed the region `rg` computed what integer
arithmetic gives; its bounds are in order, the break was not lowered, and no region of `mm` shares a byte with it. -/
structure AllocExact (mm : MmStruct) (a : VmAreaStruct) (size : Nat) (a' : VmAreaStruct) (rg : VmRgStruct) : Prop where
  operand : toInt size = size
  served : servedFree a size = true → a'.sbrk = a.sbrk ∧ a'.vmEnd = a.vmEnd
  heap : servedFree a size = false → HeapArith a size a' ∧ rg.rgStart = a.sbrk
  region : (rg.rgEnd : Int) = rg.rgStart + size
  order : rg.rgStart ≤ rg.rgEnd
  brk : a.sbrk ≤ a'.sbrk
  apart : ∀ i < PAGING_MAX_SYMTBL_SZ, ∀ x, ¬ ((mm.symrgtbl i).has x = true ∧ rg.has x = true)

/-- The operand of a `liballoc` is an `int`, and where the free list does not serve it: the break and the end of the
region are, the sum that rounds it up is, and so is the end of the area when it is moved. -/
structure AllocFits (a : VmAreaStruct) (size : Nat) : Prop where
  operand : size < 2 ^ 31
  brk : servedFree a size = false → a.sbrk + size < 2 ^ 31
  align : servedFree a size = false → size + PAGING_PAGESZ ≤ 2 ^ 31
  vmEnd : servedFree a size = false → growthOverlaps a (roundUp size) = false → a.vmEnd + heapGrowth a size < 2 ^ 31

instance (a : VmAreaStruct) (size : Nat) : Decidable (AllocFits a size) :=
  decidable_of_iff (size < 2 ^ 31 ∧ (servedFree a size = false → a.sbrk + size < 2 ^ 31) ∧
      (servedFree a size = false → size + PAGING_PAGESZ ≤ 2 ^ 31) ∧
      (servedFree a size = false → growthOverlaps a (roundUp size) = false → a.vmEnd + heapGrowth a size < 2 ^ 31))
    ⟨fun ⟨h₁, h₂, h₃, h₄⟩ => ⟨h₁, h₂, h₃, h₄⟩, fun h => ⟨h.operand, h.brk, h.align, h.vmEnd⟩⟩

variable {a a' : VmAreaStruct} {size : Int} {rg : VmRgStruct} {mm : MmStruct} {n : Nat}

/-! ## Rounding -/

theorem roundUp_bounds (size : Int) :
    size ≤ roundUp size ∧ roundUp size < size + 256 ∧ roundUp (roundUp size) = roundUp size := by
  unfold roundUp PAGING_PAGESZ
  omega

theorem pageAlign_eq (h₀ : 0 ≤ size) (h : size + PAGING_PAGESZ ≤ 2 ^ 31) : pagingPageAlignsz size = roundUp size :=
  alignUp_eq (by decide) h₀ h

theorem growthAmt_eq (h₀ : 0 ≤ size) (h : size + PAGING_PAGESZ ≤ 2 ^ 31) : growthAmt size = roundUp size := by
  obtain ⟨hle, hlt, hround⟩ := roundUp_bounds size
  unfold PAGING_PAGESZ at h
  have hdvd : roundUp size % 256 = 0 := by unfold roundUp PAGING_PAGESZ; omega
  rw [growthAmt, pageAlign_eq h₀ h, pageAlign_eq (by omega) (by unfold PAGING_PAGESZ; omega), hround]

theorem size_of_pageAlign (h₁ : size < 2 ^ 31) (h : pagingPageAlignsz size = roundUp size) :
    size + PAGING_PAGESZ ≤ 2 ^ 31 := by
  by_contra hlt
  have hsz : (PAGING_PAGESZ : Int) = 256 := rfl
  have hround := roundUp_bounds size
  have hwrap : pagingPageAlignsz size ≤ 0 := alignUp_wrap h₁ (by decide) (by decide) (by omega)
  omega

/-! ## The heap part -/

theorem gapSize_eq (hs : a.sbrk < 2 ^ 31) (hv : a.vmEnd < 2 ^ 31) :
    gapSize a (toInt a.sbrk) = (a.vmEnd : Int) - a.sbrk := by
  unfold gapSize toInt toULong
  omega

theorem grownArea_vmEnd {inc : Int} (h₀ : 0 ≤ inc) (hv : a.vmEnd < 2 ^ 31)
    (hfits : growthOverlaps a inc = false → a.vmEnd + inc < 2 ^ 31) :
    ((grownArea a inc).vmEnd : Int) = a.vmEnd + if growthOverlaps a inc then 0 else inc := by
  cases ho : growthOverlaps a inc with
  | true => simp only [grownArea, ho, if_true, Int.add_zero]
  | false =>
    have hend := hfits ho
    have hvm : toInt a.vmEnd = a.vmEnd := toInt_of_bounds (by omega) (by omega)
    simp only [grownArea, ho, Bool.false_eq_true, if_false]
    rw [hvm, toInt_of_bounds (by omega) (by omega)]
    exact toULong_of_nonneg (by omega) (by omega)

theorem AllocFits.heapExact (h : AllocFits a n) (hn : servedFree a n = false) : HeapExact a n where
  nonneg := by omega
  brk := by have := h.brk hn; omega
  align := by have := h.align hn; omega

theorem AllocCase.heapArith (h : AllocCase a n a' rg) (hfits : AllocFits a n) (hn : servedFree a n = false)
    (hv : a.vmEnd < 2 ^ 31) : HeapArith a n a' ∧ rg.rgStart = a.sbrk := by
  have hx := hfits.heapExact hn
  have hbrk := hx.brk
  have halign := hx.align
  have hgap := gapSize_eq (a := a) (by omega) hv
  have hgrowth := growthAmt_eq hx.nonneg halign
  have hround := roundUp_bounds n
  have hold : toInt a.sbrk = a.sbrk := toInt_of_bounds (by omega) (by omega)
  have hend := hfits.vmEnd hn
  unfold PAGING_PAGESZ at halign
  cases h with
  | reuse hfs =>
    rw [servedFree, hfs] at hn
    cases hn
  | @gap ret o l hfs hret hle =>
    have hzero : heapGrowth a n = 0 := if_pos (by omega)
    refine ⟨⟨hold, hgap, pageAlign_eq hx.nonneg hx.align, hgrowth, ?_, ?_⟩, hx.brkRegion.1⟩
    · rw [hzero, Int.add_zero]
      exact hx.advance
    · rw [hzero, ite_self, Int.add_zero]
      rfl
  | @grow ret o l hfs hret hle =>
    have hinc : heapGrowth a n = roundUp n := if_neg (by omega)
    refine ⟨⟨hold, hgap, pageAlign_eq hx.nonneg hx.align, hgrowth, ?_, ?_⟩, hx.brkRegion.1⟩
    · rw [hinc, ← hgrowth]
      exact grow_sbrk l hx.nonneg (by omega) (by omega)
    · rw [hinc] at hend ⊢
      rw [hgrowth]
      exact grownArea_vmEnd (a := { a with vmFreergList := l }) (by omega) hv fun ho => by
        have := hend ho
        dsimp only
        omega

/-! ## What a run keeps -/

/-- The regions are apart below the break, and break and end are far from wrapping. -/
structure AllocBounds (mm : MmStruct) (a : VmAreaStruct) : Prop where
  regions : Regions mm a
  sbrk : a.sbrk < 2 ^ 33
  vmEnd : a.vmEnd < 2 ^ 31

/-- Break and end of the area after an allocation that the free list serves. -/
theorem AllocCase.servedArea (h : AllocCase a size a' rg) (hs : servedFree a size = true) :
    a'.sbrk = a.sbrk ∧ a'.vmEnd = a.vmEnd := by
  cases h with
  | reuse => exact ⟨rfl, rfl⟩
  | gap hfs hret =>
    rw [servedFree, hfs] at hs
    exact absurd (of_decide_eq_true hs) hret
  | grow hfs hret =>
    rw [servedFree, hfs] at hs
    exact absurd (of_decide_eq_true hs) hret

theorem AllocBounds.placed (hB : AllocBounds mm a) (h : AllocCase a n a' rg) (hfits : AllocFits a n) :
    Placed a a' n rg := by
  have := hB.sbrk
  have := hfits.operand
  exact h.placed (by omega) (by omega) hB.regions.free hfits.heapExact

theorem Regions.apart (h : Regions mm a) (hp : Placed a a' size rg) {i : Nat} (hi : i < PAGING_MAX_SYMTBL_SZ)
    (x : Nat) :
    ¬ ((mm.symrgtbl i).has x = true ∧ rg.has x = true) := by
  rintro ⟨hlive, hx⟩
  rw [has_iff] at hlive hx
  have hcover := hp.cover x
  rw [show within rg.rgStart rg.rgEnd x = 1 from if_pos hx] at hcover
  have hbelow := h.below i hi (by omega)
  rw [show within a.sbrk a'.sbrk x = 0 from if_neg (by omega)] at hcover
  -- the byte is covered by a free region, and by the live one
  have hsym : 0 < cover ((List.range PAGING_MAX_SYMTBL_SZ).map mm.symrgtbl) x :=
    List.countP_pos_iff.mpr ⟨_, List.mem_map.mpr ⟨i, List.mem_range.mpr hi, rfl⟩, has_iff.mpr hlive⟩
  have honce := h.once x
  unfold MmStruct.regions at honce
  rw [cover_append] at honce
  omega

/-- An allocation that fits is exact. -/
theorem AllocBounds.exact (hB : AllocBounds mm a) (h : AllocCase a n a' rg) (hfits : AllocFits a n) :
    AllocExact mm a n a' rg := by
  have hp := hB.placed h hfits
  refine ⟨toInt_of_bounds (by omega) (by have := hfits.operand; omega), h.servedArea,
    fun hn => h.heapArith hfits hn hB.vmEnd, hp.size, ?_, hp.brk, fun i hi => hB.regions.apart hp hi⟩
  have := hp.size
  omega

theorem AllocExact.bounds (h : AllocExact mm a n a' rg) (hfits : AllocFits a n)
    (hs : a.sbrk < 2 ^ 33) (hv : a.vmEnd < 2 ^ 31) : a'.sbrk < 2 ^ 33 ∧ a'.vmEnd < 2 ^ 31 := by
  cases hn : servedFree a n with
  | true =>
    obtain ⟨hsbrk, hend⟩ := h.served hn
    omega
  | false =>
    obtain ⟨hheap, -⟩ := h.heap hn
    have hsbrk := hheap.sbrk
    have hend := hheap.vmEnd
    have hbrk := hfits.brk hn
    have halign := hfits.align hn
    have hend' := hfits.vmEnd hn
    have hround := roundUp_bounds n
    unfold PAGING_PAGESZ at halign
    have hinc : heapGrowth a n ≤ roundUp n := by
      unfold heapGrowth
      split <;> omega
    refine ⟨by omega, ?_⟩
    cases ho : growthOverlaps a (roundUp n) with
    | true =>
      rw [ho, if_pos rfl] at hend
      omega
    | false =>
      have := hend' ho
      rw [ho, if_neg (by decide)] at hend
      omega

def MmStruct.AllocFits (mm : MmStruct) : MemCall → Prop
  | .alloc size regIndex => ValidRg (toInt regIndex) → ∀ a ∈ mm.mmap, Mm.AllocFits a size
  | _ => True

instance (mm : MmStruct) : DecidablePred mm.AllocFits
  | .alloc size regIndex => inferInstanceAs (Decidable (ValidRg (toInt regIndex) → ∀ a ∈ mm.mmap, Mm.AllocFits a size))
  | .free _ => inferInstanceAs (Decidable True)
  | .read _ _ => inferInstanceAs (Decidable True)
  | .write _ _ _ => inferInstanceAs (Decidable True)

variable {c c' : Caller} {call : MemCall} {r : MemResult} {ret : Int} {size regIndex : Nat}

theorem AllocFits.toInt (h : AllocFits a n) : toInt n = n := toInt_of_bounds (by omega) (by have := h.operand; omega)

/-- A call keeps the bounds when its allocation fits. -/
theorem AllocBounds.step (hB : AllocBounds c.mm a) (h : CallOutcome c a call r c') (hm : c.mm.Single a)
    (hfits : c.mm.AllocFits call) : ∃ a', c'.mm.Single a' ∧ AllocBounds c'.mm a' := by
  have hkeep : ¬ call.Allocates → CallExact a call → ∃ a', c'.mm.Single a' ∧ AllocBounds c'.mm a' := by
    intro hcall hexact
    obtain ⟨a', ha', hR, -⟩ := h.regions hm hB.regions hexact
    obtain ⟨l, hl, -⟩ := h.no_alloc hm hcall
    cases ha'.mmap.symm.trans hl.mmap
    exact ⟨_, hl, hR, hB.sbrk, hB.vmEnd⟩
  cases h with
  | alloc h =>
    rcases h with - | ⟨hv, hcase, -⟩
    · exact ⟨a, hm, hB⟩
    · have hfit := hfits hv a (hm.mmap ▸ List.mem_singleton_self a)
      rw [hfit.toInt] at hcase
      have hp := hB.placed hcase hfit
      obtain ⟨hsbrk, hend⟩ := (hB.exact hcase hfit).bounds hfit hB.sbrk hB.vmEnd
      refine ⟨_, ⟨rfl, hcase.vmId.trans hm.vmId⟩, hB.regions.place hv.toNat_lt hp ?_, hsbrk, hend⟩
      rw [Caller.place_symrgtbl, Caller.mapRam_symrgtbl]
  | free => exact hkeep id trivial
  | read => exact hkeep id trivial
  | write => exact hkeep id trivial

variable {ram swp pid : Nat} {h : History} {s : MemSys}

theorem allocBounds_run (hram : ram < 2 ^ 31) (hswp : swp < 2 ^ 31) (hrun : Run sysCall (MemSys.boot ram swp) h s)
    (hfits : ∀ e ∈ h, e.act.1 = pid → (e.before.mm pid).AllocFits e.act.2) :
    ∃ a, (s.mm pid).Single a ∧ AllocBounds (s.mm pid) a := by
  have hboot : ∃ a, (initMm .zeroed).Single a ∧ AllocBounds (initMm .zeroed) a := by
    obtain ⟨a, ha, hR⟩ := initMm_regions
    cases ha.mmap
    exact ⟨_, ha, hR, by decide, by decide⟩
  refine run_process (I := fun mm => ∃ a, mm.Single a ∧ AllocBounds mm a)
    (C := fun s call => (s.mm pid).AllocFits call) hram hswp hboot ?_ hrun hfits
  rintro s a call r c' - ha hc ⟨b, hb, hB⟩ hcall
  cases hb.mmap.symm.trans ha.mmap
  exact hB.step hc ha hcall

/-! ## Exactly the allocations that fit -/

theorem AllocCase.brkRegion {size : Int} (h : AllocCase a size a' rg) (hn : servedFree a size = false) :
    rg = brkRegion a size := by
  cases h with
  | reuse hfs =>
    rw [servedFree, hfs] at hn
    cases hn
  | gap => rfl
  | grow => rfl

theorem AllocCase.vmEnd {size : Int} (h : AllocCase a size a' rg) (hn : servedFree a size = false)
    (hx : HeapArith a size a') (ho : growthOverlaps a (roundUp size) = false) :
    heapGrowth a size = 0 ∨ a'.vmEnd = toULong (toInt (toInt a.vmEnd + heapGrowth a size)) := by
  have hgap := hx.gap
  cases h with
  | reuse hfs =>
    rw [servedFree, hfs] at hn
    cases hn
  | gap _ _ hle => exact .inl (if_pos (by omega))
  | @grow _ _ l _ _ hle =>
    have ho' : growthOverlaps { a with vmFreergList := l } (roundUp size) = false := ho
    rw [show heapGrowth a size = roundUp size from if_neg (by omega), hx.alignTwice]
    simp only [advance, grownArea, ho', Bool.false_eq_true, if_false, or_true]

/-- An allocation that is exact fits. -/
theorem AllocExact.fits (h : AllocExact mm a n a' rg) (hcase : AllocCase a n a' rg) (hv : a.vmEnd < 2 ^ 31) :
    AllocFits a n := by
  have hoperand : n < 2 ^ 31 := by
    have := toInt_lt n
    have := h.operand
    omega
  refine ⟨hoperand, fun hn => ?_, fun hn => ?_, fun hn ho => ?_⟩
  · obtain ⟨hheap, hstart⟩ := h.heap hn
    have hregion := h.region
    have hold := hheap.oldSbrk
    have hend : rg.rgEnd = toULong (toInt (toInt a.sbrk + n)) := by rw [hcase.brkRegion hn, Mm.brkRegion]
    rw [hold] at hend
    unfold toInt at hold
    unfold toInt toULong at hend
    omega
  · have := size_of_pageAlign (by omega) (h.heap hn).1.align
    omega
  · obtain ⟨hheap, -⟩ := h.heap hn
    have hend := hheap.vmEnd
    have hround := roundUp_bounds n
    rw [ho, if_neg (by decide)] at hend
    rcases hcase.vmEnd hn hheap ho with hzero | hset
    · omega
    · have hinc : heapGrowth a n ≤ roundUp n := by
        unfold heapGrowth
        split <;> omega
      unfold toInt toULong at hset
      omega

/-- A `liballoc` returns, with a failure or with an exact allocation. -/
def AllocDone (c : Caller) (a : VmAreaStruct) (size regIndex : Nat) : Prop :=
  ∃ ret c', liballoc c size regIndex = .ok (ret, c') ∧
    (ret ≠ 0 ∨ ∃ a', c'.mm.Single a' ∧ AllocExact c.mm a size a' (c'.mm.symrgtbl (toInt regIndex).toNat))

/-- The region id of a `liballoc` is refused; or `symrgtbl` has it, the request fits, its search of the free list ends,
and the pages it maps are ones the page table has. -/
def AllocServed (c : Caller) (a : VmAreaStruct) (size regIndex : Nat) : Prop :=
  (toInt regIndex < 0 ∨ toInt regIndex > PAGING_MAX_SYMTBL_SZ) ∨
    (ValidRg (toInt regIndex) ∧ AllocFits a size ∧ (size ≠ 0 ∨ ∃ rg ∈ a.vmFreergList, rg.rgStart < rg.rgEnd) ∧
      c.MapFits (freshStart a) (freshPages a size))

theorem AllocBounds.done_iff (hB : AllocBounds c.mm a) (hR : RegionsWf c.mm a) (hm : c.mm.Single a) :
    AllocDone c a size regIndex ↔ AllocServed c a size regIndex := by
  constructor
  · rintro ⟨ret, c', hx, hdone⟩
    rcases (liballoc_ok_iff hm).mp hx with hr | @⟨b', rg, hv, hcase, hmap⟩
    · exact .inl hr
    · obtain ⟨a', ha', hexact⟩ := hdone.resolve_left fun hne => hne rfl
      cases ha'.mmap
      rw [Caller.place_symrgtbl, Function.update_self] at hexact
      rw [hexact.operand] at hcase hmap
      have hfits := hexact.fits hcase hB.vmEnd
      have hsearch := (hR.allocCase_iff (by omega) (by have := hfits.operand; omega)).mp ⟨_, _, hcase⟩
      exact .inr ⟨hv, hfits, hsearch.imp_left (mt Int.natCast_eq_zero.mpr), hmap⟩
  · rintro (hr | ⟨hv, hfits, hsearch, hmap⟩)
    · exact ⟨-1, c, (liballoc_ok_iff hm).mpr (.refused hr), .inl (by decide)⟩
    · have hcase : ∃ a' rg, AllocCase a size a' rg :=
        (hR.allocCase_iff (by omega) (by have := hfits.operand; omega)).mpr
          (hsearch.imp_left (mt Int.natCast_eq_zero.mp))
      obtain ⟨a', rg, hcase⟩ := hcase
      have hexact := hB.exact hcase hfits
      have hsingle := hcase.vmId.trans hm.vmId
      rw [← hfits.toInt] at hcase hmap
      refine ⟨0, _, (liballoc_ok_iff hm).mpr (.placed hv hcase hmap), .inr ⟨a', ⟨rfl, hsingle⟩, ?_⟩⟩
      rw [Caller.place_symrgtbl, Function.update_self]
      exact hexact

/-- After a run of calls whose allocations fit, a `liballoc` returns with an exact allocation or a failure if and only
if its region id is refused, or the request fits, ends its search and stays in the page table. -/
theorem allocExact_iff (hram : ram < 2 ^ 31) (hswp : swp < 2 ^ 31) (hrun : Run sysCall (MemSys.boot ram swp) h s)
    (hfits : ∀ e ∈ h, e.act.1 = pid → (e.before.mm pid).AllocFits e.act.2) (hm : (s.mm pid).Single a) :
    AllocDone (s.caller pid) a size regIndex ↔ AllocServed (s.caller pid) a size regIndex := by
  obtain ⟨b, hb, hB⟩ := allocBounds_run hram hswp hrun hfits
  cases hb.mmap.symm.trans hm.mmap
  obtain ⟨b, hb, hR⟩ := regionsWf_run hram hswp hrun pid
  cases hb.mmap.symm.trans hm.mmap
  exact AllocBounds.done_iff (c := s.caller pid) hB hR hm

theorem run_liballoc {e : Entry MemSys (Nat × MemCall) MemResult} (hram : ram < 2 ^ 31) (hswp : swp < 2 ^ 31)
    (hrun : Run sysCall (MemSys.boot ram swp) (e :: h) s) (hact : e.act = (pid, .alloc size regIndex)) :
    ∃ a c', Run sysCall (MemSys.boot ram swp) h e.before ∧ (e.before.mm pid).Single a ∧
      liballoc (e.before.caller pid) size regIndex = .ok (e.res.ret, c') := by
  cases hrun with
  | next hrun hx =>
    obtain ⟨a, c', ha, hc, rfl⟩ := sysCall_cases (run_ok hram hswp hrun) hx
    cases hact
    cases hc with
    | alloc hout => exact ⟨a, c', hrun, ha, (liballoc_ok_iff ha).mpr hout⟩

/-- A second allocation by a new process. -/
theorem allocExact_iff_second : ∃ h s a, Run sysCall (MemSys.boot 4096 4096) h s ∧
    h.map Entry.act = [(0, .alloc 300 0)] ∧ (s.mm 0).Single a ∧ AllocServed (s.caller 0) a 200 1 ∧
    (AllocDone (s.caller 0) a 200 1 ↔ AllocServed (s.caller 0) a 200 1) := by
  obtain ⟨h, s, hrun, hact, hp⟩ := exists_run_of_replay sysCall (MemSys.boot 4096 4096) [(0, .alloc 300 0)]
    (fun h s => decide ((∀ e ∈ h, e.act.1 = 0 → (e.before.mm 0).AllocFits e.act.2) ∧
      (s.mm 0).AllocFits (.alloc 200 1) ∧ ∀ a ∈ (s.mm 0).mmap, freshStart a + freshPages a 200 ≤ PAGING_MAX_PGN))
    (by decide +kernel)
  obtain ⟨hfits, hfit, hpages⟩ := of_decide_eq_true hp
  obtain ⟨a, ha⟩ := (run_ok (by decide) (by decide) hrun).single 0
  have hmem : a ∈ (s.mm 0).mmap := ha.mmap ▸ List.mem_singleton_self a
  have hmap : (s.caller 0).MapFits (freshStart a) (freshPages a (200 : Nat)) := fun _ => .inr (hpages a hmem)
  exact ⟨h, s, a, hrun, hact, ha, .inr ⟨by decide, hfit (by decide) a hmem, .inl (by decide), hmap⟩,
    allocExact_iff (by decide) (by decide) hrun hfits ha⟩

/-- A size of `2 ^ 32 - 100` is a size of -100: the region ends below its start, and the break is lowered. -/
theorem alloc_inexact : (∃ h s, Run sysCall (MemSys.boot 4096 4096) h s ∧
      h.map Entry.act = [(0, .alloc 4294967196 1), (0, .alloc 300 0)] ∧ h.map (·.res.ret) = [0, 0] ∧
      (s.mm 0).symrgtbl 1 = ⟨0, 812, 712⟩ ∧ (s.mm 0).mmap.map (·.sbrk) = [712]) ∧
    ¬ ∀ ram swp : Nat, ram < 2 ^ 31 → swp < 2 ^ 31 → ∀ h s, Run sysCall (MemSys.boot ram swp) h s →
      ∀ pid a, (s.mm pid).Single a → ∀ size < 2 ^ 32, ∀ regIndex, AllocDone (s.caller pid) a size regIndex := by
  obtain ⟨h, s, hrun, hact, hp⟩ := exists_run_of_replay sysCall (MemSys.boot 4096 4096)
    [(0, .alloc 4294967196 1), (0, .alloc 300 0)]
    (fun h s => decide (h.map (·.res.ret) = [0, 0] ∧ (s.mm 0).symrgtbl 1 = ⟨0, 812, 712⟩ ∧
      (s.mm 0).mmap.map (·.sbrk) = [712])) (by decide +kernel)
  obtain ⟨hret, hrg, hsbrk⟩ := of_decide_eq_true hp
  refine ⟨⟨h, s, hrun, hact, hret, hrg, hsbrk⟩, fun hall => ?_⟩
  obtain ⟨e, h, rfl⟩ := List.exists_cons_of_ne_nil (show h ≠ [] by rintro rfl; cases hact)
  obtain ⟨a, c', hrun', hm, hx⟩ := run_liballoc (by decide) (by decide) hrun (List.cons.inj hact).1
  have hret : e.res.ret = 0 := (List.cons.inj hret).1
  obtain ⟨ret, c₁, hx₁, hdone⟩ :=
    hall 4096 4096 (by decide) (by decide) h e.before hrun' 0 a hm 4294967196 (by decide) 1
  cases hx.symm.trans hx₁
  obtain ⟨a', -, hexact⟩ := hdone.resolve_left fun hne => hne hret
  exact absurd hexact.operand (by decide)

end SimpleOs.Mm
