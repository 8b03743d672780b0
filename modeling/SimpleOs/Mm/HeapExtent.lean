import SimpleOs.Mm.Regions

/-!
# The extent of the heap

* `HeapExtent` : break, end of the area, live regions and mapped pages in agreement;
* `growthDemand` : the frames a growth needs;
* `Break` : what holds of break and end instead: after the first growth the break has been moved twice
  and lies above the end; `AllocCase.break` : an allocation keeps it;
* `heapExtent_iff` : the extent is right exactly until the first allocation.
-/

namespace SimpleOs.Mm
open CInt

/-- The heap of area `a` extends from `vm_start` to `sbrk`, below the page-aligned `vm_end`, holds the
live regions, and all its pages are mapped. -/
structure HeapExtent (mm : MmStruct) (a : VmAreaStruct) : Prop where
  start : a.vmStart ≤ a.sbrk
  brk : a.sbrk ≤ a.vmEnd
  align : PAGING_PAGESZ ∣ a.vmEnd
  live : ∀ i < PAGING_MAX_SYMTBL_SZ, (mm.symrgtbl i).rgStart < (mm.symrgtbl i).rgEnd →
    a.vmStart ≤ (mm.symrgtbl i).rgStart ∧ (mm.symrgtbl i).rgEnd ≤ a.sbrk
  mapped : ∀ p, p * PAGING_PAGESZ < a.vmEnd → pagingPagePresent (mm.pgd p) = true

/-- The frames a growth by a request of `size` bytes needs; none when the request is served without
growth. -/
def growthDemand (a : VmAreaStruct) (size : Int) : Nat :=
  if servedFree a size = true ∨ size ≤ gapSize a (toInt a.sbrk) then 0
  else ((growthAmt size).tdiv PAGING_PAGESZ).toNat

/-- A `liballoc` that grows the heap of process `pid` finds the frames it needs. -/
def MemSys.GrowthFits (s : MemSys) (pid : Nat) : MemCall → Prop
  | .alloc size _ => ∀ a ∈ (s.mm pid).mmap, growthDemand a (toInt size) ≤ (s.dev .mram).freeFpList.length
  | _ => True

instance (s : MemSys) (pid : Nat) : DecidablePred (s.GrowthFits pid)
  | .alloc size _ =>
    inferInstanceAs (Decidable (∀ a ∈ (s.mm pid).mmap, growthDemand a (toInt size) ≤ (s.dev .mram).freeFpList.length))
  | .free _ => inferInstanceAs (Decidable True)
  | .read _ _ => inferInstanceAs (Decidable True)
  | .write _ _ _ => inferInstanceAs (Decidable True)

/-! ## The break is moved twice -/

/-- End and break of an area whose process holds `vm_end` bytes of the RAM frames, `free` of which are
left: once the area has grown the break is above its end. -/
structure Break (ram free : Nat) (a : VmAreaStruct) : Prop where
  start : a.vmStart = 0
  align : PAGING_PAGESZ ∣ a.vmEnd
  brk : a.vmEnd ≤ a.sbrk
  above : 0 < a.vmEnd → a.vmEnd < a.sbrk
  twice : a.sbrk ≤ 2 * a.vmEnd
  frames : a.vmEnd + free * PAGING_PAGESZ ≤ ram

variable {ram free : Nat} {a a' : VmAreaStruct} {size inc : Int} {rg : VmRgStruct}

theorem Break.gap (h : Break ram free a) (hram : ram < 2 ^ 31) : gapSize a (toInt a.sbrk) ≤ 0 := by
  have := h.brk
  have := h.twice
  have := h.frames
  unfold gapSize toInt toULong
  omega

theorem Break.no_overlap (h : Break ram free a) (hinc : 0 ≤ inc) (hend : a.vmEnd + inc < 2 ^ 31) :
    growthOverlaps a inc = false := by
  have hstart := h.start
  have htwice := h.twice
  have habove := h.above
  have hend' : (brkEnd a inc : Int) = a.sbrk + inc := toULong_add hinc (by omega)
  rcases Nat.eq_zero_or_pos a.vmEnd with h0 | hpos
  · simp only [growthOverlaps, hstart, h0, ne_eq, not_true_eq_false, decide_false, Bool.false_and]
  · have hlo : a.vmEnd < toULong (toInt a.sbrk) := by unfold toInt toULong; omega
    have hhi : a.vmEnd < toULong (toInt (brkEnd a inc)) := by rw [hend']; unfold toInt toULong; omega
    simp only [growthOverlaps, overlapsVma, hstart, Nat.not_le.mpr hlo, Nat.not_le.mpr hhi, decide_false,
      Bool.and_false, Bool.or_false, Bool.false_and, Nat.not_le.mpr (Nat.zero_lt_of_lt hlo)]

/-- An allocation keeps the break above the end, and uses up the frames it maps. -/
theorem AllocCase.break (h : AllocCase a size a' rg) (hB : Break ram free a) (hram : ram < 2 ^ 31)
    (h₁ : 1 ≤ size) (h₂ : size ≤ 2 ^ 20) (hd : growthDemand a size ≤ free) :
    Break ram (free - freshPages a size) a' ∧ a.vmEnd ≤ a'.vmEnd ∧ (servedFree a size = false → 0 < a'.vmEnd) := by
  cases h with
  | reuse hfs =>
    have hfresh : freshPages a size = 0 := by simp only [freshPages, hfs, true_or, if_true]
    have hserved : servedFree a size = true := by simp only [servedFree, hfs, decide_true]
    rw [hfresh, Nat.sub_zero]
    refine ⟨⟨hB.start, hB.align, hB.brk, hB.above, hB.twice, hB.frames⟩, le_rfl, fun h => ?_⟩
    rw [hserved] at h
    cases h
  | gap hfs hret hgap =>
    have := hB.gap hram
    omega
  | @grow ret o l hfs hret hgap =>
    have hsz : (PAGING_PAGESZ : Int) = 256 := rfl
    have hinc := growthAmt_spec (show 0 ≤ size by omega) (by rw [hsz]; omega)
    have hserved : servedFree a size = false := by simp only [servedFree, hfs, hret, decide_false]
    rw [growthDemand, if_neg (by rw [hserved]; exact not_or.mpr ⟨Bool.false_ne_true, hgap⟩)] at hd
    have hframes : a.vmEnd + free * 256 ≤ ram := hB.frames
    have halign : 256 ∣ a.vmEnd := hB.align
    have htwice := hB.twice
    have hbrk := hB.brk
    have habove := hB.above
    rw [hsz] at hinc
    have hdiv : ((growthAmt size).tdiv PAGING_PAGESZ).toNat * 256 = (growthAmt size).toNat := by
      rw [hsz, Int.tdiv_eq_ediv_of_nonneg (by omega)]
      omega
    have hno := hB.no_overlap (show 0 ≤ growthAmt size by omega) (by omega)
    have hfresh : freshPages a size = ((growthAmt size).tdiv PAGING_PAGESZ).toNat := by
      simp only [freshPages, hfs, hret, hgap, or_self, if_false, grownPages, hno, Bool.false_eq_true]
    have hsbrk := grow_sbrk (a := a) l (show 0 ≤ size by omega) (by omega) (by omega)
    have hend : ((advance (grownArea { a with vmFreergList := l } (growthAmt size)) size).vmEnd : Int) =
        a.vmEnd + growthAmt size := by
      have hno' : growthOverlaps { a with vmFreergList := l } (growthAmt size) = false := hno
      have hvm : toInt a.vmEnd = a.vmEnd := toInt_of_bounds (by omega) (by omega)
      simp only [advance, grownArea, hno', Bool.false_eq_true, if_false]
      rw [hvm, toInt_of_bounds (by omega) (by omega)]
      exact toULong_of_nonneg (by omega) (by omega)
    have hstart : (advance (grownArea { a with vmFreergList := l } (growthAmt size)) size).vmStart = 0 := by
      simp only [advance, grownArea]
      split <;> exact hB.start
    generalize advance (grownArea { a with vmFreergList := l } (growthAmt size)) size = a' at *
    rw [hfresh]
    refine ⟨⟨hstart, ?_, by omega, by omega, by omega, ?_⟩, by omega, fun _ => by omega⟩
    · show 256 ∣ a'.vmEnd
      omega
    · show a'.vmEnd + _ * 256 ≤ ram
      omega

theorem Break.mono {free' : Nat} (h : Break ram free a) (hle : free' ≤ free) : Break ram free' a where
  start := h.start
  align := h.align
  brk := h.brk
  above := h.above
  twice := h.twice
  frames := (Nat.add_le_add_left (Nat.mul_le_mul_right _ hle) _).trans h.frames

/-! ## Runs -/

structure Untouched (mm : MmStruct) (a : VmAreaStruct) : Prop where
  vmEnd : a.vmEnd = 0
  free : FreeOk 0 a.vmFreergList
  empty : ∀ i < PAGING_MAX_SYMTBL_SZ, (mm.symrgtbl i).rgEnd ≤ (mm.symrgtbl i).rgStart

theorem Untouched.not_served {mm : MmStruct} (h : Untouched mm a) (h₁ : 1 ≤ size) (h₂ : size ≤ 2 ^ 20) :
    servedFree a size = false := by
  unfold servedFree
  cases hfs : freeSearchList 0 size a.vmFreergList with
  | error e => rfl
  | ok y =>
    obtain ⟨ret, o, l⟩ := y
    rcases freeSearchList_spec (show 0 ≤ size by omega) (by omega) h.free hfs with ⟨-, nr, -, hcut⟩ | ⟨rfl, -⟩
    · have := hcut.size
      have := hcut.bound
      omega
    · rfl

theorem Untouched.extent {mm : MmStruct} (h : Untouched mm a) (hB : Break ram free a) : HeapExtent mm a where
  start := hB.start ▸ Nat.zero_le _
  brk := by have := hB.twice; have := h.vmEnd; omega
  align := hB.align
  live := fun i hi hlt => absurd hlt (Nat.not_lt.mpr (h.empty i hi))
  mapped := fun p hp => by rw [h.vmEnd] at hp; exact absurd hp (Nat.not_lt_zero _)

theorem Break.not_extent {mm : MmStruct} (h : Break ram free a) (hpos : 0 < a.vmEnd) : ¬ HeapExtent mm a :=
  fun he => Nat.not_lt.mpr he.brk (h.above hpos)

variable {c c' : Caller} {call : MemCall} {r : MemResult}

/-- A call that allocates nothing leaves break and end, and an untouched address space untouched. -/
theorem CallOutcome.no_alloc (h : CallOutcome c a call r c') (hm : c.mm.Single a) (hcall : ¬ call.Allocates) :
    ∃ l, c'.mm.Single { a with vmFreergList := l } ∧
      (Untouched c.mm a → Untouched c'.mm { a with vmFreergList := l }) := by
  cases h.regionCase hm with
  | same ha hsym => exact ⟨a.vmFreergList, ha, fun hu => ⟨hu.vmEnd, hu.free, hsym ▸ hu.empty⟩⟩
  | placed hv => exact absurd hv hcall
  | @freed regIndex rg l mm' hv hrg hl ha hsym =>
    refine ⟨l, ha, fun hu => ⟨hu.vmEnd, ?_, fun j hj => ?_⟩⟩
    · rcases hl with rfl | ⟨hlt, -⟩
      · exact hu.free
      · have := hrg ▸ hu.empty _ hv.toNat_lt
        omega
    · rw [hsym]
      by_cases hji : j = (toInt regIndex).toNat
      · rw [hji, Function.update_self]
        exact le_rfl
      · rw [Function.update_of_ne hji]
        exact hu.empty j hj

theorem CallOutcome.alloc_cases (h : CallOutcome c a call r c') (hm : c.mm.Single a) (hcall : call.Allocates) :
    ∃ size regIndex a' rg, call = .alloc size regIndex ∧ AllocCase a (toInt size) a' rg ∧ c'.mm.Single a' ∧
      (c'.dev .mram).freeFpList = (c.dev .mram).freeFpList.drop (freshPages a (toInt size)) := by
  cases h with
  | @alloc size regIndex ret c' h =>
    cases h with
    | refused h => exact absurd h (ValidRg.not_refused hcall)
    | @placed a' rg hv hcase =>
      refine ⟨size, regIndex, a', rg, rfl, hcase, ⟨rfl, hcase.vmId.trans hm.vmId⟩, ?_⟩
      simp only [Caller.place, Caller.mapRam_dev, Function.update_self]
  | free => cases hcall
  | read => cases hcall
  | write => cases hcall

/-- What holds of process `pid` after the calls `h`. -/
def HeapPhase (ram swp pid : Nat) (h : History) (s : MemSys) : Prop :=
  s.Ok ram swp ∧ ∃ a, (s.mm pid).Single a ∧ Break ram (s.dev .mram).freeFpList.length a ∧
    ((∀ e ∈ h, e.act.1 = pid → ¬ e.act.2.Allocates) → Untouched (s.mm pid) a) ∧
    ((∃ e ∈ h, e.act.1 = pid ∧ e.act.2.Allocates) → 0 < a.vmEnd)

variable {swp pid : Nat} {s s' : MemSys} {h : History}

theorem heapPhase_boot (hram : ram < 2 ^ 31) (hswp : swp < 2 ^ 31) :
    HeapPhase ram swp pid [] (MemSys.boot ram swp) := by
  refine ⟨boot_ok hram hswp, _, ⟨rfl, rfl⟩, ⟨rfl, Nat.dvd_zero _, le_rfl, fun h => h, le_rfl, ?_⟩,
    fun _ => ⟨rfl, ?_, fun _ _ => le_rfl⟩, fun ⟨e, he, _⟩ => absurd he List.not_mem_nil⟩
  · simp only [MemSys.boot, initMemphy_zeroed, List.length_range]
    rw [Nat.zero_add]
    exact Nat.div_mul_le_self ..
  · intro rg hrg
    rw [List.mem_singleton.mp hrg]
    exact ⟨le_rfl, le_rfl⟩

theorem heapPhase_step {act : Nat × MemCall} (hram : ram < 2 ^ 31) (hI : HeapPhase ram swp pid h s)
    (hC : act.1 = pid → act.2.SizeOk ∧ s.GrowthFits pid act.2) (hx : sysCall s act = .ok (r, s')) :
    HeapPhase ram swp pid (⟨s, act, r⟩ :: h) s' := by
  obtain ⟨hs, a, ha, hB, hu, hp⟩ := hI
  refine ⟨sysCall_ok hs hx, ?_⟩
  obtain ⟨b, c', hb, hc, rfl⟩ := sysCall_cases hs hx
  by_cases hpid : act.1 = pid
  · subst hpid
    cases hb.mmap.symm.trans ha.mmap
    simp only [MemSys.after_mm_self, MemSys.after_dev, List.mem_cons, forall_eq_or_imp, exists_eq_or_imp,
      forall_true_left, true_and]
    by_cases hal : act.2.Allocates
    · obtain ⟨size, regIndex, a', rg, hcall, hcase, ha', hfree⟩ := hc.alloc_cases ha hal
      obtain ⟨hsize, hfits⟩ := hC rfl
      rw [hcall] at hsize hfits
      have hn := SizeOk.toInt hsize
      have hd := hfits a (ha.mmap ▸ List.mem_singleton_self a)
      have hle := hsize.1
      have hle' := hsize.2
      obtain ⟨hB', hmono, hserved⟩ := hcase.break hB hram (by omega) (by omega) hd
      refine ⟨a', ha', by rwa [hfree, List.length_drop], fun h => absurd hal h.1, fun _ => ?_⟩
      by_cases hq : ∃ e ∈ h, e.act.1 = act.1 ∧ e.act.2.Allocates
      · have := hp hq
        omega
      · have hunt := hu fun e he hpid hal => hq ⟨e, he, hpid, hal⟩
        exact hserved (hunt.not_served (by omega) (by omega))
    · obtain ⟨l, ha', hu'⟩ := hc.no_alloc ha hal
      have hB' := hB.mono (hc.devKept.free .mram).length_le
      refine ⟨_, ha', ⟨hB'.start, hB'.align, hB'.brk, hB'.above, hB'.twice, hB'.frames⟩, fun h => hu' (hu h.2), ?_⟩
      exact fun hq => hp (hq.resolve_left hal)
  · have hpid' := Ne.symm hpid
    simp only [MemSys.after_mm_of_ne _ hpid', MemSys.after_dev, List.mem_cons, forall_eq_or_imp, exists_eq_or_imp,
      hpid, false_implies, true_and, false_and, false_or]
    exact ⟨a, ha, hB.mono (hc.devKept.free .mram).length_le, hu, hp⟩

/-- The extent of the heap is right exactly as long as nothing was allocated: the first growth moves
`sbrk` above `vm_end`, where it stays. -/
theorem heapExtent_iff (hram : ram < 2 ^ 31) (hswp : swp < 2 ^ 31) (hrun : Run sysCall (MemSys.boot ram swp) h s)
    (hcalls : ∀ e ∈ h, e.act.1 = pid → e.act.2.SizeOk ∧ e.before.GrowthFits pid e.act.2) :
    (∀ a ∈ (s.mm pid).mmap, HeapExtent (s.mm pid) a) ↔ ∀ e ∈ h, e.act.1 = pid → ¬ e.act.2.Allocates := by
  obtain ⟨-, a, ha, hB, hu, hp⟩ := hrun.guarded (I := HeapPhase ram swp pid)
    (C := fun s act => act.1 = pid → act.2.SizeOk ∧ s.GrowthFits pid act.2) (heapPhase_boot hram hswp)
    (fun _ _ _ _ _ hI hC hx => heapPhase_step hram hI hC hx) hcalls
  rw [ha.mmap]
  simp only [List.mem_singleton, forall_eq]
  constructor
  · intro hext e he hpid hal
    exact hB.not_extent (hp ⟨e, he, hpid, hal⟩) hext
  · intro hno
    exact (hu hno).extent hB

theorem heapExtent_iff_first : ∃ h s, Run sysCall (MemSys.boot 2048 4096) h s ∧
    h.map Entry.act = [(0, .alloc 300 0)] ∧ ((∀ a ∈ (s.mm 0).mmap, HeapExtent (s.mm 0) a) ↔
      ∀ e ∈ h, e.act.1 = 0 → ¬ e.act.2.Allocates) := by
  obtain ⟨h, s, hrun, hact, hp⟩ := exists_run_of_replay sysCall (MemSys.boot 2048 4096) [(0, .alloc 300 0)]
    (fun h _ => decide (∀ e ∈ h, e.act.1 = 0 → e.act.2.SizeOk ∧ e.before.GrowthFits 0 e.act.2)) (by decide +kernel)
  exact ⟨h, s, hrun, hact, heapExtent_iff (by decide) (by decide) hrun (of_decide_eq_true hp)⟩

/-- One allocation of 300 bytes: `vm_end` is 512 and `sbrk` 812. -/
theorem heapExtent_not_invariant : ¬ ∀ ram swp pid : Nat, ram < 2 ^ 31 → swp < 2 ^ 31 → ∀ h s,
    Run sysCall (MemSys.boot ram swp) h s →
    (∀ e ∈ h, e.act.1 = pid → e.act.2.SizeOk ∧ e.before.GrowthFits pid e.act.2) →
    ∀ a ∈ (s.mm pid).mmap, HeapExtent (s.mm pid) a := by
  intro hall
  obtain ⟨h, s, hrun, -, hp⟩ := exists_run_of_replay sysCall (MemSys.boot 2048 4096) [(0, .alloc 300 0)]
    (fun h s => decide ((∀ e ∈ h, e.act.1 = 0 → e.act.2.SizeOk ∧ e.before.GrowthFits 0 e.act.2) ∧
      ∃ a ∈ (s.mm 0).mmap, a.vmEnd = 512 ∧ a.sbrk = 812)) (by decide +kernel)
  obtain ⟨hcalls, a, ha, hend, hbrk⟩ := of_decide_eq_true hp
  have hle := (hall 2048 4096 0 (by decide) (by decide) h s hrun hcalls a ha).brk
  omega

end SimpleOs.Mm
