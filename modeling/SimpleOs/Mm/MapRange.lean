import SimpleOs.Mm.Frames

/-!
# Mapping a fresh range

* `MappedRange` : the pages of a range have the frames of a list, the last page the first frame;
* `vmapPageRange_eq`, `vmMapRam_eq` : the functions with everything they return; `vmMapRam_fresh` : what a
  call with frames enough leaves.
-/

namespace SimpleOs.Mm
open CInt

variable {c : Caller} {mapstart : Int} {n : Nat} {frames rest : List Nat}

/-- The region `vmap_page_range` returns for `n` mapped pages. -/
def mappedRegion (caller : Caller) (addr : Int) (n : Nat) : VmRgStruct where
  vmaid := match caller.mm.mmap with
    | vma :: _ => vma.vmId
    | [] => toULong (-1)
  rgStart := toULong addr
  rgEnd := toULong (toInt (addr + toInt (n * PAGING_PAGESZ)))

theorem vmapPageRange_eq (hlen : frames.length = n) (hfit : n = 0 ∨ pagingPgn mapstart + n ≤ PAGING_MAX_PGN) :
    vmapPageRange c mapstart n frames =
      .ok (0, mappedRegion c mapstart n, { c with mm := mapPages (pagingPgn mapstart) frames c.mm }) := by
  have hfit' : frames = [] ∨ pagingPgn mapstart + 0 + frames.length ≤ PAGING_MAX_PGN := by
    rw [← List.length_eq_zero_iff, hlen, Nat.add_zero]
    exact hfit
  have hloop : vmapPageRangeLoop (pagingPgn mapstart) n 0 frames c.mm =
      .ok (0 + frames.length, mapPages (pagingPgn mapstart + 0) frames c.mm) :=
    (vmapPageRangeLoop_ok_iff (by rw [hlen]; omega)).mpr ⟨hfit', rfl⟩
  rw [Nat.zero_add, Nat.add_zero, hlen] at hloop
  rw [vmapPageRange, hloop]
  rfl

theorem vmMapRam_eq (astart aend : Int) (hfree : (c.dev .mram).freeFpList = frames ++ rest) (hlen : frames.length = n)
    (hfit : n = 0 ∨ pagingPgn mapstart + n ≤ PAGING_MAX_PGN) :
    vmMapRam c astart aend mapstart n = .ok (0, some (mappedRegion c mapstart n),
      { c.withFree rest with mm := mapPages (pagingPgn mapstart) frames.reverse c.mm }) := by
  have htake : (frames ++ rest).take n = frames := by rw [← hlen, List.take_left]
  have hdrop : (frames ++ rest).drop n = rest := by rw [← hlen, List.drop_left]
  have hle : n ≤ (frames ++ rest).length := by rw [List.length_append]; omega
  have hmap : vmapPageRange (c.withFree rest) mapstart n frames.reverse = .ok (0, mappedRegion c mapstart n, _) :=
    vmapPageRange_eq (by rw [List.length_reverse, hlen]) hfit
  rw [vmMapRam, Int.toNat_natCast, allocPagesRange_eq, hfree, htake, hdrop, if_pos hle, List.append_nil]
  simp only [Int.lt_irrefl, false_and, if_false, show ¬ (0 : Int) = -3000 by decide, hmap, Exec.ok_bind,
    Exec.pure_eq_ok]
  rfl

/-! ## The result -/

/-- A fresh range is mapped: from state `c`, the `n` pages from page `p` on have been given the frames, in state `c'`.
The frames are gone from the free list, page `p + i` is in RAM in the frame `i` from the end of the list, the other
entries stay, the pages are enlisted in ascending order, and `rg` is the mapped range. -/
structure MappedRange (c : Caller) (p n : Nat) (frames rest : List Nat) (rg : VmRgStruct) (c' : Caller) : Prop where
  mram : c'.dev .mram = { c.dev .mram with freeFpList := rest }
  swap : c'.dev .activeMswp = c.dev .activeMswp
  mapped : ∀ i < n, InRam (c'.mm.pgd (p + i)) ∧ frames[n - 1 - i]? = some (pagingFpn (c'.mm.pgd (p + i)))
  others : ∀ q, q < p ∨ p + n ≤ q → c'.mm.pgd q = c.mm.pgd q
  queue : c'.mm.fifoPgn = (List.range' p n).reverse ++ c.mm.fifoPgn
  areas : c'.mm.mmap = c.mm.mmap ∧ c'.mm.symrgtbl = c.mm.symrgtbl
  rgStart : rg.rgStart = p * PAGING_PAGESZ
  rgEnd : rg.rgEnd = (p + n) * PAGING_PAGESZ

/-- The pages from page `p` on are given the frames of the list in reverse. -/
theorem mappedRange_mapPages {p : Nat} {rg : VmRgStruct} (hlen : frames.length = n) (hsmall : ∀ f ∈ frames, f < 2 ^ 13)
    (hstart : rg.rgStart = p * PAGING_PAGESZ) (hend : rg.rgEnd = (p + n) * PAGING_PAGESZ) :
    MappedRange c p n frames rest rg { c.withFree rest with mm := mapPages p frames.reverse c.mm } where
  mram := c.withFree_mram rest
  swap := c.withFree_swp rest
  mapped := by
    intro i hi
    have hi' : i < frames.reverse.length := by rw [List.length_reverse]; omega
    have hlast : n - 1 - i < frames.length := by omega
    have hframe : frames.reverse[i] = frames[n - 1 - i] := by
      rw [List.getElem_reverse]
      simp only [hlen]
    have hlt : frames[n - 1 - i] < 2 ^ 13 := hsmall _ (List.getElem_mem _)
    dsimp only
    rw [mapPages_pgd_of_mem hi', pagingFpn_setFpn, hframe, Nat.mod_eq_of_lt hlt, List.getElem?_eq_getElem hlast]
    exact ⟨inRam_setFpn .., rfl⟩
  others := fun q hq => mapPages_pgd_of_notMem (by rwa [List.length_reverse, hlen])
  queue := by rw [mapPages_fifoPgn, List.length_reverse, hlen]
  areas := ⟨mapPages_mmap .., mapPages_symrgtbl ..⟩
  rgStart := hstart
  rgEnd := hend

/-- `vm_map_ram` maps a fresh range. -/
theorem vmMapRam_fresh (astart aend : Int) (h₀ : 0 ≤ mapstart) (halign : mapstart % PAGING_PAGESZ = 0)
    (hfit : mapstart / PAGING_PAGESZ + n ≤ PAGING_MAX_PGN) (hfree : (c.dev .mram).freeFpList = frames ++ rest)
    (hlen : frames.length = n) (hsmall : ∀ f ∈ frames, f < 2 ^ 13) :
    ∃ rg c', vmMapRam c astart aend mapstart n = .ok (0, some rg, c') ∧
      MappedRange c (mapstart / PAGING_PAGESZ).toNat n frames rest rg c' := by
  have hmax : PAGING_MAX_PGN = 16384 := by decide
  have hpgn := pagingPgn_eq mapstart
  rw [hmax] at hfit
  unfold PAGING_PAGESZ at halign hfit ⊢
  have hstart : toULong mapstart = (mapstart / 256).toNat * 256 := by unfold toULong; omega
  have hend : toULong (toInt (mapstart + toInt (n * 256))) = ((mapstart / 256).toNat + n) * 256 := by
    unfold toULong toInt; omega
  rcases Nat.eq_zero_or_pos n with rfl | hn
  · rw [List.length_eq_zero_iff] at hlen
    subst hlen
    refine ⟨_, _, vmMapRam_eq astart aend hfree rfl (.inl rfl), ?_⟩
    exact mappedRange_mapPages rfl hsmall hstart hend
  · have hp : pagingPgn mapstart = (mapstart / 256).toNat := by omega
    refine ⟨_, _, vmMapRam_eq astart aend hfree hlen (.inr (by rw [hmax]; omega)), ?_⟩
    rw [hp]
    exact mappedRange_mapPages hlen hsmall hstart hend

/-- Two pages of a new process. -/
theorem vmMapRam_fresh_two : ∃ rg c',
    vmMapRam ⟨initMm .zeroed, fun _ => initMemphy .zeroed 1024 true⟩ 0 512 256 (2 : Nat) = .ok (0, some rg, c') ∧
      MappedRange ⟨initMm .zeroed, fun _ => initMemphy .zeroed 1024 true⟩ ((256 : Int) / PAGING_PAGESZ).toNat 2
        [0, 1] [2, 3]
        rg c' :=
  vmMapRam_fresh 0 512 (by decide) (by decide) (by decide) (by decide) rfl (by decide)

end SimpleOs.Mm
