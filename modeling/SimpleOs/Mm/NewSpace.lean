import SimpleOs.Mm.Alike

/-!
# New address spaces

* `NewSpace` : an address space as it should be after `init_mm`; `Leftovers` : what two of them have to agree in for no
  call to tell them apart, the slot fields of the page table and the addresses the empty regions start on;
* `memCall_alloc_grows` : allocations that grow the area; `reaches_prepared` : calls after which a page that is still
  absent can be read;
* `NewSpace.sameResults_iff` : new address spaces cannot be told apart if and only if they agree in their leftovers.
-/

namespace SimpleOs.Mm
open CInt

structure NewSpace (mm : MmStruct) : Prop where
  area : ∃ n, mm.mmap = [⟨0, 0, 0, 0, newRegions n⟩]
  absent : ∀ p < PAGING_MAX_PGN, pagingPagePresent (mm.pgd p) = false
  fifo : mm.fifoPgn = []
  empty : ∀ r < PAGING_MAX_SYMTBL_SZ, (mm.symrgtbl r).rgEnd ≤ (mm.symrgtbl r).rgStart

/-- The page tables agree in their slot fields, the symbol tables in the addresses the regions start on. -/
structure Leftovers (pgd pgd' : Nat → Word) (symrgtbl symrgtbl' : Nat → VmRgStruct) : Prop where
  slot : ∀ p < PAGING_MAX_PGN, pagingPteSwp (pgd' p) = pagingPteSwp (pgd p)
  start : ∀ r < PAGING_MAX_SYMTBL_SZ,
    (symrgtbl' r).rgStart % 2 ^ PAGING_CPU_BUS_WIDTH = (symrgtbl r).rgStart % 2 ^ PAGING_CPU_BUS_WIDTH

variable {mm mm' : MmStruct} {c c' : Caller} {n p : Nat} {dev : Dev → MemphyStruct}

theorem NewSpace.alike (h : NewSpace mm) (h' : NewSpace mm')
    (hsame : Leftovers mm.pgd mm'.pgd mm.symrgtbl mm'.symrgtbl) :
    Alike mm mm' where
  area := by
    obtain ⟨n, ha⟩ := h.area
    obtain ⟨n', ha'⟩ := h'.area
    exact ⟨_, _, ⟨ha, rfl⟩, ⟨ha', rfl⟩, AreaAlike.mk (l := []) (n := n) n' (fun _ hrg => nomatch hrg) rfl⟩
  pgd := fun p hp => by
    refine ⟨(h'.absent p hp).trans (h.absent p hp).symm, fun hpres => ?_, fun _ => hsame.slot p hp⟩
    rw [h.absent p hp] at hpres
    cases hpres
  fifo := h'.fifo.trans h.fifo.symm
  queued := fun p hp => by
    rw [h.fifo] at hp
    cases hp
  symrgtbl := fun r hr => ⟨hsame.start r hr, .inr ⟨h.empty r hr, h'.empty r hr⟩⟩

/-! ## Calls on a new address space -/

theorem freeSearchList_new {size : Int} (hz : toULong size ≠ 0) (n : Nat) :
    freeSearchList 0 size (newRegions n) = .ok (-1, some (toULong (-1), toULong (-1)), newRegions n) := by
  have hne : newRegions n ≠ [] := List.cons_ne_nil _ _
  rw [freeSearchList_eq hne, searchFrom_newRegions, if_neg hz, Exec.ok_bind]
  rfl

/-- A request of `size` bytes that makes an area with end `e` and break `s` grow to end `e'` and break `s'`, by
`k` pages from `start` on. -/
structure GrowsTo (size : Int) (e s e' s' start k : Nat) : Prop where
  some : toULong size ≠ 0
  noGap : ¬ size ≤ gapSize ⟨0, 0, e, s, []⟩ (toInt s)
  area : advance (grownArea ⟨0, 0, e, s, []⟩ (growthAmt size)) size = ⟨0, 0, e', s', []⟩
  pages : grownPages ⟨0, 0, e, s, []⟩ (growthAmt size) = k
  start : freshStart ⟨0, 0, e, s, []⟩ = start

variable {size : Int} {e s e' s' start k : Nat}

theorem GrowsTo.freshPages (h : GrowsTo size e s e' s' start k) (n : Nat) :
    freshPages ⟨0, 0, e, s, newRegions n⟩ size = k := by
  rw [← h.pages, Mm.freshPages]
  simp only [freeSearchList_new h.some n]
  refine if_neg (not_or.mpr ⟨by decide, h.noGap⟩)

theorem GrowsTo.allocCase (h : GrowsTo size e s e' s' start k) (n : Nat) :
    AllocCase ⟨0, 0, e, s, newRegions n⟩ size ⟨0, 0, e', s', newRegions n⟩ (brkRegion ⟨0, 0, e, s, []⟩ size) := by
  have hgrown : advance (grownArea ⟨0, 0, e, s, newRegions n⟩ (growthAmt size)) size =
      ⟨0, 0, e', s', newRegions n⟩ := by
    have hlist : grownArea ⟨0, 0, e, s, newRegions n⟩ (growthAmt size) = _ :=
      grownArea_list ⟨0, 0, e, s, []⟩ (growthAmt size) (newRegions n)
    rw [hlist]
    exact congrArg (fun a : VmAreaStruct => { a with vmFreergList := newRegions n }) h.area
  rw [← hgrown]
  exact .grow (freeSearchList_new h.some n) (by decide) h.noGap

theorem memCall_alloc_grows {size regIndex : Nat} (h : GrowsTo (toInt size) e s e' s' start k)
    (hm : c.mm.Single ⟨0, 0, e, s, newRegions n⟩) (hv : ValidRg (toInt regIndex)) (hd : DevOk c.dev)
    (hfits : c.MapFits start k) : memCall c (.alloc size regIndex) = .ok (⟨0, none⟩,
      (c.mapRam start k).place ⟨0, 0, e', s', newRegions n⟩ (toInt regIndex)
        (brkRegion ⟨0, 0, e, s, []⟩ (toInt size))) := by
  have hstart : freshStart ⟨0, 0, e, s, newRegions n⟩ = start := h.start
  have hfits' : c.MapFits (freshStart ⟨0, 0, e, s, newRegions n⟩)
      (freshPages ⟨0, 0, e, s, newRegions n⟩ (toInt size)) := by
    rw [hstart, h.freshPages]
    exact hfits
  have hout := AllocOutcome.placed hv (h.allocCase n) hfits'
  rw [hstart, h.freshPages] at hout
  exact (memCall_ok_iff hm hd).mpr (.alloc hout)

theorem growsTo_first : GrowsTo (toInt (1 : Nat)) 0 0 256 257 0 1 :=
  ⟨by decide, by decide, by decide, by decide, by decide⟩

/-- A size that wraps when it is rounded up moves the end of a new area to page 2, and maps nothing. -/
theorem growsTo_wrapped : GrowsTo (toInt (2147483647 : Nat)) 0 0 18446744071562068480 511 0 0 :=
  ⟨by decide, by decide, by decide, by decide, by decide⟩

theorem growsTo_negative :
    GrowsTo (toInt (3221225728 : Nat)) 18446744071562068480 511 18446744071562068480 18446744071562069503 2 0 :=
  ⟨by decide, by decide, by decide, by decide, by decide⟩

theorem growsTo_second :
    GrowsTo (toInt (1 : Nat)) 18446744071562068480 18446744071562069503 18446744071562068736 18446744071562069760 2 1 :=
  ⟨by decide, by decide, by decide, by decide, by decide⟩

/-! ## Calls that make a page readable -/

/-- Page `v` is mapped to the one frame there was and alone in the queue; the other entries and the devices are
as before. -/
structure Prepared (pgd : Nat → Word) (dev : Dev → MemphyStruct) (v : Nat) (c : Caller) : Prop where
  single : ∃ a, c.mm.Single a
  pgd : c.mm.pgd = Function.update pgd v (pteSetFpn (pgd v) 0)
  fifo : c.mm.fifoPgn = [v]
  ram : c.dev .mram = { dev .mram with freeFpList := [] }
  swp : c.dev .activeMswp = dev .activeMswp

theorem Prepared.devOk {pgd : Nat → Word} {v : Nat} (h : Prepared pgd dev v c) (hd : DevOk dev) : DevOk c.dev := by
  have hkept : DevKept dev c.dev := by
    constructor <;> intro k <;> cases k
    · rw [h.ram]
    · rw [h.swp]
    · rw [h.ram]
    · rw [h.swp]
    · rw [h.ram]
      exact List.nil_suffix
    · rw [h.swp]
  exact hkept.devOk hd

theorem Prepared.of_mapRam (c : Caller) {v : Nat} {rg : VmRgStruct} {a : VmAreaStruct} {rgid : Int} (hid : a.vmId = 0)
    (hfifo : c.mm.fifoPgn = []) (hfree : (c.dev .mram).freeFpList = [0]) :
    Prepared c.mm.pgd c.dev v ((c.mapRam v 1).place a rgid rg) := by
  have hmm : (c.mapRam v 1).mm = mapPage c.mm v 0 := by
    rw [Caller.mapRam_of_le (by rw [hfree]; exact le_rfl), hfree]
    rfl
  refine ⟨⟨a, rfl, hid⟩, ?_, ?_, ?_, ?_⟩
  · simp only [Caller.place, hmm, mapPage_pgd]
  · simp only [Caller.place, hmm, mapPage, hfifo, enlistPgnNode]
  · simp only [Caller.place, Caller.mapRam_dev, Function.update_self, hfree, List.drop_succ_cons, List.drop_zero]
  · simp only [Caller.place, Caller.mapRam_dev, Function.update_of_ne (show Dev.activeMswp ≠ .mram by decide)]

theorem validRg_of_lt {r : Nat} (hr : r < PAGING_MAX_SYMTBL_SZ) : ValidRg (toInt r) ∧ (toInt r).toNat = r := by
  have hmax : PAGING_MAX_SYMTBL_SZ = 30 := rfl
  rw [toInt_of_bounds (by omega) (by omega)]
  exact ⟨⟨by omega, by omega⟩, Int.toNat_natCast r⟩

theorem reaches_first (h : NewSpace mm) (hd : DevOk dev) (hfree : (dev .mram).freeFpList = [0]) {r : Nat}
    (hr : r < PAGING_MAX_SYMTBL_SZ) :
      ∃ c, Reaches memCall ⟨mm, dev⟩ [(.alloc 1 r, ⟨0, none⟩)] c ∧ Prepared mm.pgd dev 0 c ∧
      c.mm.symrgtbl = Function.update mm.symrgtbl r ⟨0, 0, 1⟩ := by
  obtain ⟨n, ha⟩ := h.area
  obtain ⟨hv, hr'⟩ := validRg_of_lt hr
  refine ⟨_, reaches_cons.mpr ⟨_, reaches_nil.mpr rfl, memCall_alloc_grows growsTo_first ⟨ha, rfl⟩ hv hd
    fun _ => .inr (by decide)⟩, .of_mapRam ⟨mm, dev⟩ rfl h.fifo hfree, ?_⟩
  rw [Caller.place_symrgtbl, Caller.mapRam_symrgtbl, hr']
  rfl

/-- The address space has the area with end `e` and break `s`, and no page yet. -/
structure Unmapped (mm : MmStruct) (dev : Dev → MemphyStruct) (n e s : Nat) (c : Caller) : Prop where
  area : c.mm.mmap = [⟨0, 0, e, s, newRegions n⟩]
  pgd : c.mm.pgd = mm.pgd
  fifo : c.mm.fifoPgn = mm.fifoPgn
  dev : c.dev = dev

theorem Unmapped.alloc (h : Unmapped mm dev n e s c) {size regIndex : Nat} (hg : GrowsTo (toInt size) e s e' s' start 0)
    (hv : ValidRg (toInt regIndex)) (hd : DevOk dev) :
    ∃ c', memCall c (.alloc size regIndex) = .ok (⟨0, none⟩, c') ∧ Unmapped mm dev n e' s' c' ∧
      c'.mm.symrgtbl = Function.update c.mm.symrgtbl (toInt regIndex).toNat
        (brkRegion ⟨0, 0, e, s, []⟩ (toInt size)) := by
  have hcall := memCall_alloc_grows hg ⟨h.area, rfl⟩ hv (h.dev ▸ hd) fun _ => .inl rfl
  rw [Caller.mapRam_zero] at hcall
  exact ⟨_, hcall, ⟨rfl, h.pgd, h.fifo, h.dev⟩, Caller.place_symrgtbl ..⟩

/-- The calls that map page 2 of a new address space and no other. -/
def mapSecond : List (MemCall × MemResult) :=
  [(.alloc 1 2, ⟨0, none⟩), (.alloc 3221225728 1, ⟨0, none⟩), (.alloc 2147483647 0, ⟨0, none⟩)]

theorem reaches_second (h : NewSpace mm) (hd : DevOk dev) (hfree : (dev .mram).freeFpList = [0]) :
    ∃ c, Reaches memCall ⟨mm, dev⟩ mapSecond c ∧ Prepared mm.pgd dev 2 c ∧ (c.mm.symrgtbl 0).rgStart = 0 := by
  obtain ⟨n, ha⟩ := h.area
  have hnew : Unmapped mm dev n 0 0 ⟨mm, dev⟩ := ⟨ha, rfl, rfl, rfl⟩
  obtain ⟨c₁, hc₁, h₁, hs₁⟩ := hnew.alloc growsTo_wrapped (show ValidRg (toInt (0 : Nat)) by decide) hd
  obtain ⟨c₂, hc₂, h₂, hs₂⟩ := h₁.alloc growsTo_negative (show ValidRg (toInt (1 : Nat)) by decide) hd
  have hc₃ := memCall_alloc_grows growsTo_second ⟨h₂.area, rfl⟩ (show ValidRg (toInt (2 : Nat)) by decide) (h₂.dev ▸ hd)
    fun _ => .inr (by decide)
  refine ⟨_, reaches_cons.mpr ⟨c₂, reaches_cons.mpr ⟨c₁, reaches_cons.mpr ⟨_, reaches_nil.mpr rfl, hc₁⟩, hc₂⟩, hc₃⟩,
    ?_, ?_⟩
  · rw [← h₂.pgd, ← h₂.dev]
    exact .of_mapRam c₂ rfl (h₂.fifo.trans h.fifo) (by rw [h₂.dev]; exact hfree)
  · rw [Caller.place_symrgtbl, Caller.mapRam_symrgtbl, hs₂, hs₁]
    rfl

/-! ## Reading an absent page -/

theorem accessPgn_of_start (rgid : Int) (h : (mm.symrgtbl rgid.toNat).rgStart = 0) (hp : p < PAGING_MAX_PGN) :
    accessPgn mm rgid (toInt (p * PAGING_PAGESZ : Nat)) = p := by
  have hp' : p < 16384 := hp
  have hint : toInt (p * PAGING_PAGESZ : Nat) = (p * 256 : Nat) :=
    toInt_of_bounds (by omega) (by unfold PAGING_PAGESZ; omega)
  have haddr : accessAddr mm rgid (p * 256 : Nat) % 4194304 = (p * 256 : Nat) % 4194304 := by
    rw [accessAddr, regionAddr_emod, h]
    omega
  have hpgn := pagingPgn_eq (p * 256 : Nat)
  rw [hint, accessPgn, (paging_congr haddr).1]
  omega

theorem Prepared.read_iff {pgd : Nat → Word} {v : Nat} (h : Prepared pgd dev v c) (hd : DevOk dev)
    (hstart : (c.mm.symrgtbl 0).rgStart = 0) (hp : p < PAGING_MAX_PGN) (habs : pagingPagePresent (pgd p) = false)
    (hne : p ≠ v) (hv : v < PAGING_MAX_PGN) (hram : PAGING_PAGESZ ≤ (dev .mram).maxsz)
    (hslot : (dev .activeMswp).freeFpList = [0]) :
    (∃ r c', memCall c (.read 0 (p * PAGING_PAGESZ)) = .ok (r, c')) ↔
      (pagingPteSwp (pgd p) + 1) * PAGING_PAGESZ ≤ (dev .activeMswp).maxsz := by
  obtain ⟨a, ha⟩ := h.single
  have hentry : c.mm.pgd p = pgd p := by rw [h.pgd, Function.update_of_ne hne]
  have hframe : pagingFpn (c.mm.pgd v) = 0 := by
    rw [h.pgd, Function.update_self, pagingFpn_setFpn, Nat.zero_mod]
  have hpgn : accessPgn c.mm (toInt (0 : Nat)) (toInt (p * PAGING_PAGESZ : Nat)) = p :=
    accessPgn_of_start (toInt (0 : Nat)) hstart hp
  simp only [memCall_ok_iff ha (h.devOk hd)]
  constructor
  · rintro ⟨r, c', - | - | hread | -⟩
    cases hread with
    | refused hr => exact absurd hr (ValidRg.not_refused (by decide))
    | noPage _ hpage =>
      rw [hpgn] at hpage
      cases hpage with
      | noVictim _ hq =>
        rw [h.fifo] at hq
        cases hq
    | byte _ hpage =>
      rw [hpgn] at hpage
      cases hpage with
      | hit hpres =>
        rw [hentry, habs] at hpres
        cases hpres
      | swapIn _ _ _ _ _ ht =>
        rw [hentry, h.swp] at ht
        exact ht
  · intro hfits
    have hpage : PageOutcome c p (some 0) (c.swapIn p [] v 0 []) := by
      have hswap : PageOutcome c p (some (pagingFpn (c.mm.pgd v))) (c.swapIn p [] v 0 []) :=
        .swapIn (by rw [hentry]; exact habs) h.fifo hv (by rw [h.swp]; exact hslot)
          (by rw [hframe, h.ram, Nat.zero_add, Nat.one_mul]; exact hram) (by rw [hentry, h.swp]; exact hfits)
      rwa [hframe] at hswap
    have hb : accessPhy c.mm (toInt (0 : Nat)) (toInt (p * PAGING_PAGESZ : Nat)) 0 <
        ((c.swapIn p [] v 0 []).dev .mram).maxsz := by
      have hoff := pagingOffst_lt (accessAddr c.mm (toInt (0 : Nat)) (toInt (p * PAGING_PAGESZ : Nat)))
      have hsz : ((c.swapIn p [] v 0 []).dev .mram).maxsz = (dev .mram).maxsz := by
        simp only [Caller.swapIn, exchange, h.ram]
      rw [accessPhy, hsz, Nat.zero_mul, Nat.zero_add]
      omega
    exact ⟨_, _, .read (.byte (by decide) (by rw [hpgn]; exact hpage) hb)⟩

/-! ## Telling new address spaces apart -/

/-- Devices with one frame of RAM, in which the first byte is marked. -/
def probeDev (slots : List Nat) (swp : Nat) : Dev → MemphyStruct
  | .mram => ⟨fun x => if x = 0 then 1 else 0, PAGING_PAGESZ, true, 0, [0]⟩
  | .activeMswp => ⟨fun _ => 0, swp, true, 0, slots⟩

theorem probeDev_ok {slots : List Nat} {swp : Nat} (hswp : swp < 2 ^ 31)
    (hslots : ∀ s ∈ slots, (s + 1) * PAGING_PAGESZ ≤ swp) : DevOk (probeDev slots swp) := by
  constructor <;> intro d <;> cases d
  · rfl
  · rfl
  · exact (by decide : PAGING_PAGESZ < 2 ^ 31)
  · exact hswp
  · intro f hf
    rw [List.mem_singleton.mp hf]
    exact le_rfl
  · exact hslots

theorem exists_prepared {slots : List Nat} {swp : Nat} (hd : DevOk (probeDev slots swp)) (p : Nat) :
    ∃ l v, p ≠ v ∧ v < PAGING_MAX_PGN ∧ ∀ mm, NewSpace mm → ∃ c, Reaches memCall ⟨mm, probeDev slots swp⟩ l c ∧
      Prepared mm.pgd (probeDev slots swp) v c ∧ (c.mm.symrgtbl 0).rgStart = 0 := by
  by_cases hp : p = 0
  · exact ⟨mapSecond, 2, by omega, by decide, fun mm h => reaches_second h hd rfl⟩
  · refine ⟨[(.alloc 1 0, ⟨0, none⟩)], 0, hp, by decide, fun mm h => ?_⟩
    obtain ⟨c, hc, hprep, hsym⟩ := reaches_first h hd rfl (show 0 < PAGING_MAX_SYMTBL_SZ by decide)
    exact ⟨c, hc, hprep, by rw [hsym, Function.update_self]⟩

theorem SameResults.slot_le (h : SameResults mm mm') (hn : NewSpace mm) (hn' : NewSpace mm') (hp : p < PAGING_MAX_PGN) :
    pagingPteSwp (mm'.pgd p) ≤ pagingPteSwp (mm.pgd p) := by
  have hlt := pagingPteSwp_lt (mm.pgd p)
  obtain ⟨swp, hswp⟩ : ∃ swp, (pagingPteSwp (mm.pgd p) + 1) * PAGING_PAGESZ = swp := ⟨_, rfl⟩
  have hswp' : (pagingPteSwp (mm.pgd p) + 1) * 256 = swp := hswp
  have hd : DevOk (probeDev [0] swp) := probeDev_ok (by omega) fun s hs => by
    rw [List.mem_singleton.mp hs, ← hswp]
    exact Nat.mul_le_mul_right _ (by omega)
  obtain ⟨l, v, hne, hv, hprep⟩ := exists_prepared hd p
  obtain ⟨c, hc, hpc, hstart⟩ := hprep mm hn
  obtain ⟨c', hc', hpc', hstart'⟩ := hprep mm' hn'
  obtain ⟨r, d, hread⟩ := (hpc.read_iff hd hstart hp (hn.absent p hp) hne hv le_rfl rfl).mpr hswp.le
  obtain ⟨d', hd'⟩ := (h.caller hd _).mp ⟨d, reaches_cons.mpr ⟨c, hc, hread⟩⟩
  obtain ⟨c'', hc'', hread'⟩ := reaches_cons.mp hd'
  cases hc''.unique hc'
  have hfits : (pagingPteSwp (mm'.pgd p) + 1) * 256 ≤ swp :=
    (hpc'.read_iff hd hstart' hp (hn'.absent p hp) hne hv le_rfl rfl).mp ⟨r, d', hread'⟩
  omega

theorem addr_zero_iff (x : Int) : x % 4194304 = 0 ↔ pagingPgn x = 0 ∧ pagingOffst x = 0 := by
  have hpgn := pagingPgn_eq x
  have hoff := pagingOffst_eq x
  generalize pagingPgn x = pgn at *
  generalize pagingOffst x = off at *
  omega

/-- A read after one byte was allocated, with no slot to be had, delivers the mark exactly from address 0. -/
theorem Prepared.read_eq {swp : Nat} (h : Prepared mm.pgd (probeDev [] swp) 0 c) (hn : NewSpace mm)
    (hd : DevOk (probeDev [] swp)) {r offset : Nat} (hr : r < PAGING_MAX_SYMTBL_SZ) :
    (∃ c', memCall c (.read r offset) = .ok (⟨0, some 1⟩, c')) ↔
      accessAddr c.mm (toInt r) (toInt offset) % 4194304 = 0 := by
  obtain ⟨a, ha⟩ := h.single
  obtain ⟨hv, -⟩ := validRg_of_lt hr
  have hframe : pagingFpn (c.mm.pgd 0) = 0 := by
    rw [h.pgd, Function.update_self, pagingFpn_setFpn, Nat.zero_mod]
  have hstorage : (c.dev .mram).storage = fun x => if x = 0 then 1 else 0 := by rw [h.ram]; rfl
  have hphy : accessPhy c.mm (toInt r) (toInt offset) 0 = pagingOffst (accessAddr c.mm (toInt r) (toInt offset)) := by
    rw [accessPhy, Nat.zero_mul, Nat.zero_add]
  rw [addr_zero_iff]
  simp only [memCall_ok_iff ha (h.devOk hd)]
  constructor
  · rintro ⟨c', hout⟩
    generalize hres : (⟨0, some 1⟩ : MemResult) = res at hout
    cases hout with
    | read hread =>
      cases hread with
      | refused => cases hres
      | noPage => cases hres
      | byte _ hpage hb =>
        cases hpage with
        | hit hpres =>
          by_cases hzero : accessPgn c.mm (toInt r) (toInt offset) = 0
          · rw [hzero, hframe, hphy, hstorage] at hres
            by_cases hoff' : pagingOffst (accessAddr c.mm (toInt r) (toInt offset)) = 0
            · exact ⟨hzero, hoff'⟩
            · simp only [hoff', if_false] at hres
              exact absurd hres (by decide)
          · rw [h.pgd, Function.update_of_ne hzero, hn.absent _ (accessPgn_lt ..)] at hpres
            cases hpres
        | swapIn _ _ _ hs =>
          rw [h.swp] at hs
          cases hs
  · rintro ⟨hzero, hoff'⟩
    have hpage : PageOutcome c (accessPgn c.mm (toInt r) (toInt offset)) (some 0) c := by
      have hhit : PageOutcome c 0 (some (pagingFpn (c.mm.pgd 0))) c :=
        .hit (by rw [h.pgd, Function.update_self, present_setFpn])
      rw [hframe] at hhit
      rw [show accessPgn c.mm (toInt r) (toInt offset) = 0 from hzero]
      exact hhit
    have hb : accessPhy c.mm (toInt r) (toInt offset) 0 < (c.dev .mram).maxsz := by
      rw [hphy, hoff', h.ram]
      exact (by decide : 0 < PAGING_PAGESZ)
    have hout := ReadOutcome.byte hv hpage hb
    rw [hphy, hoff', hstorage] at hout
    exact ⟨c, .read hout⟩

/-- The address a region starts on shows when a byte at address 0 is read through it. -/
theorem SameResults.start_eq (h : SameResults mm mm') (hn : NewSpace mm) (hn' : NewSpace mm') {r : Nat}
    (hr : r < PAGING_MAX_SYMTBL_SZ) :
    (mm'.symrgtbl r).rgStart % 2 ^ PAGING_CPU_BUS_WIDTH = (mm.symrgtbl r).rgStart % 2 ^ PAGING_CPU_BUS_WIDTH := by
  have hd : DevOk (probeDev [] 0) := probeDev_ok (by decide) fun s hs => nomatch hs
  obtain ⟨k, hk, hkr⟩ : ∃ k < PAGING_MAX_SYMTBL_SZ, r ≠ k := by
    by_cases h0 : r = 0
    · exact ⟨1, by decide, by omega⟩
    · exact ⟨0, by decide, h0⟩
  obtain ⟨c, hc, hpc, hsym⟩ := reaches_first hn hd rfl hk
  obtain ⟨c', hc', hpc', hsym'⟩ := reaches_first hn' hd rfl hk
  -- the offset that leads from the region back to address 0
  obtain ⟨offset, hoffset⟩ : ∃ offset, offset = 4194304 - (mm.symrgtbl r).rgStart % 4194304 := ⟨_, rfl⟩
  have hlt : (mm.symrgtbl r).rgStart % 4194304 < 4194304 := Nat.mod_lt _ (by decide)
  have haddr : ∀ {c : Caller} {mm : MmStruct}, c.mm.symrgtbl = Function.update mm.symrgtbl k ⟨0, 0, 1⟩ →
      accessAddr c.mm (toInt r) (toInt offset) % 4194304 =
        (((mm.symrgtbl r).rgStart % 4194304 : Nat) + offset) % 4194304 := by
    intro c mm hsym
    rw [accessAddr, regionAddr_emod, (validRg_of_lt hr).2, hsym, Function.update_of_ne hkr,
      toInt_of_bounds (x := (offset : Int)) (by omega) (by omega)]
    omega
  obtain ⟨d, hread⟩ := (hpc.read_eq hn hd hr).mpr ((haddr hsym).trans (by omega))
  obtain ⟨d', hd'⟩ := (h.caller hd _).mp ⟨d, reaches_cons.mpr ⟨c, hc, hread⟩⟩
  obtain ⟨c'', hc'', hread'⟩ := reaches_cons.mp hd'
  cases hc''.unique hc'
  have hzero := (haddr hsym').symm.trans ((hpc'.read_eq hn' hd hr).mp ⟨d', hread'⟩)
  rw [show 2 ^ PAGING_CPU_BUS_WIDTH = 4194304 from rfl]
  omega

/-- New address spaces cannot be told apart if and only if they agree in their leftovers. -/
theorem NewSpace.sameResults_iff (hn : NewSpace mm) (hn' : NewSpace mm') :
    SameResults mm mm' ↔ Leftovers mm.pgd mm'.pgd mm.symrgtbl mm'.symrgtbl := by
  constructor
  · intro h
    refine ⟨fun p hp => ?_, fun r hr => h.start_eq hn hn' hr⟩
    exact Nat.le_antisymm (h.slot_le hn hn' hp) (h.symm.slot_le hn' hn hp)
  · intro h
    exact (hn.alike hn' h).sameResults

end SimpleOs.Mm
