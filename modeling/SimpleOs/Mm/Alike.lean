import SimpleOs.Mm.FreeSearch

/-!
# Address spaces no call tells apart

Two address spaces may differ in what no call reads, or reads only modulo the size of an address.

* `EntryAlike` : page table entries with the same present bit and the same field, the frame of a present entry or the
  slot of an absent one;
* `RegionAlike` : regions that are the same, or both without a byte and starting on the same address;
* `AreaAlike` : areas but for the number of empty regions at the end of the free region list;
  `freeSearchList_newRegions` : the search does not see that number;
* `Alike` : address spaces made of these; `CallersAlike.outcome` : a call has the same result on both and leaves them
  alike;
* `SameResults`, `Alike.sameResults` : neither can be told from the other by any calls.
-/

namespace SimpleOs.Mm
open CInt

/-! ## Page table entries -/

/-- The entries are both present with the same frame, or both absent with the same slot. -/
structure EntryAlike (pte pte' : Word) : Prop where
  present : pagingPagePresent pte' = pagingPagePresent pte
  fpn : pagingPagePresent pte = true → pagingFpn pte' = pagingFpn pte
  swp : pagingPagePresent pte = false → pagingPteSwp pte' = pagingPteSwp pte

variable {pte pte' : Word}

theorem EntryAlike.symm (h : EntryAlike pte pte') : EntryAlike pte' pte :=
  ⟨h.present.symm, fun hp => (h.fpn (h.present ▸ hp)).symm, fun hp => (h.swp (h.present ▸ hp)).symm⟩

theorem present_setFpn (pte : Word) (fpn : Nat) : pagingPagePresent (pteSetFpn pte fpn) = true :=
  (inRam_setFpn pte fpn).1

theorem present_setSwap (pte : Word) (swptyp swpoff : Nat) : pagingPagePresent (pteSetSwap pte swptyp swpoff) = true :=
  (swapped_setSwap pte swptyp swpoff).1

/-- The frame field of a swapped entry is written over by the swap fields. -/
theorem pagingFpn_setSwap (pte pte' : Word) (swptyp swpoff : Nat) :
    pagingFpn (pteSetSwap pte swptyp swpoff) = pagingFpn (pteSetSwap pte' swptyp swpoff) := by
  apply Nat.eq_of_testBit_eq
  intro i
  rw [pagingFpn_eq, pagingFpn_eq, Nat.testBit_mod_two_pow, Nat.testBit_mod_two_pow, BitVec.testBit_toNat,
    BitVec.testBit_toNat]
  by_cases hi : i < 13
  · rw [getLsbD_pteSetSwap _ _ _ (by omega), getLsbD_pteSetSwap _ _ _ (by omega), if_pos (show i ≤ 25 by omega),
      if_pos (show i ≤ 25 by omega)]
  · simp [hi]

theorem EntryAlike.setFpn (pte pte' : Word) (fpn : Nat) : EntryAlike (pteSetFpn pte fpn) (pteSetFpn pte' fpn) where
  present := by rw [present_setFpn, present_setFpn]
  fpn := fun _ => by rw [pagingFpn_setFpn, pagingFpn_setFpn]
  swp := fun hp => by
    rw [present_setFpn] at hp
    cases hp

theorem EntryAlike.setSwap (pte pte' : Word) (swptyp swpoff : Nat) :
    EntryAlike (pteSetSwap pte swptyp swpoff) (pteSetSwap pte' swptyp swpoff) where
  present := by rw [present_setSwap, present_setSwap]
  fpn := fun _ => pagingFpn_setSwap ..
  swp := fun hp => by
    rw [present_setSwap] at hp
    cases hp

/-! ## Regions -/

/-- The regions are the same region of area 0, or neither has a byte; both start on the same address. -/
structure RegionAlike (rg rg' : VmRgStruct) : Prop where
  start : rg'.rgStart % 2 ^ PAGING_CPU_BUS_WIDTH = rg.rgStart % 2 ^ PAGING_CPU_BUS_WIDTH
  same : (rg' = rg ∧ rg.vmaid = 0) ∨ (rg.rgEnd ≤ rg.rgStart ∧ rg'.rgEnd ≤ rg'.rgStart)

variable {rg rg' : VmRgStruct}

theorem RegionAlike.symm (h : RegionAlike rg rg') : RegionAlike rg' rg where
  start := h.start.symm
  same := by
    rcases h.same with ⟨rfl, hv⟩ | ⟨he, he'⟩
    · exact .inl ⟨rfl, hv⟩
    · exact .inr ⟨he', he⟩

theorem RegionAlike.of_vmaid (h : rg.vmaid = 0) : RegionAlike rg rg := ⟨rfl, .inl ⟨rfl, h⟩⟩

theorem RegionAlike.freed (rg rg' : VmRgStruct) : RegionAlike (freedRegion rg) (freedRegion rg') :=
  ⟨rfl, .inr ⟨le_rfl, le_rfl⟩⟩

/-- An access reaches the same address of regions that start on the same one. -/
theorem RegionAlike.addr (h : RegionAlike rg rg') (offset : Int) :
    regionAddr rg' offset % 4194304 = regionAddr rg offset % 4194304 := by
  have hstart : rg'.rgStart % 4194304 = rg.rgStart % 4194304 := h.start
  rw [regionAddr_emod, regionAddr_emod]
  omega

/-! ## Areas -/

def newRegion : VmRgStruct := ⟨0, 0, 0⟩

def newRegions (n : Nat) : List VmRgStruct := List.replicate (n + 1) newRegion

variable {size : Int} {l : List VmRgStruct} {nr : Nat × Nat}

theorem fitEnd_newRegion (size : Int) : fitEnd size newRegion = toULong size := by
  unfold fitEnd newRegion toULong
  dsimp only
  omega

theorem dummyOf_newRegion : dummyOf newRegion = newRegion := rfl

theorem searchFrom_newRegions (size : Int) (n : Nat) (nr : Nat × Nat) : searchFrom 0 size (newRegions n) nr =
    if toULong size = 0 then .error .loop else .ok (false, nr, newRegions n) := by
  have hvmaid : newRegion.vmaid = toULong 0 := by decide
  have hsucc : ∀ n, newRegions (n + 1) = newRegion :: newRegions n := fun n => List.replicate_succ
  by_cases hz : toULong size = 0
  · have hfit : fitEnd size newRegion = newRegion.rgEnd := (fitEnd_newRegion size).trans hz
    rw [if_pos hz]
    induction n generalizing nr with
    | zero =>
      rw [show newRegions 0 = [newRegion] from rfl, searchFrom_dummy hvmaid hfit, dummyOf_newRegion, if_pos hfit]
    | succ n ih =>
      rw [← ih (newRegion.rgStart, newRegion.rgEnd)]
      cases n with
      | zero => exact searchFrom_drop hvmaid hvmaid hfit
      | succ n =>
        rw [hsucc, hsucc]
        exact searchFrom_drop hvmaid hvmaid hfit
  · have hfit : ¬ fitEnd size newRegion ≤ newRegion.rgEnd := by
      rw [fitEnd_newRegion]
      exact fun h => hz (Nat.le_zero.mp h)
    rw [if_neg hz]
    induction n with
    | zero =>
      rw [show newRegions 0 = [newRegion] from rfl, searchFrom_skip hvmaid hfit, searchFrom, Exec.ok_bind]
    | succ n ih => rw [hsucc, searchFrom_skip hvmaid hfit, ih, Exec.ok_bind]

/-- The outcome of a search, with new regions behind the list it leaves. -/
def withNew (n : Nat) (x : Exec FreeSearch) : Exec FreeSearch := x >>= fun y => .ok (y.1, y.2.1, y.2.2 ++ newRegions n)

/-- The list an outcome leaves has regions of area 0 only. -/
def LeavesOwn (x : Exec FreeSearch) : Prop := ∀ y, x = .ok y → ∀ rg ∈ y.2.2, rg.vmaid = 0

theorem withNew_skip (n : Nat) (rg : VmRgStruct) (x : Exec FreeSearch) :
    (withNew n x >>= fun y => .ok (y.1, y.2.1, rg :: y.2.2)) =
      withNew n (x >>= fun y => .ok (y.1, y.2.1, rg :: y.2.2)) := by
  cases x with
  | error => simp only [withNew, Exec.error_bind]
  | ok => simp only [withNew, Exec.ok_bind, List.cons_append]

theorem LeavesOwn.skip {x : Exec FreeSearch} (h : LeavesOwn x) (hv : rg.vmaid = 0) :
    LeavesOwn (x >>= fun y => .ok (y.1, y.2.1, rg :: y.2.2)) := by
  intro y hy
  obtain ⟨z, hz, hret⟩ := Exec.bind_ok.mp hy
  cases hret
  exact List.forall_mem_cons.mpr ⟨hv, h z hz⟩

/-- The number of new regions at the end of a list does not matter to the search, and stays. -/
theorem searchFrom_append (size : Int) (hl : ∀ rg ∈ l, rg.vmaid = 0) (nr : Nat × Nat) :
    ∃ x, (∀ n, searchFrom 0 size (l ++ newRegions n) nr = withNew n x) ∧ LeavesOwn x := by
  have hzero : (0 : Nat) = toULong 0 := by decide
  induction l generalizing nr with
  | nil =>
    by_cases hz : toULong size = 0
    · refine ⟨.error .loop, fun n => ?_, fun y hy => nomatch hy⟩
      rw [List.nil_append, searchFrom_newRegions, if_pos hz, withNew, Exec.error_bind]
    · refine ⟨.ok (false, nr, []), fun n => ?_, fun y hy => ?_⟩
      · rw [List.nil_append, searchFrom_newRegions, if_neg hz, withNew, Exec.ok_bind, List.nil_append]
      · cases hy
        exact fun rg h => nomatch h
  | cons rgit l ih =>
    rw [List.forall_mem_cons] at hl
    have hv : rgit.vmaid = toULong 0 := hl.1.trans hzero
    rcases Nat.lt_trichotomy (fitEnd size rgit) rgit.rgEnd with hfit | hfit | hfit
    · refine ⟨.ok (true, (rgit.rgStart, fitEnd size rgit), { rgit with rgStart := fitEnd size rgit } :: l),
        fun n => ?_, ?_⟩
      · rw [List.cons_append, searchFrom_shrink hv hfit, withNew, Exec.ok_bind, List.cons_append]
      · intro y hy
        cases hy
        exact List.forall_mem_cons.mpr hl
    · -- the region behind the one taken, new or not, is where the search goes on
      obtain ⟨x, hx, hown⟩ := ih hl.2 (rgit.rgStart, rgit.rgEnd)
      refine ⟨x, fun n => ?_, hown⟩
      rw [← hx n, List.cons_append]
      cases l with
      | nil =>
        have hnew : newRegion.vmaid = toULong 0 := hzero
        exact searchFrom_drop hv hnew hfit
      | cons next l => exact searchFrom_drop hv ((List.forall_mem_cons.mp hl.2).1.trans hzero) hfit
    · obtain ⟨x, hx, hown⟩ := ih hl.2 nr
      refine ⟨_, fun n => ?_, hown.skip hl.1⟩
      rw [List.cons_append, searchFrom_skip hv hfit.not_ge, hx n, withNew_skip]

theorem freeSearchList_newRegions {n : Nat} {ret : Int} {o : Option (Nat × Nat)} {r : List VmRgStruct}
    (hl : ∀ rg ∈ l, rg.vmaid = 0) (h : freeSearchList 0 size (l ++ newRegions n) = .ok (ret, o, r)) (n' : Nat) :
    ∃ r', r = r' ++ newRegions n ∧ (∀ rg ∈ r', rg.vmaid = 0) ∧
      freeSearchList 0 size (l ++ newRegions n') = .ok (ret, o, r' ++ newRegions n') := by
  have hne : ∀ n, l ++ newRegions n ≠ [] := fun n he => nomatch (List.append_eq_nil_iff.mp he).2
  obtain ⟨x, hx, hown⟩ := searchFrom_append size hl (toULong (-1), toULong (-1))
  rw [freeSearchList_eq (hne n), hx n] at h
  rw [freeSearchList_eq (hne n'), hx n']
  cases x with
  | error => simp only [withNew, Exec.error_bind, reduceCtorEq] at h
  | ok y =>
    simp only [withNew, Exec.ok_bind, Except.ok.injEq, Prod.mk.injEq] at h ⊢
    obtain ⟨hret, ho, rfl⟩ := h
    exact ⟨y.2.2, rfl, hown y rfl, hret, ho, rfl⟩

/-- The areas are the same but for the number of new regions at the end of their free region lists. -/
inductive AreaAlike (a : VmAreaStruct) : VmAreaStruct → Prop
  | mk {l : List VmRgStruct} {n : Nat} (n' : Nat) (hl : ∀ rg ∈ l, rg.vmaid = 0)
      (ha : a.vmFreergList = l ++ newRegions n) :
      AreaAlike a { a with vmFreergList := l ++ newRegions n' }

variable {a a' b : VmAreaStruct}

theorem AreaAlike.symm (h : AreaAlike a a') : AreaAlike a' a := by
  cases h with
  | @mk l n n' hl ha =>
    have hback := AreaAlike.mk (a := { a with vmFreergList := l ++ newRegions n' }) n hl rfl
    rwa [← ha] at hback

theorem AreaAlike.vmId (h : AreaAlike a a') : a'.vmId = a.vmId := by
  cases h
  rfl

theorem AreaAlike.enlist (h : AreaAlike a a') (hv : rg.vmaid = 0) :
    AreaAlike { a with vmFreergList := rg :: a.vmFreergList } { a' with vmFreergList := rg :: a'.vmFreergList } := by
  cases h with
  | @mk l n n' hl ha =>
    refine AreaAlike.mk (l := rg :: l) (n := n) n' (List.forall_mem_cons.mpr ⟨hv, hl⟩) ?_
    rw [ha, List.cons_append]

theorem grownArea_list (a : VmAreaStruct) (inc : Int) (l : List VmRgStruct) :
    grownArea { a with vmFreergList := l } inc = { grownArea a inc with vmFreergList := l } := by
  by_cases ho : growthOverlaps a inc = true
  · simp only [grownArea, if_pos ho, if_pos (show growthOverlaps { a with vmFreergList := l } inc = true from ho),
      brkEnd]
  · simp only [grownArea, if_neg ho, if_neg (show ¬ growthOverlaps { a with vmFreergList := l } inc = true from ho),
      brkEnd]

theorem AreaAlike.alloc (h : AreaAlike a a') (hcase : AllocCase a size b rg) :
    ∃ b', AllocCase a' size b' rg ∧ AreaAlike b b' ∧ freshPages a' size = freshPages a size ∧
      freshStart a' = freshStart a ∧ rg.vmaid = 0 := by
  cases h with
  | @mk l n n' hl ha =>
    have hfresh : ∀ {ret o r r'}, freeSearchList 0 size a.vmFreergList = .ok (ret, o, r) →
        freeSearchList 0 size (l ++ newRegions n') = .ok (ret, o, r') →
        freshPages { a with vmFreergList := l ++ newRegions n' } size = freshPages a size := by
      intro ret o r r' hs hs'
      simp only [freshPages, hs, hs']
      rfl
    cases hcase with
    | reuse hs =>
      obtain ⟨r', rfl, hr, hs'⟩ := freeSearchList_newRegions hl (ha ▸ hs) n'
      exact ⟨_, .reuse hs', .mk n' hr rfl, hfresh hs hs', rfl, rfl⟩
    | gap hs hret hgap =>
      obtain ⟨r', rfl, hr, hs'⟩ := freeSearchList_newRegions hl (ha ▸ hs) n'
      exact ⟨_, .gap hs' hret hgap, .mk n' hr rfl, hfresh hs hs', rfl, rfl⟩
    | grow hs hret hgap =>
      obtain ⟨r', rfl, hr, hs'⟩ := freeSearchList_newRegions hl (ha ▸ hs) n'
      refine ⟨_, .grow hs' hret hgap, ?_, hfresh hs hs', rfl, rfl⟩
      simp only [grownArea_list, advance]
      exact .mk n' hr rfl

/-! ## Address spaces -/

structure Alike (mm mm' : MmStruct) : Prop where
  area : ∃ a a', mm.Single a ∧ mm'.Single a' ∧ AreaAlike a a'
  pgd : ∀ p < PAGING_MAX_PGN, EntryAlike (mm.pgd p) (mm'.pgd p)
  fifo : mm'.fifoPgn = mm.fifoPgn
  queued : ∀ p ∈ mm.fifoPgn, p < PAGING_MAX_PGN ∧ pagingPagePresent (mm.pgd p) = true
  symrgtbl : ∀ r < PAGING_MAX_SYMTBL_SZ, RegionAlike (mm.symrgtbl r) (mm'.symrgtbl r)

structure CallersAlike (c d : Caller) : Prop where
  mm : Alike c.mm d.mm
  dev : d.dev = c.dev

variable {mm mm' : MmStruct} {c d c' : Caller} {pgn : Nat} {frames : List Nat} {rgid offset : Int}

theorem Alike.symm (h : Alike mm mm') : Alike mm' mm where
  area := by
    obtain ⟨a, a', ha, ha', halike⟩ := h.area
    exact ⟨a', a, ha', ha, halike.symm⟩
  pgd := fun p hp => (h.pgd p hp).symm
  fifo := h.fifo.symm
  queued := fun p hp => by
    obtain ⟨hlt, hpres⟩ := h.queued p (h.fifo ▸ hp)
    exact ⟨hlt, (h.pgd p hlt).present.trans hpres⟩
  symrgtbl := fun r hr => (h.symrgtbl r hr).symm

theorem Alike.setEntry (h : Alike mm mm') {pte pte' : Word} (hpte : EntryAlike pte pte')
    (hpres : pagingPagePresent pte = true) (p : Nat) :
    Alike { mm with pgd := Function.update mm.pgd p pte } { mm' with pgd := Function.update mm'.pgd p pte' } where
  area := by
    obtain ⟨a, a', ha, ha', halike⟩ := h.area
    exact ⟨a, a', ⟨ha.mmap, ha.vmId⟩, ⟨ha'.mmap, ha'.vmId⟩, halike⟩
  pgd := fun q hq => by
    by_cases hqp : q = p
    · subst hqp
      simp only [Function.update_self, hpte]
    · simp only [Function.update_of_ne hqp, h.pgd q hq]
  fifo := h.fifo
  queued := fun q hq => by
    refine ⟨(h.queued q hq).1, ?_⟩
    by_cases hqp : q = p
    · subst hqp
      simp only [Function.update_self, hpres]
    · simp only [Function.update_of_ne hqp, (h.queued q hq).2]
  symrgtbl := h.symrgtbl

theorem Alike.setFpn (h : Alike mm mm') (p fpn : Nat) :
    Alike { mm with pgd := Function.update mm.pgd p (pteSetFpn (mm.pgd p) fpn) }
      { mm' with pgd := Function.update mm'.pgd p (pteSetFpn (mm'.pgd p) fpn) } :=
  h.setEntry (.setFpn ..) (present_setFpn ..) p

theorem Alike.setSwap (h : Alike mm mm') (p slot : Nat) :
    Alike { mm with pgd := Function.update mm.pgd p (pteSetSwap (mm.pgd p) 0 slot) }
      { mm' with pgd := Function.update mm'.pgd p (pteSetSwap (mm'.pgd p) 0 slot) } :=
  h.setEntry (.setSwap ..) (present_setSwap ..) p

theorem Alike.setFifo (h : Alike mm mm') {l : List Nat}
    (hl : ∀ p ∈ l, p < PAGING_MAX_PGN ∧ pagingPagePresent (mm.pgd p) = true) :
    Alike { mm with fifoPgn := l } { mm' with fifoPgn := l } where
  area := by
    obtain ⟨a, a', ha, ha', halike⟩ := h.area
    exact ⟨a, a', ⟨ha.mmap, ha.vmId⟩, ⟨ha'.mmap, ha'.vmId⟩, halike⟩
  pgd := h.pgd
  fifo := rfl
  queued := hl
  symrgtbl := h.symrgtbl

theorem Alike.mapPage (h : Alike mm mm') (hpgn : pgn < PAGING_MAX_PGN) (fpn : Nat) :
    Alike (mapPage mm pgn fpn) (mapPage mm' pgn fpn) := by
  have hset := h.setFpn pgn fpn
  have hfifo := hset.setFifo (l := pgn :: mm.fifoPgn) (List.forall_mem_cons.mpr ⟨⟨hpgn, ?_⟩, hset.queued⟩)
  · rw [Mm.mapPage, Mm.mapPage, h.fifo]
    exact hfifo
  · simp only [Function.update_self, present_setFpn]

theorem Alike.mapPages (h : Alike mm mm') (hfits : pgn + frames.length ≤ PAGING_MAX_PGN) :
    Alike (mapPages pgn frames mm) (mapPages pgn frames mm') := by
  induction frames generalizing pgn mm mm' with
  | nil => exact h
  | cons fpn frames ih =>
    rw [List.length_cons] at hfits
    exact ih (h.mapPage (by omega) fpn) (by omega)

theorem CallersAlike.mapRam (h : CallersAlike c d) {startPgn n : Nat} (hfits : c.MapFits startPgn n) :
    CallersAlike (c.mapRam startPgn n) (d.mapRam startPgn n) where
  mm := by
    by_cases hn : n ≤ (c.dev .mram).freeFpList.length
    · rw [Caller.mapRam_of_le hn, Caller.mapRam_of_le (h.dev ▸ hn), h.dev]
      have hlen : ((c.dev .mram).freeFpList.take n).reverse.length = n := by
        rw [List.length_reverse, List.length_take]; omega
      rcases hfits hn with rfl | hle
      · exact h.mm
      · exact h.mm.mapPages (by rw [hlen]; exact hle)
    · rw [Caller.mapRam_of_gt (Nat.lt_of_not_le hn), Caller.mapRam_of_gt (h.dev ▸ Nat.lt_of_not_le hn)]
      exact h.mm
  dev := by rw [Caller.mapRam_dev, Caller.mapRam_dev, h.dev]

theorem CallersAlike.place (h : CallersAlike c d) (hb : AreaAlike a a') (hid : a.vmId = 0) (hrg : RegionAlike rg rg') :
    CallersAlike (c.place a rgid rg) (d.place a' rgid rg') where
  mm := {
    area := ⟨a, a', ⟨rfl, hid⟩, ⟨rfl, hb.vmId.trans hid⟩, hb⟩
    pgd := h.mm.pgd
    fifo := h.mm.fifo
    queued := h.mm.queued
    symrgtbl := fun r hr => by
      rw [Caller.place_symrgtbl, Caller.place_symrgtbl]
      by_cases hr' : r = rgid.toNat
      · subst hr'
        rw [Function.update_self, Function.update_self]
        exact hrg
      · rw [Function.update_of_ne hr', Function.update_of_ne hr']
        exact h.mm.symrgtbl r hr }
  dev := h.dev

/-! ## Calls -/

theorem CallersAlike.swapIn (h : CallersAlike c d) {l rest : List Nat} {v slot : Nat} (hpgn : pgn < PAGING_MAX_PGN)
    (hp : pagingPagePresent (c.mm.pgd pgn) = false) (hq : c.mm.fifoPgn = l ++ [v]) :
    CallersAlike (c.swapIn pgn l v slot rest) (d.swapIn pgn l v slot rest) := by
  have hqueued := h.mm.queued
  rw [hq, List.forall_mem_append, List.forall_mem_singleton] at hqueued
  obtain ⟨hl, hv, hvpres⟩ := hqueued
  have hfpn : pagingFpn (d.mm.pgd v) = pagingFpn (c.mm.pgd v) := (h.mm.pgd v hv).fpn hvpres
  have hswp : pagingPteSwp (d.mm.pgd pgn) = pagingPteSwp (c.mm.pgd pgn) := (h.mm.pgd pgn hpgn).swp hp
  have hin := (h.mm.setSwap v slot).setFpn pgn (pagingFpn (c.mm.pgd v))
  constructor
  · simp only [Caller.swapIn, hfpn]
    refine hin.setFifo (List.forall_mem_cons.mpr ⟨⟨hpgn, ?_⟩, fun p hp => hin.queued p ?_⟩)
    · simp only [Function.update_self, present_setFpn]
    · rw [show c.mm.fifoPgn = l ++ [v] from hq]
      exact List.mem_append_left _ hp
  · simp only [Caller.swapIn, hfpn, hswp, h.dev]

theorem CallersAlike.page (h : CallersAlike c d) {fpn : Option Nat} (hpgn : pgn < PAGING_MAX_PGN)
    (hp : PageOutcome c pgn fpn c') : ∃ d', PageOutcome d pgn fpn d' ∧ CallersAlike c' d' := by
  have hentry := h.mm.pgd pgn hpgn
  cases hp with
  | hit hp =>
    rw [← hentry.fpn hp]
    exact ⟨d, .hit (hentry.present.trans hp), h⟩
  | noVictim hp hq => exact ⟨d, .noVictim (hentry.present.trans hp) (h.mm.fifo.trans hq), h⟩
  | @swapIn l v slot rest hp hq hv hs hvf ht =>
    have hvpres : pagingPagePresent (c.mm.pgd v) = true := (h.mm.queued v (by rw [hq]; simp)).2
    rw [← (h.mm.pgd v hv).fpn hvpres] at hvf ⊢
    rw [← hentry.swp hp] at ht
    rw [← h.dev] at hs hvf ht
    exact ⟨_, .swapIn (hentry.present.trans hp) (h.mm.fifo.trans hq) hv hs hvf ht, h.swapIn hpgn hp hq⟩

theorem CallersAlike.store (h : CallersAlike c d) (addr : Nat) (value : BYTE) :
    CallersAlike (c.store addr value) (d.store addr value) :=
  ⟨h.mm, by simp only [Caller.store, Caller.setDev, h.dev]⟩

theorem Alike.access (h : Alike mm mm') (hv : ValidRg rgid) (offset : Int) :
    accessPgn mm' rgid offset = accessPgn mm rgid offset ∧
      ∀ fpn, accessPhy mm' rgid offset fpn = accessPhy mm rgid offset fpn := by
  have haddr := (h.symrgtbl rgid.toNat hv.toNat_lt).addr offset
  obtain ⟨hpgn, hoffst⟩ := paging_congr haddr
  refine ⟨hpgn, fun fpn => ?_⟩
  rw [accessPhy, accessPhy, accessAddr, accessAddr, hoffst]

theorem CallersAlike.accessPage (h : CallersAlike c d) (hv : ValidRg rgid) {offset : Int} {fpn : Option Nat}
    (hp : PageOutcome c (accessPgn c.mm rgid offset) fpn c') :
    ∃ d', PageOutcome d (accessPgn d.mm rgid offset) fpn d' ∧ CallersAlike c' d' := by
  rw [(h.mm.access hv offset).1]
  exact h.page (accessPgn_lt ..) hp

variable {call : MemCall} {r : MemResult}

/-- A call has the same result on both and leaves them alike. -/
theorem CallersAlike.outcome (h : CallersAlike c d) (ha : c.mm.Single a) (ha' : d.mm.Single a')
    (hcall : CallOutcome c a call r c') : ∃ d', CallOutcome d a' call r d' ∧ CallersAlike c' d' := by
  have halike : AreaAlike a a' := by
    obtain ⟨b, b', hb, hb', hbb⟩ := h.mm.area
    cases List.singleton_inj.mp (ha.mmap.symm.trans hb.mmap)
    cases List.singleton_inj.mp (ha'.mmap.symm.trans hb'.mmap)
    exact hbb
  cases hcall with
  | @alloc size _ _ _ hx =>
    cases hx with
    | refused hr => exact ⟨d, .alloc (.refused hr), h⟩
    | placed hv hcase hfits =>
      obtain ⟨b', hcase', hb, hpages, hstart, hvmaid⟩ := halike.alloc hcase
      have hfits' : d.MapFits (freshStart a') (freshPages a' (toInt size)) := by
        rw [hpages, hstart, Caller.MapFits, h.dev]
        exact hfits
      refine ⟨_, .alloc (.placed hv hcase' hfits'), ?_⟩
      rw [hpages, hstart]
      exact (h.mapRam hfits).place hb (hcase.vmId.trans ha.vmId) (.of_vmaid hvmaid)
  | @free regIndex _ _ hx =>
    have hrg := fun hv : ValidRg (toInt regIndex) => h.mm.symrgtbl _ hv.toNat_lt
    cases hx with
    | refused hr => exact ⟨d, .free (.refused hr), h⟩
    | empty hv he =>
      have he' : (d.mm.symrgtbl (toInt regIndex).toNat).rgEnd ≤ (d.mm.symrgtbl (toInt regIndex).toNat).rgStart := by
        rcases (hrg hv).same with ⟨heq, -⟩ | ⟨-, he'⟩
        · rw [heq]; exact he
        · exact he'
      exact ⟨_, .free (.empty hv he'), h.place halike ha.vmId (.freed ..)⟩
    | freed hv hlt =>
      rcases (hrg hv).same with ⟨heq, hvmaid⟩ | ⟨he, -⟩
      · rw [← heq] at hlt
        refine ⟨_, .free (.freed hv hlt), ?_⟩
        rw [heq]
        exact h.place (halike.enlist hvmaid) ha.vmId (.freed ..)
      · omega
  | read hx =>
    cases hx with
    | refused hr => exact ⟨d, .read (.refused hr), h⟩
    | noPage hv hp =>
      obtain ⟨d', hp', h'⟩ := h.accessPage hv hp
      exact ⟨d', .read (.noPage hv hp'), h'⟩
    | byte hv hp hb =>
      obtain ⟨d', hp', h'⟩ := h.accessPage hv hp
      rw [← (h.mm.access hv _).2, ← h'.dev] at hb ⊢
      exact ⟨d', .read (.byte hv hp' hb), h'⟩
  | write hx =>
    cases hx with
    | refused hr => exact ⟨d, .write (.refused hr), h⟩
    | noPage hv hp =>
      obtain ⟨d', hp', h'⟩ := h.accessPage hv hp
      exact ⟨d', .write (.noPage hv hp'), h'⟩
    | byte hv hp hb =>
      obtain ⟨d', hp', h'⟩ := h.accessPage hv hp
      rw [← (h.mm.access hv _).2] at hb ⊢
      rw [← h'.dev] at hb
      exact ⟨_, .write (.byte hv hp' hb), h'.store ..⟩

/-! ## Runs -/

def MemSys.withMm (s : MemSys) (pid : Nat) (mm : MmStruct) : MemSys := { s with mm := Function.update s.mm pid mm }

/-- Whatever system a process with either address space is part of, any calls of the processes have the same results. -/
def SameResults (mm mm' : MmStruct) : Prop :=
  ∀ (s : MemSys) (pid : Nat), DevOk s.dev → (∀ i, ∃ a, (s.mm i).Single a) →
    ∀ l, Trace sysCall (s.withMm pid mm) l ↔ Trace sysCall (s.withMm pid mm') l

theorem SameResults.symm (h : SameResults mm mm') : SameResults mm' mm :=
  fun s pid hd ha l => (h s pid hd ha l).symm

structure SystemsAlike (pid : Nat) (s t : MemSys) : Prop where
  mm : Alike (s.mm pid) (t.mm pid)
  others : ∀ i, i ≠ pid → t.mm i = s.mm i
  dev : t.dev = s.dev
  single : ∀ i, ∃ a, (s.mm i).Single a
  devOk : DevOk s.dev

variable {pid : Nat} {s t s' : MemSys} {act : Nat × MemCall}

theorem SystemsAlike.step (h : SystemsAlike pid s t) (hx : sysCall s act = .ok (r, s')) :
    ∃ t', sysCall t act = .ok (r, t') ∧ SystemsAlike pid s' t' := by
  obtain ⟨⟨r', c'⟩, hc, hret⟩ := Exec.bind_ok.mp hx
  cases hret
  obtain ⟨i, call⟩ := act
  obtain ⟨a, ha⟩ := h.single i
  have hout := (memCall_ok_iff ha h.devOk).mp hc
  have hsingle : ∀ j, ∃ a, ((s.after i c').mm j).Single a := by
    intro j
    by_cases hj : j = i
    · subst hj
      rw [MemSys.after_mm_self]
      exact hout.single ha
    · rw [MemSys.after_mm_of_ne _ hj]
      exact h.single j
  have hdevOk : DevOk (s.after i c').dev := hout.devKept.devOk h.devOk
  have hdev : DevOk (t.caller i).dev := by
    rw [MemSys.caller, h.dev]
    exact h.devOk
  by_cases hi : i = pid
  · subst hi
    obtain ⟨a₁, a', ha₁, ha', -⟩ := h.mm.area
    have halike : CallersAlike (s.caller i) (t.caller i) := ⟨h.mm, h.dev⟩
    obtain ⟨d', hout', halike'⟩ := halike.outcome ha ha' hout
    refine ⟨t.after i d', ?_, ?_, fun j hj => ?_, halike'.dev, hsingle, hdevOk⟩
    · rw [sysCall, (memCall_ok_iff ha' hdev).mpr hout', Exec.ok_bind]
      rfl
    · rw [MemSys.after_mm_self, MemSys.after_mm_self]
      exact halike'.mm
    · rw [MemSys.after_mm_of_ne _ hj, MemSys.after_mm_of_ne _ hj]
      exact h.others j hj
  · have hcaller : t.caller i = s.caller i := by rw [MemSys.caller, MemSys.caller, h.others i hi, h.dev]
    refine ⟨t.after i c', ?_, ?_, fun j hj => ?_, rfl, hsingle, hdevOk⟩
    · rw [sysCall, hcaller, hc, Exec.ok_bind]
      rfl
    · rw [MemSys.after_mm_of_ne _ (Ne.symm hi), MemSys.after_mm_of_ne _ (Ne.symm hi)]
      exact h.mm
    · by_cases hji : j = i
      · subst hji
        rw [MemSys.after_mm_self, MemSys.after_mm_self]
      · rw [MemSys.after_mm_of_ne _ hji, MemSys.after_mm_of_ne _ hji]
        exact h.others j hj

/-- Alike address spaces cannot be told apart. -/
theorem Alike.sameResults (h : Alike mm mm') : SameResults mm mm' := by
  intro s pid hd hs l
  have hstart : ∀ {mm mm'}, Alike mm mm' → SystemsAlike pid (s.withMm pid mm) (s.withMm pid mm') := by
    intro mm mm' h
    refine ⟨?_, fun i hi => ?_, rfl, fun i => ?_, hd⟩
    · simp only [MemSys.withMm, Function.update_self, h]
    · simp only [MemSys.withMm, Function.update_of_ne hi]
    · by_cases hi : i = pid
      · subst hi
        obtain ⟨a, -, ha, -⟩ := h.area
        simp only [MemSys.withMm, Function.update_self]
        exact ⟨a, ha⟩
      · simp only [MemSys.withMm, Function.update_of_ne hi]
        exact hs i
  exact ⟨Trace.simulate (hstart h) fun _ _ _ _ _ hst => hst.step,
    Trace.simulate (hstart h.symm) fun _ _ _ _ _ hst => hst.step⟩

/-- A caller with the address space of process 0 among idle ones. -/
def Caller.system (c : Caller) : MemSys := (⟨fun _ => initMm .zeroed, c.dev⟩ : MemSys).withMm 0 c.mm

theorem sysCall_system (c : Caller) (call : MemCall) :
    sysCall c.system (0, call) = (memCall c call).map fun x => (x.1, x.2.system) := by
  have hcaller : c.system.caller 0 = c := by
    simp only [Caller.system, MemSys.withMm, MemSys.caller, Function.update_self]
  have hafter : ∀ c', c.system.after 0 c' = c'.system := fun c' => by
    simp only [Caller.system, MemSys.withMm, MemSys.after, Function.update_idem]
  simp only [sysCall, hcaller, hafter]
  cases memCall c call with
  | error => rfl
  | ok => rfl

/-- Address spaces that cannot be told apart have the same results by themselves. -/
theorem SameResults.caller (h : SameResults mm mm') {dev : Dev → MemphyStruct} (hd : DevOk dev)
    (l : List (MemCall × MemResult)) : Trace memCall ⟨mm, dev⟩ l ↔ Trace memCall ⟨mm', dev⟩ l := by
  have hsys := h ⟨fun _ => initMm .zeroed, dev⟩ 0 hd (fun _ => ⟨_, rfl, rfl⟩) (l.map fun x => ((0, x.1), x.2))
  have hembed : ∀ c : Caller, Trace sysCall c.system (l.map fun x => ((0, x.1), x.2)) ↔ Trace memCall c l :=
    fun c => trace_embed_iff sysCall_system
  exact (hembed ⟨mm, dev⟩).symm.trans (hsys.trans (hembed ⟨mm', dev⟩))

end SimpleOs.Mm
