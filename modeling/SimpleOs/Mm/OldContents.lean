import SimpleOs.Lib.LinkedList
import SimpleOs.Mm.NewSpace

/-!
# Old contents of the memory of an address space

`ld_routine` and `init_mm` take memory from `malloc` and leave part of it as it was.

* `OldHeap` : what the memory held; `OldHeap.initMm` : `init_mm` on it, with the free region list as nodes in memory;
* `NodeSpace.Represents` : the address space with the lists its pointers lead to; `OldHeap.initMm_refines` : it is the
  one `initMm` makes of these lists;
* `NodeSpace.Fresh` : what a new address space should be; `OldHeap.fresh_iff` : the contents that make it so;
* `newSpace_iff` : for which two contents no calls can tell the address spaces apart.
-/

namespace SimpleOs.Mm

abbrev RgMem := NodeMem VmRgStruct

structure NodeArea where
  vmId : Nat
  vmStart : Nat
  vmEnd : Nat
  sbrk : Nat
  vmFreergList : Ptr

structure NodeSpace where
  pgd : Nat → Word
  symrgtbl : Nat → VmRgStruct
  fifoPgn : Ptr
  vma0 : NodeArea
  regions : RgMem
  pages : NodeMem Nat

/-- Contents of the memory an address space is set up in. -/
structure OldHeap where
  /-- what the page table held -/
  pgd : Nat → Word
  /-- what the `mm_struct` held -/
  symrgtbl : Nat → VmRgStruct
  fifoPgn : Ptr
  /-- what the area held -/
  vmFreergList : Ptr
  /-- the nodes of regions and pages in memory -/
  regions : RgMem
  pages : NodeMem Nat
  /-- the address `malloc` returns for the first region -/
  firstRg : Nat

def RgMem.initVmRg (mem : RgMem) (rgnode rgStart rgEnd : Nat) : Except PtrError RgMem := do
  let mem ← mem.malloc rgnode
  let node ← mem.read (some rgnode)
  mem.write (some rgnode) ⟨{ node.val with rgStart := rgStart, rgEnd := rgEnd }, none⟩

/-- `enlist_vm_rg_node` : `*rglist` and the memory. -/
def RgMem.enlistVmRgNode (mem : RgMem) (rglist : Ptr) (rgnode : Nat) : Except PtrError (Ptr × RgMem) := do
  let node ← mem.read (some rgnode)
  let mem ← mem.write (some rgnode) { node with next := rglist }
  return (some rgnode, mem)

def OldHeap.initMm (old : OldHeap) : Except PtrError NodeSpace := do
  let vma0 : NodeArea := { vmId := 0, vmStart := 0, vmEnd := 0, sbrk := 0, vmFreergList := old.vmFreergList }
  let mem ← RgMem.initVmRg old.regions old.firstRg vma0.vmStart vma0.vmEnd
  let (vmFreergList, mem) ← RgMem.enlistVmRgNode mem vma0.vmFreergList old.firstRg
  return ⟨old.pgd, old.symrgtbl, old.fifoPgn, { vma0 with vmFreergList := vmFreergList }, mem, old.pages⟩

/-! ## What `init_mm` leaves -/

variable {mem : RgMem} {a : Nat} {old old' : OldHeap} {s : NodeSpace} {mm : MmStruct}

theorem RgMem.initVmRg_eq (ha : a ∉ mem.live) (rgStart rgEnd : Nat) : RgMem.initVmRg mem a rgStart rgEnd =
    .ok ⟨Function.update mem.node a ⟨Mm.initVmRg (mem.node a).val.vmaid rgStart rgEnd, none⟩, insert a mem.live⟩ := by
  have hlive : a ∈ insert a mem.live := Finset.mem_insert_self ..
  have hread : NodeMem.read ⟨mem.node, insert a mem.live⟩ (some a) = .ok (mem.node a) := NodeMem.read_of_live hlive
  have hwrite : ∀ n, NodeMem.write ⟨mem.node, insert a mem.live⟩ (some a) n =
      .ok ⟨Function.update mem.node a n, insert a mem.live⟩ := NodeMem.write_of_live hlive
  rw [RgMem.initVmRg, NodeMem.malloc_of_free ha, PtrError.ok_bind, hread, PtrError.ok_bind, hwrite]
  rfl

theorem RgMem.enlistVmRgNode_eq (ha : a ∈ mem.live) (rglist : Ptr) : RgMem.enlistVmRgNode mem rglist a =
    .ok (some a, { mem with node := Function.update mem.node a { mem.node a with next := rglist } }) := by
  rw [RgMem.enlistVmRgNode, NodeMem.read_of_live ha, PtrError.ok_bind, NodeMem.write_of_live ha, PtrError.ok_bind]
  rfl

def OldHeap.firstRegion (old : OldHeap) : VmRgStruct := initVmRg (old.regions.node old.firstRg).val.vmaid 0 0

def OldHeap.space (old : OldHeap) : NodeSpace where
  pgd := old.pgd
  symrgtbl := old.symrgtbl
  fifoPgn := old.fifoPgn
  vma0 := ⟨0, 0, 0, 0, some old.firstRg⟩
  regions := ⟨Function.update old.regions.node old.firstRg ⟨old.firstRegion, old.vmFreergList⟩,
    insert old.firstRg old.regions.live⟩
  pages := old.pages

theorem OldHeap.initMm_eq (hfresh : old.firstRg ∉ old.regions.live) : old.initMm = .ok old.space := by
  have hlive : old.firstRg ∈ insert old.firstRg old.regions.live := Finset.mem_insert_self ..
  rw [OldHeap.initMm, RgMem.initVmRg_eq hfresh, PtrError.ok_bind, RgMem.enlistVmRgNode_eq hlive, PtrError.ok_bind]
  simp only [Function.update_self, Function.update_idem]
  rfl

structure NodeSpace.Represents (s : NodeSpace) (mm : MmStruct) : Prop where
  pgd : mm.pgd = s.pgd
  symrgtbl : mm.symrgtbl = s.symrgtbl
  fifo : ∃ l, Chain s.pages s.fifoPgn l ∧ mm.fifoPgn = l.map Prod.snd
  mmap : ∃ l, Chain s.regions s.vma0.vmFreergList l ∧
    mm.mmap = [⟨s.vma0.vmId, s.vma0.vmStart, s.vma0.vmEnd, s.vma0.sbrk, l.map Prod.snd⟩]

/-- `initMm` on lists is what the pointers represent. -/
theorem OldHeap.initMm_refines {rgs : List (Nat × VmRgStruct)} {pgs : List (Nat × Nat)}
    (hfresh : old.firstRg ∉ old.regions.live) (hrgs : Chain old.regions old.vmFreergList rgs)
    (hpgs : Chain old.pages old.fifoPgn pgs) : old.space.Represents (Mm.initMm
      ⟨old.pgd, old.symrgtbl, pgs.map Prod.snd, rgs.map Prod.snd, (old.regions.node old.firstRg).val.vmaid⟩) where
  pgd := rfl
  symrgtbl := rfl
  fifo := ⟨pgs, hpgs, rfl⟩
  mmap := ⟨_, hrgs.push hfresh, rfl⟩

/-! ## A new address space -/

/-- A region of the area, inside its bounds. -/
structure NodeArea.Holds (a : NodeArea) (rg : VmRgStruct) : Prop where
  vmaid : rg.vmaid = a.vmId
  start : a.vmStart ≤ rg.rgStart
  order : rg.rgStart ≤ rg.rgEnd
  stop : rg.rgEnd ≤ a.vmEnd

/-- No page is present or queued, no region is allocated, and the free region list ends and has regions of the area. -/
structure NodeSpace.Fresh (s : NodeSpace) : Prop where
  absent : ∀ p < PAGING_MAX_PGN, pagingPagePresent (s.pgd p) = false
  fifo : s.fifoPgn = none
  empty : ∀ r < PAGING_MAX_SYMTBL_SZ, (s.symrgtbl r).rgEnd ≤ (s.symrgtbl r).rgStart
  regions : ∃ l, Chain s.regions s.vma0.vmFreergList l ∧ ∀ x ∈ l, s.vma0.Holds x.2

/-- The contents are those of a new address space already, where `init_mm` leaves them. -/
structure OldHeap.Clean (old : OldHeap) : Prop where
  absent : ∀ p < PAGING_MAX_PGN, pagingPagePresent (old.pgd p) = false
  fifo : old.fifoPgn = none
  empty : ∀ r < PAGING_MAX_SYMTBL_SZ, (old.symrgtbl r).rgEnd ≤ (old.symrgtbl r).rgStart
  vmaid : (old.regions.node old.firstRg).val.vmaid = 0
  regions : ∃ l, Chain old.regions old.vmFreergList l ∧ ∀ x ∈ l, x.2 = newRegion

theorem holds_new_iff {rg : VmRgStruct} : NodeArea.Holds ⟨0, 0, 0, 0, some old.firstRg⟩ rg ↔ rg = newRegion := by
  constructor
  · rintro ⟨hvmaid, -, horder, hstop⟩
    have hend : rg.rgEnd = 0 := Nat.le_zero.mp hstop
    have hstart : rg.rgStart = 0 := Nat.le_zero.mp (hend ▸ horder)
    cases rg
    simp only at hvmaid hend hstart
    rw [hvmaid, hend, hstart, newRegion]
  · rintro rfl
    exact ⟨rfl, le_rfl, le_rfl, le_rfl⟩

theorem OldHeap.firstRegion_eq_iff : old.firstRegion = newRegion ↔ (old.regions.node old.firstRg).val.vmaid = 0 := by
  rw [OldHeap.firstRegion, initVmRg, newRegion, VmRgStruct.mk.injEq]
  exact and_iff_left ⟨rfl, rfl⟩

/-- The address space is new if and only if the contents were clean. -/
theorem OldHeap.fresh_iff (hfresh : old.firstRg ∉ old.regions.live) : old.space.Fresh ↔ old.Clean := by
  have hchain : ∀ l, Chain old.space.regions old.space.vma0.vmFreergList l ↔
      ∃ l', l = (old.firstRg, old.firstRegion) :: l' ∧ Chain old.regions old.vmFreergList l' :=
        fun _ => chain_push_iff hfresh
  have hholds : ∀ rg, old.space.vma0.Holds rg ↔ rg = newRegion := fun _ => holds_new_iff
  constructor
  · rintro ⟨habsent, hfifo, hempty, l, hl, hall⟩
    obtain ⟨l', rfl, hl'⟩ := (hchain l).mp hl
    rw [List.forall_mem_cons] at hall
    exact ⟨habsent, hfifo, hempty, OldHeap.firstRegion_eq_iff.mp ((hholds _).mp hall.1),
      l', hl', fun x hx => (hholds _).mp (hall.2 x hx)⟩
  · rintro ⟨habsent, hfifo, hempty, hvmaid, l, hl, hall⟩
    refine ⟨habsent, hfifo, hempty, _, (hchain _).mpr ⟨l, rfl, hl⟩, List.forall_mem_cons.mpr ⟨?_, fun x hx => ?_⟩⟩
    · exact (hholds _).mpr (OldHeap.firstRegion_eq_iff.mpr hvmaid)
    · exact (hholds _).mpr (hall x hx)

theorem OldHeap.Clean.represents (h : old.Clean) (hfresh : old.firstRg ∉ old.regions.live) :
    ∃ mm, old.space.Represents mm := by
  obtain ⟨l, hl, -⟩ := h.regions
  exact ⟨_, OldHeap.initMm_refines hfresh hl (by rw [h.fifo]; exact .nil)⟩

theorem OldHeap.Clean.newSpace (h : old.Clean) (hfresh : old.firstRg ∉ old.regions.live)
    (hr : old.space.Represents mm) :
    NewSpace mm where
  area := by
    obtain ⟨l, hl, hall⟩ := h.regions
    obtain ⟨k, hk, hmmap⟩ := hr.mmap
    obtain rfl := hk.unique (hl.push hfresh)
    refine ⟨l.length, ?_⟩
    have hlist : (((old.firstRg, old.firstRegion) :: l).map Prod.snd) = newRegions l.length := by
      rw [List.map_cons, OldHeap.firstRegion_eq_iff.mpr h.vmaid, List.map_congr_left hall, List.map_const']
      rfl
    rw [hmmap, hlist]
    rfl
  absent := fun p hp => by
    rw [hr.pgd]
    exact h.absent p hp
  fifo := by
    obtain ⟨l, hl, hfifo⟩ := hr.fifo
    rw [show old.space.fifoPgn = none from h.fifo] at hl
    rw [hfifo, hl.eq_nil]
    rfl
  empty := fun r hlt => by
    rw [hr.symrgtbl]
    exact h.empty r hlt

/-! ## What calls see of the contents -/

/-- After `init_mm` both address spaces are new, and no calls can tell them apart. -/
def NewSpaces (old old' : OldHeap) : Prop :=
  ∃ s s' mm mm', old.initMm = .ok s ∧ old'.initMm = .ok s' ∧ s.Fresh ∧ s'.Fresh ∧ s.Represents mm ∧ s'.Represents mm' ∧
    SameResults mm mm'

/-- Old contents do not matter if and only if they were clean, with the same slot fields in the page table and the same
addresses in the symbol table. -/
theorem newSpaces_iff (hfresh : old.firstRg ∉ old.regions.live) (hfresh' : old'.firstRg ∉ old'.regions.live) :
    NewSpaces old old' ↔ old.Clean ∧ old'.Clean ∧ Leftovers old.pgd old'.pgd old.symrgtbl old'.symrgtbl := by
  have hleft : ∀ {mm mm'}, old.space.Represents mm → old'.space.Represents mm' →
      Leftovers mm.pgd mm'.pgd mm.symrgtbl mm'.symrgtbl = Leftovers old.pgd old'.pgd old.symrgtbl old'.symrgtbl := by
    intro mm mm' hr hr'
    rw [hr.pgd, hr'.pgd, hr.symrgtbl, hr'.symrgtbl]
    rfl
  constructor
  · rintro ⟨s, s', mm, mm', hs, hs', hf, hf', hr, hr', hsame⟩
    cases (OldHeap.initMm_eq hfresh).symm.trans hs
    cases (OldHeap.initMm_eq hfresh').symm.trans hs'
    have hc := (OldHeap.fresh_iff hfresh).mp hf
    have hc' := (OldHeap.fresh_iff hfresh').mp hf'
    refine ⟨hc, hc', ?_⟩
    rw [← hleft hr hr']
    exact ((hc.newSpace hfresh hr).sameResults_iff (hc'.newSpace hfresh' hr')).mp hsame
  · rintro ⟨hc, hc', hl⟩
    obtain ⟨mm, hr⟩ := hc.represents hfresh
    obtain ⟨mm', hr'⟩ := hc'.represents hfresh'
    rw [← hleft hr hr'] at hl
    exact ⟨_, _, mm, mm', OldHeap.initMm_eq hfresh, OldHeap.initMm_eq hfresh', (OldHeap.fresh_iff hfresh).mpr hc,
      (OldHeap.fresh_iff hfresh').mpr hc', hr, hr',
      ((hc.newSpace hfresh hr).sameResults_iff (hc'.newSpace hfresh' hr')).mpr hl⟩

/-- Memory that holds zeros, but for the page table. -/
def OldHeap.zeroed (pgd : Nat → Word) : OldHeap where
  pgd := pgd
  symrgtbl := fun _ => ⟨0, 0, 0⟩
  fifoPgn := none
  vmFreergList := none
  regions := ⟨fun _ => ⟨⟨0, 0, 0⟩, none⟩, ∅⟩
  pages := ⟨fun _ => ⟨0, none⟩, ∅⟩
  firstRg := 0

/-- Zeros, and a page table with the slot of page 3 left in an entry that is not present. -/
theorem newSpaces_iff_slot : NewSpaces (.zeroed fun _ => 0) (.zeroed (Function.update (fun _ => 0) 3 96)) ↔
    (OldHeap.zeroed fun _ => 0).Clean ∧ (OldHeap.zeroed (Function.update (fun _ => 0) 3 96)).Clean ∧
      Leftovers (fun _ => 0) (Function.update (fun _ => 0) 3 96) (fun _ => ⟨0, 0, 0⟩) (fun _ => ⟨0, 0, 0⟩) :=
  newSpaces_iff (Finset.notMem_empty _) (Finset.notMem_empty _)

/-- A page table that still held a present entry. -/
theorem old_entry_present : ¬ ∀ old old' : OldHeap, old.firstRg ∉ old.regions.live → old'.firstRg ∉ old'.regions.live →
    NewSpaces old old' := by
  intro h
  obtain ⟨s, -, -, -, hs, -, hfresh, -⟩ := h (.zeroed fun _ => 2147483648) (.zeroed fun _ => 0) (Finset.notMem_empty _)
    (Finset.notMem_empty _)
  cases (OldHeap.initMm_eq (Finset.notMem_empty _)).symm.trans hs
  have habsent := hfresh.absent 0 (by decide)
  revert habsent
  decide

end SimpleOs.Mm
