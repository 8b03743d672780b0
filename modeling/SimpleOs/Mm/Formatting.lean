import SimpleOs.Lib.LinkedList
import SimpleOs.Mm.Frames

/-!
# Formatting a device

`MEMPHY_format` links a node for each frame; `init_memphy` clears neither the pointer it sets nor the memory `malloc`
returns.

* `FrameDev`, `FrameDev.memphyFormat`, `FrameDev.memphyGetFreefp` : the free frame list as nodes in memory;
* `formatLoop_appended` : the nodes the loop appends; `FrameDev.memphyFormat_two`, `FrameDev.memphyFormat_one`,
  `FrameDev.memphyFormat_none` : what a device of so many frames is left with;
* `FrameDev.memphyFormat_refines` : the list `memphyFormat` gives for what the old pointers lead to;
* `FrameDev.gets_chain` : the frames of a list, taken one by one;
* `formatted_iff` : which devices get a complete list; `framesDecode_iff` : which have frames a page table can name.
-/

namespace SimpleOs.Mm

structure FrameDev where
  mem : NodeMem Nat
  freeFpList : Ptr

/-- The loop of `MEMPHY_format`, for the nodes left to append from `iter` on; `malloc` returns `addr iter`. -/
def formatLoop (addr : Nat → Nat) : Nat → Nat → Nat → NodeMem Nat → Except PtrError (NodeMem Nat)
  | 0, _, _, mem => .ok mem
  | left + 1, iter, fst, mem => do
    let newfst := addr iter
    let mem ← mem.malloc newfst
    let mem ← mem.write (some newfst) ⟨iter, none⟩
    let node ← mem.read (some fst)
    let mem ← mem.write (some fst) { node with next := some newfst }
    formatLoop addr left (iter + 1) newfst mem

/-- `MEMPHY_format` : status and device. -/
def FrameDev.memphyFormat (addr : Nat → Nat) (maxsz pagesz : Nat) (mp : FrameDev) :
    Except PtrError (Int × FrameDev) := do
  let numfp := maxsz / pagesz
  if numfp = 0 then return (-1, mp)
  let fst := addr 0
  let mem ← mp.mem.malloc fst
  let node ← mem.read (some fst)
  let mem ← mem.write (some fst) { node with val := 0 }
  let mem ← formatLoop addr (numfp - 1) 1 fst mem
  return (0, ⟨mem, some fst⟩)

/-- `MEMPHY_get_freefp` : status, frame (`none` when it was not set) and device. -/
def FrameDev.memphyGetFreefp (mp : FrameDev) : Except PtrError (Int × Option Nat × FrameDev) :=
  match mp.freeFpList with
  | none => return (-1, none, mp)
  | some a => do
    let fp ← mp.mem.read (some a)
    let mem ← mp.mem.free (some a)
    return (0, some fp.val, ⟨mem, fp.next⟩)

/-- What so many calls of `MEMPHY_get_freefp` return. -/
def FrameDev.gets : Nat → FrameDev → Except PtrError (List (Int × Option Nat))
  | 0, _ => .ok []
  | n + 1, mp => do
    let (ret, fpn, mp) ← mp.memphyGetFreefp
    let l ← FrameDev.gets n mp
    return (ret, fpn) :: l

/-! ## The loop -/

variable {addr : Nat → Nat} {mem mem' : NodeMem Nat} {mp : FrameDev} {l : List (Nat × Nat)} {left iter fst : Nat}

def frameNodes (addr : Nat → Nat) (iter left : Nat) : List (Nat × Nat) :=
  (List.range' iter left).map fun i => (addr i, i)

theorem frameNodes_succ (addr : Nat → Nat) (iter left : Nat) :
    frameNodes addr iter (left + 1) = (addr iter, iter) :: frameNodes addr (iter + 1) left := by
  rw [frameNodes, List.range'_succ, List.map_cons, frameNodes]

theorem frameNodes_snd (addr : Nat → Nat) (iter left : Nat) :
    (frameNodes addr iter left).map Prod.snd = List.range' iter left := by
  rw [frameNodes, List.map_map]
  exact List.map_id _

/-- The node at `fst` is followed by nodes for the frames from `iter` on, the last one ends the list, and what
else was in use stays as it was. -/
structure Appended (addr : Nat → Nat) (iter left fst : Nat) (mem mem' : NodeMem Nat) : Prop where
  first : mem'.node fst = ⟨(mem.node fst).val, some (addr iter)⟩
  chain : Chain mem' (some (addr iter)) (frameNodes addr iter left)
  kept : ∀ a, a ≠ fst → (∀ i, iter ≤ i → a ≠ addr i) → mem'.node a = mem.node a
  live : mem.live ⊆ mem'.live

def appendNode (mem : NodeMem Nat) (fst newfst iter : Nat) : NodeMem Nat where
  node := Function.update (Function.update mem.node newfst ⟨iter, none⟩) fst ⟨(mem.node fst).val, some newfst⟩
  live := insert newfst mem.live

theorem formatLoop_succ (hfst : fst ∈ mem.live) (hfresh : addr iter ∉ mem.live) :
    formatLoop addr (left + 1) iter fst mem =
      formatLoop addr left (iter + 1) (addr iter) (appendNode mem fst (addr iter) iter) := by
  have hne : fst ≠ addr iter := fun he => hfresh (he ▸ hfst)
  have hread : NodeMem.read
      ⟨Function.update mem.node (addr iter) ⟨iter, none⟩, insert (addr iter) mem.live⟩ (some fst) =
      .ok (mem.node fst) := by
    rw [NodeMem.read_of_live (Finset.mem_insert_of_mem hfst)]
    exact congrArg Except.ok (Function.update_of_ne hne ..)
  rw [formatLoop, NodeMem.malloc_of_free hfresh, PtrError.ok_bind,
    NodeMem.write_of_live (Finset.mem_insert_self ..), PtrError.ok_bind, hread, PtrError.ok_bind,
    NodeMem.write_of_live (Finset.mem_insert_of_mem hfst), PtrError.ok_bind]
  rfl

theorem appendNode_kept {a newfst : Nat} (ha : a ≠ fst) (ha' : a ≠ newfst) :
    (appendNode mem fst newfst iter).node a = mem.node a :=
  (Function.update_of_ne ha ..).trans (Function.update_of_ne ha' ..)

theorem appendNode_new {newfst : Nat} (hne : newfst ≠ fst) :
    (appendNode mem fst newfst iter).node newfst = ⟨iter, none⟩ :=
  (Function.update_of_ne hne ..).trans (Function.update_self ..)

theorem fresh_insert (hinj : Function.Injective addr) {live : Finset Nat} (hfresh : ∀ i, iter ≤ i → addr i ∉ live) :
    ∀ i, iter + 1 ≤ i → addr i ∉ insert (addr iter) live := by
  intro i hi hin
  rcases Finset.mem_insert.mp hin with he | hin
  · have := hinj he
    omega
  · exact hfresh i (by omega) hin

theorem formatLoop_appended (hinj : Function.Injective addr) (hfst : fst ∈ mem.live)
    (hfresh : ∀ i, iter ≤ i → addr i ∉ mem.live) :
    ∃ mem', formatLoop addr (left + 1) iter fst mem = .ok mem' ∧ Appended addr iter (left + 1) fst mem mem' := by
  have hne : ∀ i, iter ≤ i → addr i ≠ fst := fun i hi he => hfresh i hi (he ▸ hfst)
  have hnew : addr iter ∈ (appendNode mem fst (addr iter) iter).live := Finset.mem_insert_self ..
  have hlink : (appendNode mem fst (addr iter) iter).node fst = ⟨(mem.node fst).val, some (addr iter)⟩ :=
    Function.update_self ..
  rw [formatLoop_succ hfst (hfresh iter le_rfl)]
  induction left generalizing iter fst mem with
  | zero =>
    refine ⟨_, rfl, hlink, ?_, fun a ha hi => appendNode_kept ha (hi iter le_rfl), Finset.subset_insert ..⟩
    rw [frameNodes_succ]
    exact .cons hnew (appendNode_new (hne iter le_rfl)) .nil
  | succ left ih =>
    have hfresh' : ∀ i, iter + 1 ≤ i → addr i ∉ (appendNode mem fst (addr iter) iter).live := fresh_insert hinj hfresh
    have hne' : ∀ i, iter + 1 ≤ i → addr i ≠ addr iter := fun i hi he => hfresh' i hi (he ▸ hnew)
    rw [formatLoop_succ hnew (hfresh' _ le_rfl)]
    obtain ⟨mem', hloop, hfirst, hchain, hkept, hlive⟩ :=
      ih hnew hfresh' hne' (Finset.mem_insert_self ..) (Function.update_self ..)
    refine ⟨mem', hloop, ?_, ?_, ?_, (Finset.subset_insert ..).trans hlive⟩
    · rw [hkept fst (hne iter le_rfl).symm fun i hi => (hne i (by omega)).symm, hlink]
    · rw [frameNodes_succ]
      refine .cons (hlive hnew) (hfirst.trans ?_) hchain
      rw [appendNode_new (hne iter le_rfl)]
    · intro a ha hi
      rw [hkept a (hi iter le_rfl) fun i hi' => hi i (by omega), appendNode_kept ha (hi iter le_rfl)]

/-! ## The free list -/

variable {maxsz pagesz n : Nat}

/-- The memory with the head of the list in use: its link is what the memory held. -/
def headNode (mem : NodeMem Nat) (fst : Nat) : NodeMem Nat where
  node := Function.update mem.node fst ⟨0, (mem.node fst).next⟩
  live := insert fst mem.live

theorem headNode_self (mem : NodeMem Nat) (fst : Nat) : (headNode mem fst).node fst = ⟨0, (mem.node fst).next⟩ :=
  Function.update_self ..

theorem FrameDev.memphyFormat_none (h : maxsz / pagesz = 0) : mp.memphyFormat addr maxsz pagesz = .ok (-1, mp) := by
  rw [FrameDev.memphyFormat, h]
  rfl

theorem FrameDev.memphyFormat_succ (h : maxsz / pagesz = n + 1) (hfresh : addr 0 ∉ mp.mem.live) :
    mp.memphyFormat addr maxsz pagesz =
      formatLoop addr n 1 (addr 0) (headNode mp.mem (addr 0)) >>= fun mem => .ok (0, ⟨mem, some (addr 0)⟩) := by
  have hlive : addr 0 ∈ (insert (addr 0) mp.mem.live) := Finset.mem_insert_self ..
  have hmalloc := NodeMem.malloc_of_free hfresh
  have hread : NodeMem.read ⟨mp.mem.node, insert (addr 0) mp.mem.live⟩ (some (addr 0)) = .ok _ :=
    NodeMem.read_of_live hlive
  have hwrite : ∀ node, NodeMem.write ⟨mp.mem.node, insert (addr 0) mp.mem.live⟩ (some (addr 0)) node = .ok _ :=
    NodeMem.write_of_live hlive
  simp only [FrameDev.memphyFormat, h, Nat.add_sub_cancel, Nat.add_eq_zero_iff, Nat.one_ne_zero, and_false,
    if_false, hmalloc, PtrError.ok_bind, hread, hwrite]
  rfl

/-- A device of two frames and more gets all of them. -/
theorem FrameDev.memphyFormat_two (hinj : Function.Injective addr) (hfresh : ∀ i, addr i ∉ mp.mem.live)
    (h : maxsz / pagesz = n + 2) : ∃ mp', mp.memphyFormat addr maxsz pagesz = .ok (0, mp') ∧
      Chain mp'.mem mp'.freeFpList (frameNodes addr 0 (n + 2)) := by
  have hlive : addr 0 ∈ (headNode mp.mem (addr 0)).live := Finset.mem_insert_self ..
  have hfresh' : ∀ i, 1 ≤ i → addr i ∉ (headNode mp.mem (addr 0)).live := fresh_insert hinj fun i _ => hfresh i
  obtain ⟨mem', hloop, hfirst, hchain, -, hsub⟩ :
      ∃ mem', formatLoop addr (n + 1) 1 (addr 0) (headNode mp.mem (addr 0)) = .ok mem' ∧
        Appended addr 1 (n + 1) (addr 0) (headNode mp.mem (addr 0)) mem' :=
    formatLoop_appended hinj hlive hfresh'
  refine ⟨⟨mem', some (addr 0)⟩, ?_, ?_⟩
  · rw [FrameDev.memphyFormat_succ h (hfresh 0), hloop]
    rfl
  · rw [frameNodes_succ]
    refine .cons (hsub hlive) (hfirst.trans ?_) hchain
    rw [headNode_self]

/-- A device of one frame: the list goes on with what the memory of its node held. -/
theorem FrameDev.memphyFormat_one (hfresh : addr 0 ∉ mp.mem.live) (h : maxsz / pagesz = 1) :
    mp.memphyFormat addr maxsz pagesz = .ok (0, ⟨headNode mp.mem (addr 0), some (addr 0)⟩) :=
  FrameDev.memphyFormat_succ h hfresh

theorem headNode_chain {p : Ptr} (h : Chain mp.mem p l) (hfresh : addr 0 ∉ mp.mem.live) :
    Chain (headNode mp.mem (addr 0)) p l := by
  refine h.congr (fun x hx => Finset.mem_insert_of_mem (h.live x hx)) fun x hx => ?_
  have hne : x.1 ≠ addr 0 := fun he => hfresh (he ▸ h.live x hx)
  exact Function.update_of_ne hne ..

/-- Formatting on nodes gives the list it gives on lists, when the old pointers lead to lists. -/
theorem FrameDev.memphyFormat_refines (hinj : Function.Injective addr) (hfresh : ∀ i, addr i ∉ mp.mem.live)
    {raw : RawMemphy}
    {lfree lhead : List (Nat × Nat)} (hfree : Chain mp.mem mp.freeFpList lfree)
    (hhead : Chain mp.mem (mp.mem.node (addr 0)).next lhead)
    (hraw : raw.freeFpList = lfree.map Prod.snd ∧ raw.headNext = lhead.map Prod.snd) :
    ∃ mp' l, mp.memphyFormat addr maxsz pagesz = .ok ((Mm.memphyFormat raw maxsz pagesz).1, mp') ∧
      Chain mp'.mem mp'.freeFpList l ∧ l.map Prod.snd = (Mm.memphyFormat raw maxsz pagesz).2 := by
  rw [Mm.memphyFormat, hraw.1, hraw.2]
  rcases hn : maxsz / pagesz with _ | _ | n
  · exact ⟨mp, lfree, FrameDev.memphyFormat_none hn, hfree, rfl⟩
  · refine ⟨_, (addr 0, 0) :: lhead, FrameDev.memphyFormat_one (hfresh 0) hn, ?_, rfl⟩
    exact .cons (Finset.mem_insert_self ..) (headNode_self ..) (headNode_chain hhead (hfresh 0))
  · obtain ⟨mp', hformat, hchain⟩ := FrameDev.memphyFormat_two hinj hfresh hn
    refine ⟨mp', _, hformat, hchain, ?_⟩
    rw [frameNodes_snd, List.range'_succ, if_neg (by omega), if_neg (by omega), memphyFormatLoop_eq]
    rfl

/-- The frames of a list are got one by one, and then no more. -/
theorem FrameDev.gets_chain (h : Chain mp.mem mp.freeFpList l) :
    mp.gets (l.length + 1) = .ok (l.map (fun x => (0, some x.2)) ++ [(-1, none)]) := by
  induction l generalizing mp with
  | nil =>
    obtain ⟨mem, p⟩ := mp
    cases h
    rfl
  | cons x l ih =>
    obtain ⟨mem, p⟩ := mp
    have hnodup := h.nodup
    rw [List.map_cons, List.nodup_cons] at hnodup
    obtain ⟨next, rfl, hlive, hnode, hrest⟩ := h.head
    have hget : FrameDev.memphyGetFreefp ⟨mem, some x.1⟩ =
        .ok (0, some x.2, ⟨{ mem with live := mem.live.erase x.1 }, next⟩) := by
      rw [FrameDev.memphyGetFreefp]
      dsimp only
      rw [NodeMem.read_of_live hlive, hnode, PtrError.ok_bind, NodeMem.free_of_live hlive]
      rfl
    rw [List.length_cons, FrameDev.gets, hget, PtrError.ok_bind]
    dsimp only
    rw [ih (hrest.free hnodup.1)]
    rfl

/-! ## Which devices are formatted completely -/

/-- The complete free list: the frames below `n` in their order, properly ended; `MEMPHY_get_freefp` returns each once,
and then fails. -/
structure Formatted (n : Nat) (mp : FrameDev) : Prop where
  list : ∃ l, Chain mp.mem mp.freeFpList l ∧ l.map Prod.snd = List.range n
  gets : mp.gets (n + 1) = .ok ((List.range n).map (fun fpn => (0, some fpn)) ++ [(-1, none)])

/-- Formatting leaves the complete free list. -/
def FormatComplete (addr : Nat → Nat) (maxSize : Nat) (mp : FrameDev) : Prop :=
  ∃ ret mp', mp.memphyFormat addr maxSize PAGING_PAGESZ = .ok (ret, mp') ∧ Formatted (maxSize / PAGING_PAGESZ) mp'

theorem formatted_of_chain (h : Chain mp.mem mp.freeFpList l) (hl : l.map Prod.snd = List.range n) :
    Formatted n mp where
  list := ⟨l, h, hl⟩
  gets := by
    have hlen := congrArg List.length hl
    rw [List.length_map, List.length_range] at hlen
    rw [← hl, List.map_map, ← hlen]
    exact FrameDev.gets_chain h

theorem formatComplete_none {maxSize : Nat} (h : maxSize / PAGING_PAGESZ = 0) :
    FormatComplete addr maxSize mp ↔ mp.freeFpList = none := by
  have hformat : mp.memphyFormat addr maxSize PAGING_PAGESZ = .ok (-1, mp) := FrameDev.memphyFormat_none h
  rw [FormatComplete, h]
  constructor
  · rintro ⟨ret, mp', hmp', ⟨l, hchain, hl⟩, -⟩
    cases hformat.symm.trans hmp'
    obtain rfl := List.map_eq_nil_iff.mp hl
    exact hchain.ptr_eq_none
  · intro hnone
    refine ⟨-1, mp, hformat, formatted_of_chain (l := []) ?_ rfl⟩
    rw [hnone]
    exact .nil

theorem formatComplete_one {maxSize : Nat} (hfresh : addr 0 ∉ mp.mem.live) (h : maxSize / PAGING_PAGESZ = 1) :
    FormatComplete addr maxSize mp ↔ (mp.mem.node (addr 0)).next = none := by
  have hformat : mp.memphyFormat addr maxSize PAGING_PAGESZ = .ok (0, _) := FrameDev.memphyFormat_one hfresh h
  rw [FormatComplete, h]
  constructor
  · rintro ⟨ret, mp', hmp', ⟨l, hchain, hl⟩, -⟩
    cases hformat.symm.trans hmp'
    obtain ⟨⟨a, v⟩, rfl, -⟩ := List.map_eq_singleton_iff.mp hl
    obtain ⟨next, hx, -, hnode, hrest⟩ := hchain.head
    cases hx
    rw [headNode_self] at hnode
    exact (congrArg Node.next hnode).trans hrest.ptr_eq_none
  · intro hnone
    refine ⟨0, _, hformat, formatted_of_chain (l := [(addr 0, 0)]) ?_ rfl⟩
    exact .cons (Finset.mem_insert_self ..) (by rw [headNode_self, hnone]) .nil

/-- A device is formatted completely if and only if it has two frames and more, or one and the memory of the first node
held a null link, or none and the old list was empty. -/
theorem formatted_iff {maxSize : Nat} (hinj : Function.Injective addr) (hfresh : ∀ i, addr i ∉ mp.mem.live) :
    FormatComplete addr maxSize mp ↔ 2 * PAGING_PAGESZ ≤ maxSize ∨
      (PAGING_PAGESZ ≤ maxSize ∧ (mp.mem.node (addr 0)).next = none) ∨
        maxSize < PAGING_PAGESZ ∧ mp.freeFpList = none := by
  have hdiv : maxSize / PAGING_PAGESZ = maxSize / 256 := rfl
  have hsz : PAGING_PAGESZ = 256 := rfl
  rcases hn : maxSize / PAGING_PAGESZ with _ | _ | n
  · rw [formatComplete_none hn]
    refine ⟨fun hnone => .inr (.inr ⟨by omega, hnone⟩), ?_⟩
    rintro (hle | ⟨hle, -⟩ | ⟨-, hnone⟩)
    · omega
    · omega
    · exact hnone
  · rw [formatComplete_one (hfresh 0) hn]
    refine ⟨fun hnone => .inr (.inl ⟨by omega, hnone⟩), ?_⟩
    rintro (hle | ⟨-, hnone⟩ | ⟨hlt, -⟩)
    · omega
    · exact hnone
    · omega
  · refine ⟨fun _ => .inl (by omega), fun _ => ?_⟩
    obtain ⟨mp', hformat, hchain⟩ := FrameDev.memphyFormat_two hinj hfresh hn
    refine ⟨0, mp', hformat, ?_⟩
    rw [hn]
    exact formatted_of_chain hchain (by rw [frameNodes_snd, List.range_eq_range'])

/-- A device of 600 bytes, whose memory held links to address 9. -/
theorem formatted_iff_two : FormatComplete (fun i => i) 600 ⟨⟨fun _ => ⟨0, some 9⟩, ∅⟩, some 9⟩ ↔
    2 * PAGING_PAGESZ ≤ 600 ∨ (PAGING_PAGESZ ≤ 600 ∧ (some 9 : Ptr) = none) ∨
      600 < PAGING_PAGESZ ∧ (some 9 : Ptr) = none :=
  formatted_iff Function.injective_id fun _ => Finset.notMem_empty _

/-- A swap device of size 0, whose memory held a pointer to address 9. -/
theorem format_keeps_old_list : ¬ ∀ (addr : Nat → Nat) (maxSize : Nat) (mp : FrameDev), Function.Injective addr →
    (∀ i, addr i ∉ mp.mem.live) → FormatComplete addr maxSize mp := by
  intro hall
  obtain ⟨ret, mp', hformat, hdone⟩ := hall (fun i => i) 0 ⟨⟨fun _ => ⟨0, none⟩, ∅⟩, some 9⟩ Function.injective_id
    fun _ => Finset.notMem_empty _
  have hnone : FrameDev.memphyFormat (fun i => i) 0 PAGING_PAGESZ ⟨⟨fun _ => ⟨0, none⟩, ∅⟩, some 9⟩ = .ok (-1, _) :=
    FrameDev.memphyFormat_none (by decide)
  cases hnone.symm.trans hformat
  obtain ⟨l, hchain, -⟩ := hdone.list
  cases hchain with
  | cons hlive => exact absurd hlive (Finset.notMem_empty _)

/-! ## Frames and entries -/

/-- Every frame fits an entry: two pages that are given different free frames of a device of that size name exactly
these frames. -/
def FramesDecode (memramsz : Nat) : Prop :=
  ∀ a ∈ (initMemphy .zeroed memramsz true).freeFpList, ∀ b ∈ (initMemphy .zeroed memramsz true).freeFpList, a ≠ b →
    ∀ (mm : MmStruct) (p q : Nat), p ≠ q →
      pagingFpn ((mapPage (mapPage mm p a) q b).pgd p) = a ∧ pagingFpn ((mapPage (mapPage mm p a) q b).pgd q) = b

theorem pagingFpn_mapPage {mm : MmStruct} {p q a b : Nat} (hpq : p ≠ q) :
    pagingFpn ((mapPage (mapPage mm p a) q b).pgd p) = a % 2 ^ 13 ∧
      pagingFpn ((mapPage (mapPage mm p a) q b).pgd q) = b % 2 ^ 13 := by
  rw [mapPage_pgd, Function.update_of_ne hpq, Function.update_self, mapPage_pgd, Function.update_self, pagingFpn_setFpn,
    pagingFpn_setFpn]
  exact ⟨rfl, rfl⟩

theorem FramesDecode.lt {memramsz : Nat} (h : FramesDecode memramsz) : memramsz < 2 ^ 21 + PAGING_PAGESZ := by
  have hdiv : memramsz / PAGING_PAGESZ = memramsz / 256 := rfl
  have hsz : PAGING_PAGESZ = 256 := rfl
  rw [FramesDecode, initMemphy_zeroed] at h
  simp only [List.mem_range] at h
  by_contra hbig
  have hhigh := (h 8192 (by omega) 0 (by omega) (by decide) (initMm .zeroed) 0 1 (by decide)).1
  rw [(pagingFpn_mapPage (by decide)).1] at hhigh
  exact absurd hhigh (by decide)

/-- Every frame fits an entry exactly up to 8192 frames, the number of values of the frame field. -/
theorem framesDecode_iff (memramsz : Nat) : FramesDecode memramsz ↔ memramsz < 2 ^ 21 + PAGING_PAGESZ := by
  have hdiv : memramsz / PAGING_PAGESZ = memramsz / 256 := rfl
  have hsz : PAGING_PAGESZ = 256 := rfl
  constructor
  · exact FramesDecode.lt
  · rw [FramesDecode, initMemphy_zeroed]
    simp only [List.mem_range]
    intro hsmall a ha b hb _ mm p q hpq
    rw [(pagingFpn_mapPage hpq).1, (pagingFpn_mapPage hpq).2]
    exact ⟨Nat.mod_eq_of_lt (by omega), Nat.mod_eq_of_lt (by omega)⟩

/-- Frame 8192 of a RAM of 2097408 bytes. -/
theorem high_frame_wraps : ¬ ∀ memramsz : Nat, memramsz < 2 ^ 31 → FramesDecode memramsz := by
  intro hall
  exact absurd (hall 2097408 (by decide)).lt (by decide)

end SimpleOs.Mm
