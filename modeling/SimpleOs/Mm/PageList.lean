import SimpleOs.Lib.LinkedList
import SimpleOs.Lib.Run
import SimpleOs.Mm.AccessSpec

/-!
# The replacement queue in memory

`fifo_pgn` points to the node of the page enlisted last; `find_victim_page` walks to the last node with two pointers.

* `PgnList`, `PgnList.enlistPgnNode`, `PgnList.findVictimPage` : the two functions on nodes in memory;
* `victimWalk_chain` : where the walk ends; `PgnList.enlistPgnNode_chain`, `PgnList.findVictimPage_chain` : what they
  do to a chain; `PgnList.findVictimPage_refines`, `PgnList.enlistPgnNode_refines` : the functions on lists do the same;
* `enlisted`, `victims`, `FifoOrder`, `replacement_fifo` : any calls of the two, in the order of the queue.
-/

namespace SimpleOs.Mm

structure PgnList where
  mem : NodeMem Int
  fifoPgn : Ptr

/-- `enlist_pgn_node`, where `malloc` returns address `pnode`. -/
def PgnList.enlistPgnNode (s : PgnList) (pnode : Nat) (pgn : Int) : Except PtrError (Int × PgnList) := do
  let mem ← s.mem.malloc pnode
  let mem ← mem.write (some pnode) ⟨pgn, s.fifoPgn⟩
  return (0, ⟨mem, some pnode⟩)

/-- The loop of `find_victim_page` : the pointers `prev` and `pg` it ends with. -/
def victimWalk (mem : NodeMem Int) : Nat → Ptr → Ptr → Except PtrError (Ptr × Ptr)
  | 0, _, _ => .error .loop
  | rounds + 1, prev, pg => do
    let node ← mem.read pg
    if node.next = none then return (prev, pg)
    let before ← mem.read prev
    victimWalk mem rounds before.next node.next

/-- `find_victim_page` : status, `*retpgn` and the list. A walk that takes more rounds than there are nodes has
no end. -/
def PgnList.findVictimPage (s : PgnList) : Except PtrError (Int × Int × PgnList) :=
  match s.fifoPgn with
  | none => return (-1, -1, s)
  | some pg => do
    let node ← s.mem.read (some pg)
    if node.next = none then
      let mem ← s.mem.free (some pg)
      return (0, node.val, ⟨mem, none⟩)
    let (prev, pg) ← victimWalk s.mem s.mem.live.card (some pg) node.next
    let node ← s.mem.read pg
    let before ← s.mem.read prev
    let mem ← s.mem.write prev { before with next := none }
    let mem ← mem.free pg
    return (0, node.val, { s with mem := mem })

/-! ## On chains -/

variable {s s' : PgnList} {mem : NodeMem Int} {l : List (Nat × Int)} {x y : Nat × Int} {p : Ptr}

/-- The walk ends with its pointers on the last two nodes. -/
theorem victimWalk_chain {rounds : Nat} (h : Chain mem p (x :: y :: l)) (hrounds : l.length < rounds) :
    ∃ l₁ x' y', x :: y :: l = l₁ ++ [x', y'] ∧
      victimWalk mem rounds (some x.1) (some y.1) = .ok (some x'.1, some y'.1) := by
  induction l generalizing p x y rounds with
  | nil =>
    obtain ⟨rounds, rfl⟩ := Nat.exists_eq_succ_of_ne_zero (Nat.ne_of_gt hrounds)
    obtain ⟨next, -, -, -, h⟩ := h.head
    obtain ⟨next', -, hlive, hnode, hrest⟩ := h.head
    refine ⟨[], x, y, rfl, ?_⟩
    rw [victimWalk, NodeMem.read_of_live hlive, hnode, PtrError.ok_bind, if_pos hrest.ptr_eq_none]
    rfl
  | cons z l ih =>
    obtain ⟨rounds, rfl⟩ := Nat.exists_eq_succ_of_ne_zero (Nat.ne_of_gt (Nat.zero_lt_of_lt hrounds))
    obtain ⟨next, -, hlive, hnode, h⟩ := h.head
    obtain ⟨next', rfl, hlive', hnode', hrest⟩ := h.head
    obtain ⟨next'', rfl, -, -, -⟩ := hrest.head
    obtain ⟨l₁, x', y', hl, hwalk⟩ := ih h (Nat.lt_of_succ_lt_succ hrounds)
    refine ⟨x :: l₁, x', y', by rw [hl, List.cons_append], ?_⟩
    rw [victimWalk, NodeMem.read_of_live hlive', hnode', PtrError.ok_bind, if_neg (Option.some_ne_none _),
      NodeMem.read_of_live hlive, hnode, PtrError.ok_bind]
    exact hwalk

theorem PgnList.enlistPgnNode_chain (h : Chain s.mem s.fifoPgn l) {pnode : Nat} (hfresh : pnode ∉ s.mem.live)
    (pgn : Int) :
    ∃ s', s.enlistPgnNode pnode pgn = .ok (0, s') ∧ Chain s'.mem s'.fifoPgn ((pnode, pgn) :: l) := by
  refine ⟨⟨_, _⟩, ?_, h.push hfresh⟩
  rw [PgnList.enlistPgnNode, NodeMem.malloc_of_free hfresh, PtrError.ok_bind,
    NodeMem.write_of_live (Finset.mem_insert_self ..)]
  rfl

theorem PgnList.findVictimPage_nil (h : Chain s.mem s.fifoPgn []) : s.findVictimPage = .ok (-1, -1, s) := by
  rw [PgnList.findVictimPage, h.ptr_eq_none]
  rfl

theorem PgnList.findVictimPage_single (h : Chain s.mem s.fifoPgn [x]) :
    ∃ s', s.findVictimPage = .ok (0, x.2, s') ∧ Chain s'.mem s'.fifoPgn [] := by
  obtain ⟨next, hp, hlive, hnode, hrest⟩ := h.head
  refine ⟨⟨{ s.mem with live := s.mem.live.erase x.1 }, none⟩, ?_, .nil⟩
  rw [PgnList.findVictimPage, hp]
  dsimp only
  rw [NodeMem.read_of_live hlive, hnode, PtrError.ok_bind, if_pos hrest.ptr_eq_none, NodeMem.free_of_live hlive]
  rfl

/-- With two nodes and more the walk finds the last one, and the one before it becomes the last. -/
theorem PgnList.findVictimPage_walk (h : Chain s.mem s.fifoPgn (l ++ [x, y])) :
    ∃ s', s.findVictimPage = .ok (0, y.2, s') ∧ Chain s'.mem s'.fifoPgn (l ++ [x]) := by
  obtain ⟨z, z', r, hl⟩ : ∃ z z' r, l ++ [x, y] = z :: z' :: r := by
    rcases l with _ | ⟨z, _ | ⟨z', l⟩⟩
    · exact ⟨x, y, [], rfl⟩
    · exact ⟨z, x, [y], rfl⟩
    · exact ⟨z, z', l ++ [x, y], rfl⟩
  have h' : Chain s.mem s.fifoPgn (z :: z' :: r) := hl ▸ h
  have hlen := h'.length_le
  rw [List.length_cons, List.length_cons] at hlen
  obtain ⟨l₁, prev, last, hsplit, hwalk⟩ := victimWalk_chain h' (show r.length < s.mem.live.card by omega)
  obtain ⟨-, htwo⟩ := List.append_inj' (hl.trans hsplit) rfl
  cases htwo
  obtain ⟨next, hp, hlive, hnode, hrest⟩ := h'.head
  obtain ⟨next', rfl, -, -, -⟩ := hrest.head
  have hx : x.1 ∈ s.mem.live := h.live x (by simp)
  have hy : y.1 ∈ s.mem.live := h.live y (by simp)
  have hvx : (s.mem.node x.1).val = x.2 := h.val x (by simp)
  have hvy : (s.mem.node y.1).val = y.2 := h.val y (by simp)
  have hfree : NodeMem.free ⟨Function.update s.mem.node x.1 ⟨x.2, none⟩, s.mem.live⟩ (some y.1) = .ok ⟨_, _⟩ :=
    NodeMem.free_of_live hy
  refine ⟨⟨⟨Function.update s.mem.node x.1 ⟨x.2, none⟩, s.mem.live.erase y.1⟩, s.fifoPgn⟩, ?_, h.dropLast⟩
  rw [PgnList.findVictimPage]
  simp only [hp, NodeMem.read_of_live hlive, hnode, PtrError.ok_bind, reduceCtorEq, if_false, hwalk,
    NodeMem.read_of_live hx, NodeMem.read_of_live hy, NodeMem.write_of_live hx, hvx, hvy, hfree]
  rfl

/-- The last node is the victim, and the nodes before it are left. -/
theorem PgnList.findVictimPage_chain (h : Chain s.mem s.fifoPgn (l ++ [x])) :
    ∃ s', s.findVictimPage = .ok (0, x.2, s') ∧ Chain s'.mem s'.fifoPgn l := by
  rcases List.eq_nil_or_concat l with rfl | ⟨l, y, rfl⟩
  · exact PgnList.findVictimPage_single h
  · rw [List.concat_eq_append] at h ⊢
    rw [List.append_assoc] at h
    exact PgnList.findVictimPage_walk h

/-! ## The functions on lists -/

variable {mm : MmStruct}

def PgnList.Holds (s : PgnList) (pages : List Nat) : Prop :=
  ∃ l, Chain s.mem s.fifoPgn l ∧ l.map Prod.snd = pages.map fun pgn : Nat => (pgn : Int)

theorem PgnList.enlistPgnNode_refines {pages : List Nat} (h : s.Holds pages) {pnode : Nat} (hfresh : pnode ∉ s.mem.live)
    (pgn : Nat) : ∃ s', s.enlistPgnNode pnode pgn = .ok (0, s') ∧ s'.Holds (Mm.enlistPgnNode pages pgn) := by
  obtain ⟨l, hl, hpages⟩ := h
  obtain ⟨s', hs', hl'⟩ := PgnList.enlistPgnNode_chain hl hfresh pgn
  exact ⟨s', hs', _, hl', by rw [List.map_cons, hpages]; rfl⟩

/-- `find_victim_page` on nodes does what it does on lists. -/
theorem PgnList.findVictimPage_refines (h : s.Holds mm.fifoPgn) :
    ∃ s', s.findVictimPage = .ok ((Mm.findVictimPage mm).1, (Mm.findVictimPage mm).2.1, s') ∧
      s'.Holds (Mm.findVictimPage mm).2.2.fifoPgn := by
  obtain ⟨l, hl, hpages⟩ := h
  rcases List.eq_nil_or_concat mm.fifoPgn with hnil | ⟨pages, v, hv⟩
  · rw [Mm.findVictimPage_nil hnil]
    rw [hnil, List.map_nil, List.map_eq_nil_iff] at hpages
    subst hpages
    exact ⟨s, PgnList.findVictimPage_nil hl, [], hl, by rw [hnil]; rfl⟩
  · rw [List.concat_eq_append] at hv
    rw [Mm.findVictimPage_append hv]
    rw [hv, List.map_append, List.map_eq_append_iff] at hpages
    obtain ⟨l₁, l₂, rfl, hl₁, hl₂⟩ := hpages
    obtain ⟨x, rfl, hx⟩ := List.map_eq_singleton_iff.mp hl₂
    obtain ⟨s', hs', hl'⟩ := PgnList.findVictimPage_chain hl
    exact ⟨s', by rw [hs', hx], l₁, hl', hl₁⟩

/-! ## Any calls -/

inductive PgnCall
  | enlist (pnode : Nat) (pgn : Int)
  | findVictim
  deriving DecidableEq

structure PgnResult where
  ret : Int
  retpgn : Option Int
  deriving DecidableEq

def pgnCall (s : PgnList) : PgnCall → Except PtrError (PgnResult × PgnList)
  | .enlist pnode pgn => do
    let (ret, s) ← s.enlistPgnNode pnode pgn
    return (⟨ret, none⟩, s)
  | .findVictim => do
    let (ret, retpgn, s) ← s.findVictimPage
    return (⟨ret, some retpgn⟩, s)

abbrev PgnHistory := List (Entry PgnList PgnCall PgnResult)

def enlisted : PgnHistory → List Int
  | [] => []
  | e :: h =>
    match e.act with
    | .enlist _ pgn => enlisted h ++ [pgn]
    | .findVictim => enlisted h

def victims : PgnHistory → List Int
  | [] => []
  | e :: h =>
    match e.act with
    | .enlist _ _ => victims h
    | .findVictim => if e.res.ret = 0 then victims h ++ e.res.retpgn.toList else victims h

/-- The pages enlisted so far are the victims so far, in order, followed by the pages of the list from its last
node on. -/
def QueueHolds (h : PgnHistory) (s : PgnList) (l : List (Nat × Int)) : Prop :=
  Chain s.mem s.fifoPgn l ∧ enlisted h = victims h ++ (l.map Prod.snd).reverse

/-- Replacement order is first in, first out. After the calls `h`, any page can be enlisted, and
`find_victim_page` succeeds with a page of the queue, or fails with -1 and leaves the empty list as it is if and
only if every page enlisted has been a victim. -/
structure FifoOrder (h : PgnHistory) (s : PgnList) : Prop where
  order : ∃ l, QueueHolds h s l
  enlist : ∀ pnode pgn, pnode ∉ s.mem.live → ∃ s', pgnCall s (.enlist pnode pgn) = .ok (⟨0, none⟩, s')
  findVictim : ∃ r s', pgnCall s .findVictim = .ok (r, s') ∧ (r.ret = 0 ∨ r.ret = -1) ∧
    (r.ret = -1 ↔ enlisted h = victims h) ∧ (r.ret = -1 → s.fifoPgn = none ∧ s' = s)

variable {h : PgnHistory} {r : PgnResult} {call : PgnCall}

theorem QueueHolds.enlist (hq : QueueHolds h s l) {pnode : Nat} (hfresh : pnode ∉ s.mem.live) (pgn : Int) :
    ∃ s', pgnCall s (.enlist pnode pgn) = .ok (⟨0, none⟩, s') ∧
      QueueHolds (⟨s, .enlist pnode pgn, ⟨0, none⟩⟩ :: h) s' ((pnode, pgn) :: l) := by
  obtain ⟨hchain, horder⟩ := hq
  obtain ⟨s', hs', hchain'⟩ := PgnList.enlistPgnNode_chain hchain hfresh pgn
  refine ⟨s', by rw [pgnCall, hs']; rfl, hchain', ?_⟩
  simp only [enlisted, victims, horder, List.map_cons, List.reverse_cons, List.append_assoc]

theorem QueueHolds.findVictim_nil (hq : QueueHolds h s []) :
    pgnCall s .findVictim = .ok (⟨-1, some (-1)⟩, s) ∧ QueueHolds (⟨s, .findVictim, ⟨-1, some (-1)⟩⟩ :: h) s [] := by
  refine ⟨by rw [pgnCall, PgnList.findVictimPage_nil hq.1]; rfl, hq.1, ?_⟩
  simpa only [enlisted, victims, show ¬ (-1 : Int) = 0 by decide, if_false] using hq.2

theorem QueueHolds.findVictim_last (hq : QueueHolds h s (l ++ [x])) :
    ∃ s', pgnCall s .findVictim = .ok (⟨0, some x.2⟩, s') ∧ QueueHolds (⟨s, .findVictim, ⟨0, some x.2⟩⟩ :: h) s' l := by
  obtain ⟨hchain, horder⟩ := hq
  obtain ⟨s', hs', hchain'⟩ := PgnList.findVictimPage_chain hchain
  refine ⟨s', by rw [pgnCall, hs']; rfl, hchain', ?_⟩
  simp only [enlisted, victims, if_true, horder, List.map_append, List.reverse_append, List.append_assoc]
  rfl

theorem QueueHolds.step (hq : QueueHolds h s l) (hx : pgnCall s call = .ok (r, s')) :
    ∃ l', QueueHolds (⟨s, call, r⟩ :: h) s' l' := by
  cases call with
  | enlist pnode pgn =>
    by_cases hfresh : pnode ∈ s.mem.live
    · have hmalloc : s.mem.malloc pnode = .error .inUse := if_pos hfresh
      rw [pgnCall, PgnList.enlistPgnNode, hmalloc] at hx
      cases hx
    · obtain ⟨s₁, hs₁, hq'⟩ := hq.enlist hfresh pgn
      cases hs₁.symm.trans hx
      exact ⟨_, hq'⟩
  | findVictim =>
    rcases List.eq_nil_or_concat l with rfl | ⟨l, x, rfl⟩
    · obtain ⟨hs₁, hq'⟩ := hq.findVictim_nil
      cases hs₁.symm.trans hx
      exact ⟨_, hq'⟩
    · rw [List.concat_eq_append] at hq
      obtain ⟨s₁, hs₁, hq'⟩ := hq.findVictim_last
      cases hs₁.symm.trans hx
      exact ⟨_, hq'⟩

/-- Replacement order is first in, first out, from an empty queue on, for any calls and any memory. -/
theorem replacement_fifo {mem : NodeMem Int} (hrun : Run pgnCall ⟨mem, none⟩ h s) : FifoOrder h s := by
  obtain ⟨l, hq⟩ : ∃ l, QueueHolds h s l :=
    hrun.invariant (I := fun h s => ∃ l, QueueHolds h s l) ⟨[], .nil, rfl⟩ fun _ _ _ _ _ _ ⟨_, hq⟩ hx => hq.step hx
  refine ⟨⟨l, hq⟩, fun pnode pgn hfresh => ?_, ?_⟩
  · obtain ⟨s', hs', -⟩ := hq.enlist hfresh pgn
    exact ⟨s', hs'⟩
  · rcases List.eq_nil_or_concat l with rfl | ⟨l, x, rfl⟩
    · have hnone : s.fifoPgn = none := hq.1.ptr_eq_none
      have hdone : enlisted h = victims h := by rw [hq.2, List.map_nil, List.reverse_nil, List.append_nil]
      exact ⟨_, s, hq.findVictim_nil.1, .inr rfl, ⟨fun _ => hdone, fun _ => rfl⟩, fun _ => ⟨hnone, rfl⟩⟩
    · rw [List.concat_eq_append] at hq
      obtain ⟨s', hs', -⟩ := hq.findVictim_last
      have hleft : enlisted h ≠ victims h := by
        rw [hq.2]
        intro he
        have hlen := congrArg List.length he
        simp only [List.length_append, List.length_reverse, List.length_map, List.length_singleton] at hlen
        omega
      have hret : ¬ (0 : Int) = -1 := by decide
      exact ⟨_, s', hs', .inl rfl, ⟨fun he => absurd he hret, fun he => absurd he hleft⟩, fun he => absurd he hret⟩

theorem replacement_fifo_three : ∃ h s, Run pgnCall ⟨⟨fun _ => ⟨7, some 3⟩, ∅⟩, none⟩ h s ∧
    h.map Entry.act = [.findVictim, .enlist 5 12, .findVictim, .enlist 4 11, .enlist 5 10] ∧ FifoOrder h s := by
  obtain ⟨h, s, hrun, hact, -⟩ := exists_run_of_replay pgnCall ⟨⟨fun _ => ⟨7, some 3⟩, ∅⟩, none⟩
    [.findVictim, .enlist 5 12, .findVictim, .enlist 4 11, .enlist 5 10] (fun _ _ => true) (by decide +kernel)
  exact ⟨h, s, hrun, hact, replacement_fifo hrun⟩

end SimpleOs.Mm
