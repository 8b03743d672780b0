import Mathlib.Data.Finset.Card
import Mathlib.Data.List.Nodup
import Mathlib.Logic.Function.Basic

/-!
# Singly linked lists in memory

Nodes lie at addresses; an address that is not in use keeps what was written there last.

* `NodeMem` : what every address holds, and the addresses in use; `NodeMem.read`, `NodeMem.write`, `NodeMem.malloc`,
  `NodeMem.free` : the accesses, with the errors they can end in;
* `Chain m p l` : the nodes from pointer `p` on are those of `l`, the last one has no successor;
* `Chain.unique`, `Chain.nodup`, `Chain.length_le` : a chain is determined by its pointer and passes no node twice;
* `Chain.congr` : what lies elsewhere does not matter; `Chain.push`, `chain_push_iff`, `Chain.cut`, `Chain.dropLast` :
  changes of a chain.
-/

namespace SimpleOs

variable {α : Type*}

/-- An address, or `none` for the null pointer. -/
abbrev Ptr := Option Nat

structure Node (α : Type*) where
  val : α
  next : Ptr
  deriving DecidableEq

inductive PtrError
  /-- the null pointer is followed -/
  | null
  /-- a pointer to memory that is not in use is followed -/
  | dangling
  /-- the memory to be allocated is in use -/
  | inUse
  /-- a loop without end -/
  | loop
  deriving DecidableEq

theorem PtrError.ok_bind {β γ : Type} (b : β) (f : β → Except PtrError γ) :
    ((.ok b : Except PtrError β) >>= f) = f b := rfl

structure NodeMem (α : Type*) where
  node : Nat → Node α
  live : Finset Nat

namespace NodeMem

def read (m : NodeMem α) : Ptr → Except PtrError (Node α)
  | none => .error .null
  | some a => if a ∈ m.live then .ok (m.node a) else .error .dangling

def write (m : NodeMem α) (p : Ptr) (n : Node α) : Except PtrError (NodeMem α) :=
  match p with
  | none => .error .null
  | some a => if a ∈ m.live then .ok { m with node := Function.update m.node a n } else .error .dangling

/-- The memory at `a` is taken into use, with what it held before. -/
def malloc (m : NodeMem α) (a : Nat) : Except PtrError (NodeMem α) :=
  if a ∈ m.live then .error .inUse else .ok { m with live := insert a m.live }

def free (m : NodeMem α) : Ptr → Except PtrError (NodeMem α)
  | none => .ok m
  | some a => if a ∈ m.live then .ok { m with live := m.live.erase a } else .error .dangling

variable {m : NodeMem α} {a : Nat}

theorem read_of_live (ha : a ∈ m.live) : m.read (some a) = .ok (m.node a) := if_pos ha

theorem write_of_live (ha : a ∈ m.live) (n : Node α) :
    m.write (some a) n = .ok { m with node := Function.update m.node a n } := if_pos ha

theorem malloc_of_free (ha : a ∉ m.live) : m.malloc a = .ok { m with live := insert a m.live } := if_neg ha

theorem free_of_live (ha : a ∈ m.live) : m.free (some a) = .ok { m with live := m.live.erase a } := if_pos ha

end NodeMem

/-- The nodes from pointer `p` on, each with its address and value. -/
inductive Chain (m : NodeMem α) : Ptr → List (Nat × α) → Prop
  | nil : Chain m none []
  | cons {a : Nat} {v : α} {next : Ptr} {l : List (Nat × α)} (ha : a ∈ m.live) (hnode : m.node a = ⟨v, next⟩)
      (h : Chain m next l) : Chain m (some a) ((a, v) :: l)

variable {m m' : NodeMem α} {p : Ptr} {a : Nat} {v : α} {x : Nat × α} {l l' : List (Nat × α)}

theorem Chain.unique (h : Chain m p l) (h' : Chain m p l') : l = l' := by
  induction h generalizing l' with
  | nil =>
    cases h'
    rfl
  | cons _ hnode _ ih =>
    cases h' with
    | cons _ hnode' h' =>
      cases hnode.symm.trans hnode'
      rw [ih h']

theorem Chain.live (h : Chain m p l) : ∀ x ∈ l, x.1 ∈ m.live := by
  induction h with
  | nil => exact fun x hx => (List.not_mem_nil hx).elim
  | cons ha _ _ ih => exact List.forall_mem_cons.mpr ⟨ha, ih⟩

theorem Chain.val (h : Chain m p l) : ∀ x ∈ l, (m.node x.1).val = x.2 := by
  induction h with
  | nil => exact fun x hx => (List.not_mem_nil hx).elim
  | cons _ hnode _ ih => exact List.forall_mem_cons.mpr ⟨by rw [hnode], ih⟩

theorem Chain.from_mem (h : Chain m p l) (hx : a ∈ l.map Prod.fst) : ∃ l₁ l₂, l = l₁ ++ l₂ ∧ Chain m (some a) l₂ := by
  induction h with
  | nil => exact (List.not_mem_nil hx).elim
  | @cons b v next l hb hnode h ih =>
    rcases List.mem_cons.mp hx with rfl | hx
    · exact ⟨[], _, rfl, .cons hb hnode h⟩
    · obtain ⟨l₁, l₂, hl, hchain⟩ := ih hx
      exact ⟨(b, v) :: l₁, l₂, by rw [hl, List.cons_append], hchain⟩

/-- A chain passes no node twice: it would come back to it for ever. -/
theorem Chain.nodup (h : Chain m p l) : (l.map Prod.fst).Nodup := by
  induction h with
  | nil => exact List.nodup_nil
  | @cons a v next l ha hnode h ih =>
    rw [List.map_cons, List.nodup_cons]
    refine ⟨fun hin => ?_, ih⟩
    obtain ⟨l₁, l₂, hl, hchain⟩ := h.from_mem hin
    have hlen := congrArg List.length (Chain.unique (.cons ha hnode h) hchain)
    rw [hl, List.length_cons, List.length_append] at hlen
    omega

theorem Chain.length_le (h : Chain m p l) : l.length ≤ m.live.card := by
  classical
  have hsub : (l.map Prod.fst).toFinset ⊆ m.live := by
    intro a ha
    obtain ⟨x, hx, rfl⟩ := List.mem_map.mp (List.mem_toFinset.mp ha)
    exact h.live x hx
  have hcard := Finset.card_le_card hsub
  rwa [List.toFinset_card_of_nodup h.nodup, List.length_map] at hcard

theorem Chain.congr (h : Chain m p l) (hlive : ∀ x ∈ l, x.1 ∈ m'.live) (hnode : ∀ x ∈ l, m'.node x.1 = m.node x.1) :
    Chain m' p l := by
  induction h with
  | nil => exact .nil
  | cons ha hn _ ih =>
    rw [List.forall_mem_cons] at hlive hnode
    exact .cons hlive.1 (hnode.1.trans hn) (ih hlive.2 hnode.2)

theorem Chain.head (h : Chain m p (x :: l)) :
    ∃ next, p = some x.1 ∧ x.1 ∈ m.live ∧ m.node x.1 = ⟨x.2, next⟩ ∧ Chain m next l := by
  cases h with
  | cons ha hnode h => exact ⟨_, rfl, ha, hnode, h⟩

theorem Chain.eq_nil (h : Chain m none l) : l = [] := h.unique .nil

theorem Chain.ptr_eq_none (h : Chain m p []) : p = none := by
  cases h
  rfl

theorem Chain.push (h : Chain m p l) (ha : a ∉ m.live) :
    Chain ⟨Function.update m.node a ⟨v, p⟩, insert a m.live⟩ (some a) ((a, v) :: l) := by
  refine .cons (Finset.mem_insert_self ..) (Function.update_self ..) (h.congr ?_ ?_)
  · exact fun x hx => Finset.mem_insert_of_mem (h.live x hx)
  · intro x hx
    exact Function.update_of_ne (fun he => ha (by rw [← he]; exact h.live x hx)) ..

theorem chain_push_iff (ha : a ∉ m.live) :
    Chain ⟨Function.update m.node a ⟨v, p⟩, insert a m.live⟩ (some a) l ↔ ∃ l', l = (a, v) :: l' ∧ Chain m p l' := by
  constructor
  · intro h
    have hnodup := h.nodup
    cases h with
    | @cons _ v' next l _ hnode h =>
      cases (Function.update_self ..).symm.trans hnode
      rw [List.map_cons, List.nodup_cons] at hnodup
      have hne : ∀ x ∈ l, x.1 ≠ a := by
        rintro x hx rfl
        exact hnodup.1 (List.mem_map.mpr ⟨x, hx, rfl⟩)
      refine ⟨l, rfl, h.congr (fun x hx => ?_) fun x hx => (Function.update_of_ne (hne x hx) ..).symm⟩
      exact (Finset.mem_insert.mp (h.live x hx)).resolve_left (hne x hx)
  · rintro ⟨l', rfl, h⟩
    exact h.push ha

theorem Chain.cut {l₁ l₂ : List (Nat × α)} (h : Chain m p (l₁ ++ x :: l₂)) :
    Chain { m with node := Function.update m.node x.1 ⟨x.2, none⟩ } p (l₁ ++ [x]) := by
  induction l₁ generalizing p with
  | nil =>
    obtain ⟨next, rfl, ha, -, -⟩ := h.head
    exact .cons ha (Function.update_self ..) .nil
  | cons y l₁ ih =>
    have hnodup := h.nodup
    obtain ⟨next, rfl, ha, hnode, h⟩ := h.head
    rw [List.cons_append, List.map_cons, List.nodup_cons] at hnodup
    have hne : y.1 ≠ x.1 := fun he => hnodup.1 (he ▸ List.mem_map_of_mem (by simp))
    exact .cons ha ((Function.update_of_ne hne ..).trans hnode) (ih h)

theorem Chain.free (h : Chain m p l) (ha : a ∉ l.map Prod.fst) : Chain { m with live := m.live.erase a } p l := by
  refine h.congr (fun x hx => Finset.mem_erase.mpr ⟨fun he => ?_, h.live x hx⟩) fun _ _ => rfl
  exact ha (he ▸ List.mem_map_of_mem hx)

theorem Chain.dropLast {y : Nat × α} (h : Chain m p (l ++ [x, y])) :
    Chain ⟨Function.update m.node x.1 ⟨x.2, none⟩, m.live.erase y.1⟩ p (l ++ [x]) := by
  have hnodup := h.nodup
  rw [List.append_cons, List.map_append, List.nodup_append] at hnodup
  refine h.cut.free fun hin => ?_
  exact hnodup.2.2 _ hin _ (List.mem_singleton_self _) rfl

end SimpleOs
