import Mathlib.Data.List.Range
import Mathlib.Logic.Function.Basic

/-!
# Families that cover each point at most once

A family is a list of sets given by a membership test `mem`, and `x` is covered by as many of its
members as `countP (mem · x)` counts. Counting adds up over the operations on a family, and disjointness
is read off at the end.

* `pairwise_of_countP_le_one` : members that cover no point twice are pairwise disjoint;
* `countP_map_update` : one member of an indexed family replaced;
* `not_both_of_countP_le_one` : two members of an indexed family.
-/

namespace SimpleOs

variable {α β : Type*}

/-- Covered at most once, pairwise disjoint. -/
theorem pairwise_of_countP_le_one {mem : β → α → Bool} {l : List β}
    (h : ∀ x, l.countP (mem · x) ≤ 1) : l.Pairwise fun a b => ∀ x, ¬ (mem a x = true ∧ mem b x = true) := by
  induction l with
  | nil => exact .nil
  | cons a l ih =>
    refine List.pairwise_cons.mpr ⟨fun b hb x hx => ?_, ih fun x => ?_⟩
    · have hone := h x
      have hpos : 0 < l.countP (mem · x) := List.countP_pos_iff.mpr ⟨b, hb, hx.2⟩
      rw [List.countP_cons, if_pos hx.1] at hone
      omega
    · have hone := h x
      rw [List.countP_cons] at hone
      omega

variable {p : β → Bool} {f : Nat → β} {n i j : Nat}

theorem countP_map_update (hi : i < n) (v : β) :
    ((List.range n).map (Function.update f i v)).countP p + (if p (f i) then 1 else 0) =
      ((List.range n).map f).countP p + (if p v then 1 else 0) := by
  induction n with
  | zero => omega
  | succ n ih =>
    simp only [List.range_succ, List.map_append, List.map_cons, List.map_nil, List.countP_append,
      List.countP_singleton]
    rcases Nat.lt_or_eq_of_le (Nat.le_of_lt_succ hi) with hlt | rfl
    · have hn : n ≠ i := by omega
      rw [Function.update_of_ne hn]
      have := ih hlt
      omega
    · have hsame : (List.range i).map (Function.update f i v) = (List.range i).map f := by
        refine List.map_congr_left fun k hk => Function.update_of_ne ?_ _ _
        rw [List.mem_range] at hk
        omega
      rw [hsame, Function.update_self]
      omega

theorem not_both_of_countP_le_one (h : ((List.range n).map f).countP p ≤ 1) (hi : i < n) (hj : j < n)
    (hij : i ≠ j) : ¬ (p (f i) = true ∧ p (f j) = true) := by
  rintro ⟨hpi, hpj⟩
  have hp : ¬ p (f i) = false := by rw [hpi]; decide
  by_cases hex : ∃ v, p v = false
  · obtain ⟨v, hv⟩ := hex
    have hup := countP_map_update (f := f) hi v (p := p)
    rw [hpi, hv] at hup
    have hpos : 0 < ((List.range n).map (Function.update f i v)).countP p := by
      refine List.countP_pos_iff.mpr ⟨f j, List.mem_map.mpr ⟨j, List.mem_range.mpr hj, ?_⟩, hpj⟩
      rw [Function.update_of_ne (Ne.symm hij)]
    simp only [if_true, Bool.false_eq_true, if_false] at hup
    omega
  · have hall : ∀ v, p v = true := fun v => by
      rcases Bool.eq_false_or_eq_true (p v) with hv | hv
      · exact hv
      · exact absurd ⟨v, hv⟩ hex
    rw [List.countP_eq_length.mpr fun v _ => hall v, List.length_map, List.length_range] at h
    omega

end SimpleOs
