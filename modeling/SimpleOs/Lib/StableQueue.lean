import Mathlib.Data.List.Basic
import Mathlib.Data.Prod.Lex

/-!
# Stable priority queues

The elements wait in a list in the order in which they came. The next is the first with a least key.

* `FirstLeast` : it stands between the others; `takeLeast` takes it: `takeLeast_eq`;
* `FirstLeast.of_class` : with queues for the classes of elements, the next is that of the least class that is not
  empty, which makes a key of the class and the key in it;
* `ahead` : the elements that go before one that waits; `ahead_classKey` : those of lesser classes, and of its own;
* `ahead_insert`, `ahead_take` : only a lesser key gets ahead of it, and whatever else is taken was ahead of it.
-/

namespace SimpleOs

variable {α ι κ : Type*} [LinearOrder κ] {key : α → κ} {l w l₁ l₂ : List α} {x y : α}

/-- `x`, between `l₁` and `l₂`, is the first element with a least key. -/
structure FirstLeast (key : α → κ) (l₁ : List α) (x : α) (l₂ : List α) : Prop where
  left : ∀ y ∈ l₁, key x < key y
  right : ∀ y ∈ l₂, key x ≤ key y

/-- The first element with a least key, and the others in their order. -/
def takeLeast (key : α → κ) : List α → Option (α × List α)
  | [] => none
  | x :: l =>
    match takeLeast key l with
    | none => some (x, l)
    | some (y, rest) => if key y < key x then some (y, x :: rest) else some (x, l)

theorem takeLeast_mem {rest : List α} (h : takeLeast key l = some (y, rest)) : y ∈ l := by
  induction l generalizing rest with
  | nil => cases h
  | cons x l ih =>
    unfold takeLeast at h
    split at h
    · cases h
      exact List.mem_cons_self
    · next hl =>
      split at h
      · cases h
        exact List.mem_cons_of_mem _ (ih hl)
      · cases h
        exact List.mem_cons_self

/-- The first element with a least key is taken. -/
theorem takeLeast_eq (h : FirstLeast key l₁ x l₂) : takeLeast key (l₁ ++ x :: l₂) = some (x, l₁ ++ l₂) := by
  induction l₁ with
  | nil =>
    rw [List.nil_append, takeLeast]
    cases hl : takeLeast key l₂ with
    | none => rfl
    | some y =>
      have hle := h.right y.1 (takeLeast_mem hl)
      dsimp only
      rw [if_neg hle.not_gt]
      rfl
  | cons z l₁ ih =>
    have hlt := h.left z List.mem_cons_self
    rw [List.cons_append, takeLeast, ih ⟨fun y hy => h.left y (List.mem_cons_of_mem _ hy), h.right⟩]
    dsimp only
    rw [if_pos hlt]
    rfl

theorem exists_firstLeast (key : α → κ) (hne : l ≠ []) : ∃ l₁ x l₂, l = l₁ ++ x :: l₂ ∧ FirstLeast key l₁ x l₂ := by
  induction l with
  | nil => exact absurd rfl hne
  | cons z l ih =>
    by_cases hl : l = []
    · subst hl
      exact ⟨[], z, [], rfl, fun _ h => absurd h List.not_mem_nil, fun _ h => absurd h List.not_mem_nil⟩
    · obtain ⟨l₁, x, l₂, rfl, hx⟩ := ih hl
      rcases lt_or_ge (key x) (key z) with hlt | hle
      · refine ⟨z :: l₁, x, l₂, rfl, ?_, hx.right⟩
        rw [List.forall_mem_cons]
        exact ⟨hlt, hx.left⟩
      · refine ⟨[], z, l₁ ++ x :: l₂, rfl, fun _ h => absurd h List.not_mem_nil, ?_⟩
        rw [List.forall_mem_append, List.forall_mem_cons]
        exact ⟨fun y hy => hle.trans (hx.left y hy).le, hle, fun y hy => hle.trans (hx.right y hy)⟩

theorem takeLeast_eq_none : takeLeast key l = none ↔ l = [] := by
  constructor
  · intro h
    by_contra hne
    obtain ⟨l₁, x, l₂, rfl, hx⟩ := exists_firstLeast key hne
    rw [takeLeast_eq hx] at h
    cases h
  · rintro rfl
    rfl

theorem takeLeast_cases {rest : List α} (h : takeLeast key l = some (x, rest)) :
    ∃ l₁ l₂, l = l₁ ++ x :: l₂ ∧ rest = l₁ ++ l₂ ∧ FirstLeast key l₁ x l₂ := by
  have hne : l ≠ [] := by
    rintro rfl
    cases h
  obtain ⟨l₁, y, l₂, rfl, hy⟩ := exists_firstLeast key hne
  rw [takeLeast_eq hy] at h
  cases h
  exact ⟨l₁, l₂, rfl, rfl, hy⟩

/-! ## Classes -/

section Classes
variable [LinearOrder ι] (cls : α → ι)

/-- The key of the class, then the key in it. -/
def classKey (key : α → κ) (x : α) : ι ×ₗ κ := toLex (cls x, key x)

theorem classKey_lt : classKey cls key x < classKey cls key y ↔ cls x < cls y ∨ cls x = cls y ∧ key x < key y :=
  Prod.Lex.toLex_lt_toLex

theorem classKey_le : classKey cls key x ≤ classKey cls key y ↔ cls x < cls y ∨ cls x = cls y ∧ key x ≤ key y :=
  Prod.Lex.toLex_le_toLex

variable {cls} {p : ι}

/-- The first of the least class is the first of all. -/
theorem FirstLeast.of_class (h : FirstLeast key l₁ x l₂) (hw : w.filter (cls · = p) = l₁ ++ x :: l₂)
    (hleast : ∀ y ∈ w, p ≤ cls y) : ∃ w₁ w₂, w = w₁ ++ x :: w₂ ∧ cls x = p ∧ FirstLeast (classKey cls key) w₁ x w₂ ∧
      w₁.filter (cls · = p) = l₁ ∧ w₂.filter (cls · = p) = l₂ := by
  obtain ⟨a, b, rfl, ha, hb⟩ := List.filter_eq_append_iff.mp hw
  obtain ⟨c, w₂, rfl, hc, hx, hw₂⟩ := List.filter_eq_cons_iff.mp hb
  have hx : cls x = p := of_decide_eq_true hx
  have hw₁ : (a ++ c).filter (cls · = p) = l₁ := by
    rw [List.filter_append, ha, List.filter_eq_nil_iff.mpr hc, List.append_nil]
  refine ⟨a ++ c, w₂, (List.append_assoc a c _).symm, hx, ⟨fun y hy => ?_, fun y hy => ?_⟩, hw₁, hw₂⟩
  · rw [classKey_lt, hx]
    by_cases hp : cls y = p
    · have hmem : y ∈ l₁ := by
        rw [← hw₁, List.mem_filter]
        exact ⟨hy, decide_eq_true hp⟩
      exact .inr ⟨hp.symm, h.left y hmem⟩
    · have hle := hleast y (by rw [← List.append_assoc]; exact List.mem_append_left _ hy)
      exact .inl (lt_of_le_of_ne hle (Ne.symm hp))
  · rw [classKey_le, hx]
    by_cases hp : cls y = p
    · have hmem : y ∈ l₂ := by
        rw [← hw₂, List.mem_filter]
        exact ⟨hy, decide_eq_true hp⟩
      exact .inr ⟨hp.symm, h.right y hmem⟩
    · have hle := hleast y (List.mem_append_right _ (List.mem_append_right _ (List.mem_cons_of_mem _ hy)))
      exact .inl (lt_of_le_of_ne hle (Ne.symm hp))

end Classes

/-! ## What goes before an element -/

/-- The number of elements that go before `x`, which waits between `l₁` and `l₂`. -/
def ahead (key : α → κ) (l₁ : List α) (x : α) (l₂ : List α) : Nat :=
  l₁.countP (fun y => key y ≤ key x) + l₂.countP fun y => key y < key x

section Classes
variable [LinearOrder ι] (cls : α → ι)

theorem countP_classes (p : ι) (q : α → Prop) [DecidablePred q] (l : List α) :
    l.countP (fun y => cls y < p ∨ cls y = p ∧ q y) =
      l.countP (fun y => cls y < p) + (l.filter (cls · = p)).countP (fun y => q y) := by
  rw [List.countP_filter]
  induction l with
  | nil => rfl
  | cons y l ih =>
    simp only [List.countP_cons, ih, Bool.and_eq_true, decide_eq_true_eq]
    by_cases hlt : cls y < p
    · simp only [hlt, hlt.ne, true_or, if_true, and_false, if_false]
      omega
    · by_cases heq : cls y = p
      · simp only [heq, lt_irrefl, false_or, true_and, and_true, if_false]
        omega
      · simp only [hlt, heq, false_and, and_false, or_self, if_false]
        omega

/-- The elements of lesser classes go first, then those of its class that do. -/
theorem ahead_classKey (w₁ : List α) (x : α) (w₂ : List α) :
    ahead (classKey cls key) w₁ x w₂ = (w₁ ++ x :: w₂).countP (fun y => cls y < cls x) +
      ahead key (w₁.filter (cls · = cls x)) x (w₂.filter (cls · = cls x)) := by
  unfold ahead
  simp only [classKey_le, classKey_lt]
  rw [countP_classes, countP_classes, List.countP_append, List.countP_cons_of_neg (by simp)]
  omega

end Classes

theorem ahead_insert (y : α) :
    ahead key l₁ x (l₂ ++ [y]) = ahead key l₁ x l₂ + if key y < key x then 1 else 0 := by
  unfold ahead
  rw [List.countP_append, List.countP_singleton, ← Nat.add_assoc]
  simp

/-- An element that is taken was ahead of one that waits on. -/
theorem ahead_take {rest : List α} (h : takeLeast key (l₁ ++ x :: l₂) = some (y, rest)) (hne : y ≠ x) :
    ∃ l₁' l₂', rest = l₁' ++ x :: l₂' ∧ ahead key l₁' x l₂' + 1 = ahead key l₁ x l₂ := by
  obtain ⟨a, b, hl, rfl, hy⟩ := takeLeast_cases h
  rcases List.append_eq_append_iff.mp hl with ⟨c, rfl, hc⟩ | ⟨c, rfl, hc⟩
  · cases c with
    | nil =>
      rw [List.nil_append, List.cons.injEq] at hc
      exact absurd hc.1.symm hne
    | cons z c =>
      -- taken from behind
      rw [List.cons_append, List.cons.injEq] at hc
      obtain ⟨rfl, rfl⟩ := hc
      have hlt := hy.left x (List.mem_append_right _ List.mem_cons_self)
      refine ⟨l₁, c ++ b, by rw [List.append_assoc]; rfl, ?_⟩
      unfold ahead
      rw [List.countP_append, List.countP_append, List.countP_cons_of_pos (by simpa using hlt)]
      omega
  · cases c with
    | nil =>
      rw [List.nil_append, List.cons.injEq] at hc
      exact absurd hc.1 hne
    | cons z c =>
      rw [List.cons_append, List.cons.injEq] at hc
      obtain ⟨rfl, rfl⟩ := hc
      have hle := hy.right x (List.mem_append_right _ List.mem_cons_self)
      refine ⟨a ++ c, l₂, (List.append_assoc a c _).symm, ?_⟩
      unfold ahead
      rw [List.countP_append, List.countP_append, List.countP_cons_of_pos (by simpa using hle)]
      omega

end SimpleOs
