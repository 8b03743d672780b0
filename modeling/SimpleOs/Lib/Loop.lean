import Mathlib.Computability.StateTransition

/-!
# Loops

`f : σ → Option σ` is one round of a loop from its loop test on; `none` ends the loop. The state the loop ends
in is `StateTransition.eval f s`.

* `eval_of_step`, `mem_eval_of_done` : the loop unrolled;
* `eval_not_dom` : a loop that stays in a set of states it never ends in has no end.
-/

namespace SimpleOs
open StateTransition Relation

variable {σ : Type*} {f : σ → Option σ} {s s' t : σ}

theorem eval_of_step (h : f s = some s') : eval f s = eval f s' := reaches_eval (ReflTransGen.single h)

theorem mem_eval_of_done (h : f s = none) : t ∈ eval f s ↔ t = s := by
  have hs : s ∈ eval f s := mem_eval.mpr ⟨.refl, h⟩
  constructor
  · intro ht
    exact Part.mem_unique ht hs
  · rintro rfl
    exact hs

/-- A loop without end. -/
theorem eval_not_dom {I : σ → Prop} (hI : ∀ s, I s → ∃ s', f s = some s' ∧ I s') (h : I s) : ¬ (eval f s).Dom := by
  intro hd
  obtain ⟨t, ht⟩ := Part.dom_iff_mem.mp hd
  obtain ⟨hreach, hdone⟩ := mem_eval.mp ht
  have hlast : I t := by
    clear ht hdone
    induction hreach with
    | refl => exact h
    | tail _ hstep ih =>
      obtain ⟨s', hs', hI'⟩ := hI _ ih
      cases Option.mem_unique hstep hs'
      exact hI'
  obtain ⟨s', hs', -⟩ := hI t hlast
  rw [hdone] at hs'
  cases hs'

end SimpleOs
