import Mathlib.Logic.Function.Basic

/-!
# Memory behind a translation

`tr x` is the location address `x` is translated to, if any, and `m` holds the values of the locations.

* `view tr m x` : the value address `x` reads;
* `view_store` : through a translation injective at its location, a store to an address changes the
  view at that address only.
-/

namespace SimpleOs

variable {X L V : Type*} {tr tr' : X → Option L} {m m' : L → V} {x : X} {l : L}

def view (tr : X → Option L) (m : L → V) (x : X) : Option V := (tr x).map m

theorem view_of_some (h : tr x = some l) : view tr m x = some (m l) := by
  rw [view, h, Option.map_some]

theorem view_of_none (h : tr x = none) : view tr m x = none := by
  rw [view, h, Option.map_none]

theorem view_congr (h : tr' x = tr x) (hm : ∀ l, tr x = some l → m' l = m l) : view tr' m' x = view tr m x := by
  cases hx : tr x with
  | none => rw [view_of_none hx, view_of_none (h.trans hx)]
  | some l => rw [view_of_some hx, view_of_some (h.trans hx), hm l hx]

/-- A store through the translation. -/
theorem view_store [DecidableEq X] [DecidableEq L] (hinj : ∀ y, tr y = some l → y = x) (hx : tr x = some l) (v : V) :
    view tr (Function.update m l v) = Function.update (view tr m) x (some v) := by
  funext y
  by_cases hy : y = x
  · subst hy
    rw [view_of_some hx, Function.update_self, Function.update_self]
  · rw [Function.update_of_ne hy]
    refine view_congr rfl fun l' hl' => Function.update_of_ne ?_ _ _
    intro he
    exact hy (hinj y (he ▸ hl'))

end SimpleOs
