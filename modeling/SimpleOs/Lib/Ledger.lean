import Mathlib.Data.List.Nodup
import Mathlib.Data.List.Perm.Basic
import Mathlib.Logic.Function.Basic

/-!
# Numbered resources held by a pool or by owners

`n` resources `0, ..., n - 1` lie in a pool or are held by owners; `ref x` is the resource the owner
`x` holds, if any.

* `Ledger n pool ref` : nothing is held twice;
* `Ledger.Full n pool ref` : nothing is lost;
* `grant`, `release`, `clear` : what moving a resource does to both;
* `Accounted`, `Ledger.accounted` : each resource is in exactly one place.
-/

namespace SimpleOs

variable {X Y : Type*}

/-- No resource is held twice: the pool has no duplicates, no two owners hold the same resource, and
no owner holds one of the pool. -/
structure Ledger (n : Nat) (pool : List Nat) (ref : X → Option Nat) : Prop where
  nodup : pool.Nodup
  pool_lt : ∀ f ∈ pool, f < n
  ref_lt : ∀ x f, ref x = some f → f < n
  inj : ∀ x y f, ref x = some f → ref y = some f → x = y
  notMem : ∀ x f, ref x = some f → f ∉ pool

/-- Every resource is in the pool or held. -/
def Ledger.Full (n : Nat) (pool : List Nat) (ref : X → Option Nat) : Prop :=
  ∀ f < n, f ∈ pool ∨ ∃ x, ref x = some f

/-- The resource `f` is in exactly one place: once in the pool, or with one owner. -/
def Accounted (pool : List Nat) (ref : X → Option Nat) (f : Nat) : Prop :=
  (pool.count f = 1 ∧ ∀ x, ref x ≠ some f) ∨ (pool.count f = 0 ∧ ∃! x, ref x = some f)

variable {n : Nat} {pool pool' : List Nat} {ref : X → Option Nat} {f : Nat}

namespace Ledger

theorem accounted (h : Ledger n pool ref) (hfull : Full n pool ref) (hf : f < n) : Accounted pool ref f := by
  rcases hfull f hf with hp | ⟨x, hx⟩
  · exact .inl ⟨List.count_eq_one_of_mem h.nodup hp, fun x hx => h.notMem x f hx hp⟩
  · exact .inr ⟨List.count_eq_zero_of_not_mem (h.notMem x f hx), x, hx, fun y hy => h.inj y x f hy hx⟩

theorem perm (h : Ledger n pool ref) (hp : pool.Perm pool') : Ledger n pool' ref where
  nodup := hp.nodup_iff.mp h.nodup
  pool_lt := fun f hf => h.pool_lt f (hp.mem_iff.mpr hf)
  ref_lt := h.ref_lt
  inj := h.inj
  notMem := fun x f hx hf => h.notMem x f hx (hp.mem_iff.mpr hf)

theorem Full.perm (h : Full n pool ref) (hp : pool.Perm pool') : Full n pool' ref :=
  fun f hf => (h f hf).imp_left hp.mem_iff.mp

theorem sublist (h : Ledger n pool ref) (hp : pool'.Sublist pool) : Ledger n pool' ref where
  nodup := h.nodup.sublist hp
  pool_lt := fun f hf => h.pool_lt f (hp.subset hf)
  ref_lt := h.ref_lt
  inj := h.inj
  notMem := fun x f hx hf => h.notMem x f hx (hp.subset hf)

variable [DecidableEq X] {x : X}

theorem update_some_cases {y : X} {v : Option Nat} {g : Nat} (h : Function.update ref x v y = some g) :
    (y = x ∧ v = some g) ∨ (y ≠ x ∧ ref y = some g) := by
  by_cases hy : y = x
  · subst hy; rw [Function.update_self] at h; exact .inl ⟨rfl, h⟩
  · rw [Function.update_of_ne hy] at h; exact .inr ⟨hy, h⟩

theorem clear (x : X) (h : Ledger n pool ref) : Ledger n pool (Function.update ref x none) := by
  have hsome : ∀ y f, Function.update ref x none y = some f → ref y = some f := by
    intro y f hy
    rcases update_some_cases hy with ⟨-, h⟩ | ⟨-, h⟩
    · cases h
    · exact h
  exact {
    nodup := h.nodup
    pool_lt := h.pool_lt
    ref_lt := fun y f hy => h.ref_lt y f (hsome y f hy)
    inj := fun y z f hy hz => h.inj y z f (hsome y f hy) (hsome z f hz)
    notMem := fun y f hy => h.notMem y f (hsome y f hy) }

/-- The first resource of the pool goes to an owner, which gives up what it held. -/
theorem grant (x : X) (h : Ledger n (f :: pool) ref) : Ledger n pool (Function.update ref x (some f)) := by
  have hf : f ∉ pool := (List.nodup_cons.mp h.nodup).1
  have hne : ∀ y g, ref y = some g → g ≠ f := fun y g hy hg => h.notMem y g hy (hg ▸ List.mem_cons_self ..)
  refine ⟨(List.nodup_cons.mp h.nodup).2, fun g hg => h.pool_lt g (List.mem_cons_of_mem f hg), ?_, ?_, ?_⟩
  · intro y g hy
    rcases update_some_cases hy with ⟨-, hg⟩ | ⟨-, hg⟩
    · cases hg; exact h.pool_lt f (List.mem_cons_self ..)
    · exact h.ref_lt y g hg
  · intro y z g hy hz
    rcases update_some_cases hy with ⟨rfl, hg⟩ | ⟨-, hg⟩ <;> rcases update_some_cases hz with ⟨rfl, hg'⟩ | ⟨-, hg'⟩
    · rfl
    · cases hg; exact absurd rfl (hne z f hg')
    · cases hg'; exact absurd rfl (hne y f hg)
    · exact h.inj y z g hg hg'
  · intro y g hy hg
    rcases update_some_cases hy with ⟨-, hs⟩ | ⟨-, hs⟩
    · cases hs; exact hf hg
    · exact h.notMem y g hs (List.mem_cons_of_mem f hg)

theorem release (h : Ledger n pool ref) (hx : ref x = some f) :
    Ledger n (f :: pool) (Function.update ref x none) := by
  have hc := h.clear x
  refine ⟨List.nodup_cons.mpr ⟨h.notMem x f hx, h.nodup⟩, ?_, hc.ref_lt, hc.inj, ?_⟩
  · intro g hg
    rcases List.mem_cons.mp hg with rfl | hg
    · exact h.ref_lt x g hx
    · exact h.pool_lt g hg
  · intro y g hy hg
    rcases update_some_cases hy with ⟨-, hs⟩ | ⟨hne, hs⟩
    · cases hs
    · rcases List.mem_cons.mp hg with rfl | hg
      · exact hne (h.inj y x g hs hx)
      · exact h.notMem y g hs hg

theorem Full.grant (h : Full n (f :: pool) ref) (hx : ref x = none) :
    Full n pool (Function.update ref x (some f)) := by
  intro g hg
  rcases h g hg with hm | ⟨y, hy⟩
  · rcases List.mem_cons.mp hm with rfl | hm
    · exact .inr ⟨x, Function.update_self ..⟩
    · exact .inl hm
  · have hne : y ≠ x := by rintro rfl; rw [hx] at hy; cases hy
    exact .inr ⟨y, by rw [Function.update_of_ne hne, hy]⟩

theorem Full.release (h : Full n pool ref) (hx : ref x = some f) :
    Full n (f :: pool) (Function.update ref x none) := by
  intro g hg
  rcases h g hg with hm | ⟨y, hy⟩
  · exact .inl (List.mem_cons_of_mem f hm)
  · by_cases hyx : y = x
    · subst hyx; rw [hx] at hy; cases hy; exact .inl (List.mem_cons_self ..)
    · exact .inr ⟨y, by rw [Function.update_of_ne hyx, hy]⟩

end Ledger

end SimpleOs
