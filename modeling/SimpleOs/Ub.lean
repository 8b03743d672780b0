import Mathlib.Order.Basic

/-!
# Outcomes without a defined result

The C functions index arrays and follow pointers without checking them everywhere. A model function
that can reach such an access returns in `Exec`: `.ok` with its result, or `.error` with the kind of
undefined behaviour (or the endless loop) that ends the call.

* `Exec.bind_ok` : a sequence succeeds exactly when its parts do.
-/

namespace SimpleOs

/-- What ends a call without a defined result. -/
inductive Ub
  /-- a null pointer is followed -/
  | null
  /-- an indeterminate value is used -/
  | uninit
  /-- a loop without end -/
  | loop
  /-- an index outside `symrgtbl` -/
  | symrgtbl (i : Int)
  /-- an index outside `pgd` -/
  | pgd (i : Int)
  /-- an address outside the storage of a device -/
  | storage (addr : Int)
  /-- a process that has finished is run -/
  | finished (pid : Nat)
  /-- an index outside `mlq_ready_queue` and `slot` -/
  | mlqReadyQueue (prio : Nat)
  /-- an index outside a local array -/
  | stack (i : Nat)
  /-- a process that was freed is read -/
  | freed
  deriving DecidableEq, Repr

abbrev Exec (α : Type) := Except Ub α

namespace Exec

variable {α β : Type}

theorem bind_ok {ε : Type} {x : Except ε α} {f : α → Except ε β} {b : β} :
    (x >>= f) = .ok b ↔ ∃ a, x = .ok a ∧ f a = .ok b := by
  cases x with
  | error e =>
    constructor
    · intro h
      cases h
    · rintro ⟨a, h, -⟩
      cases h
  | ok a =>
    constructor
    · intro h
      exact ⟨a, rfl, h⟩
    · rintro ⟨a', h, hf⟩
      cases h
      exact hf

-- not by `rfl`: as definitional rewrites the kernel would evaluate the arithmetic in the binds
@[simp] theorem ok_bind (a : α) (f : α → Exec β) : ((.ok a : Exec α) >>= f) = f a := by
  cases h : f a <;> simp only [bind, Except.bind, h]

@[simp] theorem error_bind (e : Ub) (f : α → Exec β) : ((.error e : Exec α) >>= f) = .error e := by
  cases e <;> simp only [bind, Except.bind]

@[simp] theorem pure_eq_ok (a : α) : (pure a : Exec α) = .ok a := by
  simp only [pure, Except.pure]

/-- A sequence does not end with an error that none of its parts ends with. -/
theorem bind_ne {x : Exec α} {f : α → Exec β} {e : Ub} (hx : x ≠ .error e)
    (hf : ∀ a, x = .ok a → f a ≠ .error e) : (x >>= f) ≠ .error e := by
  cases x with
  | error e' =>
    intro h
    exact hx (by cases h; rfl)
  | ok a => exact hf a rfl

end Exec

end SimpleOs
