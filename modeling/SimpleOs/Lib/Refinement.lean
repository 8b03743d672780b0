import SimpleOs.Lib.Run

/-!
# Refinement mappings

A system refines another when every step of it either leaves its image as it is or performs a step of the
other on the images (a step that is silent, or one with a label).

* `Shows` : an entry of the abstract history is the image of one of the history;
* `Run.project` : every run has an image, with the labels of its steps as actions; `filterMap_label` : these actions;
  `countP_shows` : what is counted of them;
* `Run.length_le` : a run whose steps all raise a potential is no longer than the potential it ends with.
-/

namespace SimpleOs

variable {σ τ α β ρ ρ' ε ε' : Type*} {f : σ → α → Except ε (ρ × σ)} {g : τ → β → Except ε' (ρ' × τ)} {s₀ s : σ}
  {h : List (Entry σ α ρ)} {φ : σ → τ} {label : σ → α → Option β}

/-- The entry `e'` is the image of `e`, whose action has a label. -/
def Shows (φ : σ → τ) (label : σ → α → Option β) (e : Entry σ α ρ) (e' : Entry τ β ρ') : Prop :=
  e'.before = φ e.before ∧ label e.before e.act = some e'.act

def visible (label : σ → α → Option β) (h : List (Entry σ α ρ)) : List (Entry σ α ρ) :=
  h.filter fun e => (label e.before e.act).isSome

/-- Refinement: when every step from a state reached is silent or a step of the abstract system, a run has an
image. -/
theorem Run.project (φ : σ → τ) (label : σ → α → Option β)
    (hsilent : ∀ h s a r s', Run f s₀ h s → f s a = .ok (r, s') → label s a = none → φ s' = φ s)
    (hstep : ∀ h s a r s' b, Run f s₀ h s → f s a = .ok (r, s') → label s a = some b →
      ∃ r', g (φ s) b = .ok (r', φ s'))
    (hrun : Run f s₀ h s) : ∃ k, Run g (φ s₀) k (φ s) ∧ List.Forall₂ (Shows φ label) (visible label h) k := by
  induction hrun with
  | start => exact ⟨[], .start, .nil⟩
  | @next h s s' a r hrun hf ih =>
    obtain ⟨k, hk, hshows⟩ := ih
    cases hl : label s a with
    | none =>
      refine ⟨k, ?_, ?_⟩
      · rw [hsilent h s a r s' hrun hf hl]
        exact hk
      · rw [visible, List.filter_cons_of_neg (by simp [hl])]
        exact hshows
    | some b =>
      obtain ⟨r', hg⟩ := hstep h s a r s' b hrun hf hl
      refine ⟨⟨φ s, b, r'⟩ :: k, .next hk hg, ?_⟩
      rw [visible, List.filter_cons_of_pos (by simp [hl])]
      exact .cons ⟨rfl, hl⟩ hshows

theorem filterMap_label {k : List (Entry τ β ρ')} (hk : List.Forall₂ (Shows φ label) (visible label h) k) :
    k.map Entry.act = h.filterMap fun e => label e.before e.act := by
  induction h generalizing k with
  | nil =>
    cases hk
    rfl
  | cons e h ih =>
    cases hl : label e.before e.act with
    | none =>
      rw [visible, List.filter_cons_of_neg (by simp [hl])] at hk
      rw [List.filterMap_cons, hl]
      exact ih hk
    | some b =>
      rw [visible, List.filter_cons_of_pos (by simp [hl])] at hk
      cases hk with
      | cons he hk =>
        rw [List.filterMap_cons, hl, List.map_cons, ih hk]
        cases hl.symm.trans he.2
        rfl

theorem countP_shows {k : List (Entry τ β ρ')} (hk : List.Forall₂ (Shows φ label) (visible label h) k)
    (p : τ → β → Bool) :
    (k.countP fun e => p e.before e.act) = h.countP fun e => (label e.before e.act).any (p (φ e.before)) := by
  induction h generalizing k with
  | nil =>
    cases hk
    rfl
  | cons e h ih =>
    cases hl : label e.before e.act with
    | none =>
      rw [visible, List.filter_cons_of_neg (by simp [hl])] at hk
      rw [List.countP_cons_of_neg (by simp [hl])]
      exact ih hk
    | some b =>
      rw [visible, List.filter_cons_of_pos (by simp [hl])] at hk
      cases hk with
      | cons he hk =>
        cases hl.symm.trans he.2
        rw [List.countP_cons, List.countP_cons, ih hk, he.1, hl, Option.any_some]

theorem shows_mem {k : List (Entry τ β ρ')} (hk : List.Forall₂ (Shows φ label) (visible label h) k) {e' : Entry τ β ρ'}
    (he' : e' ∈ k) : ∃ e ∈ h, Shows φ label e e' := by
  suffices ∃ e ∈ visible label h, Shows φ label e e' by
    obtain ⟨e, he, hshows⟩ := this
    exact ⟨e, List.mem_of_mem_filter he, hshows⟩
  generalize visible label h = l at hk ⊢
  induction hk with
  | nil => cases he'
  | cons hshows _ ih =>
    rcases List.mem_cons.mp he' with rfl | he'
    · exact ⟨_, List.mem_cons_self, hshows⟩
    · obtain ⟨e, he, hshows⟩ := ih he'
      exact ⟨e, List.mem_cons_of_mem _ he, hshows⟩

theorem Run.length_le {μ : σ → Nat} (hstep : ∀ h s a r s', Run f s₀ h s → f s a = .ok (r, s') → μ s < μ s')
    (hrun : Run f s₀ h s) : h.length + μ s₀ ≤ μ s :=
  hrun.invariant (I := fun h s => h.length + μ s₀ ≤ μ s) (by simp) fun h s a r s' hrun hle hf => by
    have hlt := hstep h s a r s' hrun hf
    rw [List.length_cons]
    omega

end SimpleOs
