import Mathlib.Data.List.Forall2

/-!
# Runs of a partial step function

`f : σ → α → Except ε (ρ × σ)` performs the action `α` in a state and gives a result and the next
state, or stops with an error. A `Run` is a finite sequence of successful steps; its history keeps,
newest first, the state before each step, the action and the result.

* `Run.invariant` : what every step preserves holds in every state reached;
* `Run.guarded` : the same for runs whose steps all meet a condition;
* `Run.before` : the state before an entry is itself reached; `Run.unique` : the actions determine the run;
* `Run.simulate` : a step-by-step relation between two systems carries a run over;
* `Trace` : what can be seen of a run; `Trace.simulate` : related states have the same traces; `trace_embed_iff` : the
  traces of a part of a system;
* `exists_run_of_replay` : a concrete run from an evaluation.
-/

namespace SimpleOs

variable {σ τ α β ρ ε : Type*}

inductive Disabled
  | disabled
  deriving DecidableEq

structure Entry (σ α ρ : Type*) where
  before : σ
  act : α
  res : ρ

/-- `Run f s₀ h s` : the steps `h` (newest first) lead from `s₀` to `s`. -/
inductive Run (f : σ → α → Except ε (ρ × σ)) (s₀ : σ) : List (Entry σ α ρ) → σ → Prop
  | start : Run f s₀ [] s₀
  | next {h : List (Entry σ α ρ)} {s s' : σ} {a : α} {r : ρ} :
      Run f s₀ h s → f s a = .ok (r, s') → Run f s₀ (⟨s, a, r⟩ :: h) s'

variable {f : σ → α → Except ε (ρ × σ)} {s₀ : σ} {h : List (Entry σ α ρ)} {s : σ}

theorem Run.invariant {I : List (Entry σ α ρ) → σ → Prop} (h₀ : I [] s₀)
    (hstep : ∀ h s a r s', Run f s₀ h s → I h s → f s a = .ok (r, s') → I (⟨s, a, r⟩ :: h) s')
    (hrun : Run f s₀ h s) : I h s := by
  induction hrun with
  | start => exact h₀
  | next hrun hf ih => exact hstep _ _ _ _ _ hrun ih hf

theorem Run.guarded {I : List (Entry σ α ρ) → σ → Prop} {C : σ → α → Prop} (h₀ : I [] s₀)
    (hstep : ∀ h s a r s', I h s → C s a → f s a = .ok (r, s') → I (⟨s, a, r⟩ :: h) s')
    (hrun : Run f s₀ h s) (hC : ∀ e ∈ h, C e.before e.act) : I h s := by
  induction hrun with
  | start => exact h₀
  | next _ hf ih =>
    rw [List.forall_mem_cons] at hC
    exact hstep _ _ _ _ _ (ih hC.2) hC.1 hf

theorem Run.before {h₁ h₂ : List (Entry σ α ρ)} {e : Entry σ α ρ}
    (hrun : Run f s₀ (h₂ ++ e :: h₁) s) : Run f s₀ h₁ e.before := by
  induction h₂ generalizing s with
  | nil => cases hrun with | next hrun _ => exact hrun
  | cons _ _ ih => cases hrun with | next hrun _ => exact ih hrun

/-- The earlier steps of a run are a run, and the later steps are one from where it ends. -/
theorem Run.split {h₁ h₂ : List (Entry σ α ρ)} (hrun : Run f s₀ (h₂ ++ h₁) s) :
    ∃ s', Run f s₀ h₁ s' ∧ Run f s' h₂ s := by
  induction h₂ generalizing s with
  | nil => exact ⟨s, hrun, .start⟩
  | cons _ _ ih =>
    cases hrun with
    | next hrun hf =>
      obtain ⟨s', hrun₁, hrun₂⟩ := ih hrun
      exact ⟨s', hrun₁, .next hrun₂ hf⟩

theorem Run.first (hrun : Run f s₀ h s) : s = s₀ ∨ ∃ e ∈ h, e.before = s₀ := by
  induction hrun with
  | start => exact .inl rfl
  | next _ _ ih =>
    rcases ih with rfl | ⟨e, he, hbefore⟩
    · exact .inr ⟨_, List.mem_cons_self, rfl⟩
    · exact .inr ⟨e, List.mem_cons_of_mem _ he, hbefore⟩

theorem Run.suffix {h₁ h₂ : List (Entry σ α ρ)} (hrun : Run f s₀ (h₂ ++ h₁) s) : ∃ s', Run f s₀ h₁ s' := by
  obtain ⟨s', hrun, -⟩ := hrun.split
  exact ⟨s', hrun⟩

theorem Run.append {k : List (Entry σ α ρ)} {t : σ} (hrun : Run f s₀ h s) (hk : Run f s k t) : Run f s₀ (k ++ h) t := by
  induction hk with
  | start => exact hrun
  | next _ hf ih => exact .next ih hf

theorem Run.unique {h' : List (Entry σ α ρ)} {s' : σ} (hrun : Run f s₀ h s) (hrun' : Run f s₀ h' s')
    (hact : h.map Entry.act = h'.map Entry.act) : h = h' ∧ s = s' := by
  induction hrun generalizing h' s' with
  | start =>
    rw [List.map_nil, eq_comm, List.map_eq_nil_iff] at hact
    subst hact
    cases hrun'
    exact ⟨rfl, rfl⟩
  | next _ hf ih =>
    cases hrun' with
    | start => cases hact
    | next hrun' hf' =>
      rw [List.map_cons, List.map_cons, List.cons.injEq] at hact
      obtain ⟨ha, hact⟩ := hact
      obtain ⟨rfl, rfl⟩ := ih hrun' hact
      simp only at ha
      subst ha
      cases hf.symm.trans hf'
      exact ⟨rfl, rfl⟩

/-- Simulation: when every step of `f` from related states is matched by `g` under matching
actions, every run of `f` is matched by a run of `g`. The steps of the run meet `C`, and `P` with the
steps before them. -/
theorem Run.simulate {g : τ → β → Except ε (ρ × τ)} {t₀ : τ} {R : List (Entry σ α ρ) → σ → τ → Prop}
    {C : σ → α → Prop} {P : Entry σ α ρ → Entry σ α ρ → Prop} {M : α → β → Prop} {Q : Entry σ α ρ → ρ → Prop}
    (h₀ : R [] s₀ t₀)
    (hstep : ∀ h s t a b r s', R h s t → C s a → (∀ e ∈ h, P ⟨s, a, r⟩ e) → M a b → f s a = .ok (r, s') →
      ∃ r' t', g t b = .ok (r', t') ∧ R (⟨s, a, r⟩ :: h) s' t' ∧ Q ⟨s, a, r⟩ r')
    (hrun : Run f s₀ h s) (hC : ∀ e ∈ h, C e.before e.act) (hP : h.Pairwise P) :
    ∀ bs, List.Forall₂ M (h.map Entry.act) bs →
      ∃ k t, Run g t₀ k t ∧ k.map Entry.act = bs ∧ R h s t ∧ List.Forall₂ (fun e e' => Q e e'.res) h k := by
  induction hrun with
  | start =>
    intro bs hbs
    rw [List.map_nil, List.forall₂_nil_left_iff] at hbs
    exact ⟨[], t₀, .start, hbs.symm, h₀, .nil⟩
  | next _ hf ih =>
    intro bs hbs
    rw [List.forall_mem_cons] at hC
    rw [List.pairwise_cons] at hP
    rw [List.map_cons, List.forall₂_cons_left_iff] at hbs
    obtain ⟨b, bs, hM, hbs, rfl⟩ := hbs
    obtain ⟨k, t, hk, hact, hR, hQ⟩ := ih hC.2 hP.2 bs hbs
    obtain ⟨r', t', hg, hR', hq⟩ := hstep _ _ t _ b _ _ hR hC.1 hP.1 hM hf
    exact ⟨⟨t, b, r'⟩ :: k, t', .next hk hg, by rw [List.map_cons, hact], hR', .cons hq hQ⟩

def Reaches (f : σ → α → Except ε (ρ × σ)) (s₀ : σ) (l : List (α × ρ)) (s : σ) : Prop :=
  ∃ h, Run f s₀ h s ∧ h.map (fun e => (e.act, e.res)) = l

/-- The actions of a run from `s₀` with their results: what can be seen of it. -/
def Trace (f : σ → α → Except ε (ρ × σ)) (s₀ : σ) (l : List (α × ρ)) : Prop := ∃ s, Reaches f s₀ l s

variable {l : List (α × ρ)} {a : α} {r : ρ} {s' : σ}

theorem reaches_nil : Reaches f s₀ [] s ↔ s = s₀ := by
  constructor
  · rintro ⟨h, hrun, hl⟩
    cases List.map_eq_nil_iff.mp hl
    cases hrun
    rfl
  · rintro rfl
    exact ⟨[], .start, rfl⟩

theorem reaches_cons : Reaches f s₀ ((a, r) :: l) s' ↔ ∃ s, Reaches f s₀ l s ∧ f s a = .ok (r, s') := by
  constructor
  · rintro ⟨h, hrun, hl⟩
    cases hrun with
    | start => cases hl
    | next hrun hf =>
      rw [List.map_cons, List.cons.injEq] at hl
      obtain ⟨he, hl⟩ := hl
      cases he
      exact ⟨_, ⟨_, hrun, hl⟩, hf⟩
  · rintro ⟨s, ⟨h, hrun, hl⟩, hf⟩
    exact ⟨⟨s, a, r⟩ :: h, .next hrun hf, by rw [List.map_cons, hl]⟩

theorem Reaches.unique (h : Reaches f s₀ l s) (h' : Reaches f s₀ l s') : s = s' := by
  obtain ⟨k, hrun, hl⟩ := h
  obtain ⟨k', hrun', hl'⟩ := h'
  refine (hrun.unique hrun' ?_).2
  have hact := congrArg (List.map Prod.fst) (hl.trans hl'.symm)
  rwa [List.map_map, List.map_map] at hact

/-- When steps from related states are matched with the same result, so are traces. -/
theorem Trace.simulate {g : τ → α → Except ε (ρ × τ)} {t₀ : τ} {R : σ → τ → Prop} (h₀ : R s₀ t₀)
    (hstep : ∀ s t a r s', R s t → f s a = .ok (r, s') → ∃ t', g t a = .ok (r, t') ∧ R s' t') (h : Trace f s₀ l) :
    Trace g t₀ l := by
  obtain ⟨s, hs⟩ := h
  suffices ∃ t, Reaches g t₀ l t ∧ R s t from this.imp fun t ht => ht.1
  induction l generalizing s with
  | nil =>
    cases reaches_nil.mp hs
    exact ⟨t₀, reaches_nil.mpr rfl, h₀⟩
  | cons x l ih =>
    obtain ⟨s', hs', hf⟩ := reaches_cons.mp hs
    obtain ⟨t, ht, hR⟩ := ih s' hs'
    obtain ⟨t', hg, hR'⟩ := hstep _ _ _ _ _ hR hf
    exact ⟨t', reaches_cons.mpr ⟨t, ht, hg⟩, hR'⟩

/-- A system that is part of another, with its actions among those of the other, has the traces of its actions there. -/
theorem trace_embed_iff {g : τ → β → Except ε (ρ × τ)} {φ : α → β} {ψ : σ → τ}
    (hstep : ∀ s a, g (ψ s) (φ a) = (f s a).map fun x => (x.1, ψ x.2)) :
    Trace g (ψ s₀) (l.map fun x => (φ x.1, x.2)) ↔ Trace f s₀ l := by
  have hreach : ∀ t, Reaches g (ψ s₀) (l.map fun x => (φ x.1, x.2)) t ↔ ∃ s, t = ψ s ∧ Reaches f s₀ l s := by
    induction l with
    | nil =>
      intro t
      simp only [List.map_nil, reaches_nil, exists_eq_right]
    | cons x l ih =>
      intro t
      obtain ⟨a, r⟩ := x
      simp only [List.map_cons, reaches_cons, ih]
      constructor
      · rintro ⟨-, ⟨s, rfl, hs⟩, hg⟩
        rw [hstep] at hg
        cases hf : f s a with
        | error e =>
          rw [hf] at hg
          cases hg
        | ok y =>
          rw [hf] at hg
          cases hg
          exact ⟨y.2, rfl, s, hs, hf⟩
      · rintro ⟨s', rfl, s, hs, hf⟩
        refine ⟨ψ s, ⟨s, rfl, hs⟩, ?_⟩
        rw [hstep, hf]
        rfl
  constructor
  · rintro ⟨t, ht⟩
    obtain ⟨s, -, hs⟩ := (hreach t).mp ht
    exact ⟨s, hs⟩
  · rintro ⟨s, hs⟩
    exact ⟨ψ s, (hreach _).mpr ⟨s, rfl, hs⟩⟩

def replay (f : σ → α → Except ε (ρ × σ)) (s : σ) : List α → Except ε (List (Entry σ α ρ) × σ)
  | [] => .ok ([], s)
  | a :: l =>
    match replay f s l with
    | .error e => .error e
    | .ok (h, s) =>
      match f s a with
      | .error e => .error e
      | .ok (r, s') => .ok (⟨s, a, r⟩ :: h, s')

theorem run_of_replay {l : List α} (hl : replay f s₀ l = .ok (h, s)) :
    Run f s₀ h s ∧ h.map Entry.act = l := by
  induction l generalizing h s with
  | nil =>
    cases hl
    exact ⟨.start, rfl⟩
  | cons a l ih =>
    simp only [replay] at hl
    split at hl
    · cases hl
    · next hr =>
      split at hl
      · cases hl
      · next hf =>
        cases hl
        obtain ⟨hrun, hact⟩ := ih hr
        exact ⟨.next hrun hf, by rw [List.map_cons, hact]⟩

theorem exists_run_of_replay (f : σ → α → Except ε (ρ × σ)) (s₀ : σ) (l : List α)
    (p : List (Entry σ α ρ) → σ → Bool) (hl : (replay f s₀ l).toOption.any (fun x => p x.1 x.2) = true) :
    ∃ h s, Run f s₀ h s ∧ h.map Entry.act = l ∧ p h s = true := by
  cases hr : replay f s₀ l with
  | error e => rw [hr] at hl; cases hl
  | ok x =>
    rw [hr] at hl
    obtain ⟨hrun, hact⟩ := run_of_replay (h := x.1) (s := x.2) hr
    exact ⟨x.1, x.2, hrun, hact, hl⟩

end SimpleOs
