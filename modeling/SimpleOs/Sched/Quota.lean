import SimpleOs.Sched.Mlq

/-!
# The slot quota of a level

* `streak` : the dispatches a level had in a row while another level waited;
* `QuotaKept` : a level gets at most `slot` dispatches in a row, then another level is served;
* `SlotSpared` : whenever a level has used its `slot`, the search of the levels leads elsewhere;
* `waiting_of_streak` : the level that waits is still not empty;
* `quota_iff` : the quota is kept if and only if the slots are spared;
* `quota_exceeded` : three dispatches in a row from a level whose slot is 2.
-/

namespace SimpleOs.Sched

variable {P : Type}

/-- The number of the last dispatches that all came from level `p` while level `q` was not empty. -/
def streak (F : PcbFields P) (p q : Nat) : SchedHistory P → Nat
  | [] => 0
  | e :: h =>
    match e.res with
    | some proc => if F.prio proc = p ∧ e.before.level q ≠ [] then streak F p q h + 1 else 0
    | none => streak F p q h

/-- When `slot[p]` dispatches in a row came from level `p` while level `q` waited, the next `get_proc`
returns a process of another level, and no level gets more of them. -/
def QuotaKept (F : PcbFields P) : SchedHistory P → Prop
  | [] => True
  | e :: h => QuotaKept F h ∧ (e.act = .get → ∀ p < MAX_PRIO, ∀ q < MAX_PRIO, q ≠ p →
      (e.before.slot p ≤ streak F p q h → ∃ proc, e.res = some proc ∧ F.prio proc ≠ p) ∧
      streak F p q (e :: h) ≤ e.before.slot p)

/-- Whenever a level has used its slot while another level waited, at a `get_proc`, it is empty or a level
before it is not. -/
def SlotSpared (F : PcbFields P) : SchedHistory P → Prop
  | [] => True
  | e :: h => SlotSpared F h ∧ (e.act = .get → ∀ p < MAX_PRIO, ∀ q < MAX_PRIO, q ≠ p →
      e.before.slot p ≤ streak F p q h → e.before.level p = [] ∨ ∃ l < p, e.before.level l ≠ [])

variable {F : PcbFields P} {s s' : SchedT P} {h : SchedHistory P} {e : Entry (SchedT P) (SchedAct P) (Option P)}
  {act : SchedAct P} {r : Option P} {p q : Nat}

@[simp] theorem streak_none (s : SchedT P) (act : SchedAct P) :
    streak F p q (⟨s, act, none⟩ :: h) = streak F p q h := rfl

theorem streak_some (s : SchedT P) (act : SchedAct P) (proc : P) : streak F p q (⟨s, act, some proc⟩ :: h) =
    if F.prio proc = p ∧ s.level q ≠ [] then streak F p q h + 1 else 0 := rfl

theorem waiting_of_streak (hrun : Run (schedStep F) SchedT.init h s) (hpq : q ≠ p) (hpos : 0 < streak F p q h) :
    s.level q ≠ [] := by
  induction hrun with
  | start => exact absurd hpos (Nat.lt_irrefl 0)
  | @next h s s' act r hrun hx ih =>
    have hok := run_ok hrun
    cases schedStep_cases hx with
    | enter hact hprio => exact enter_level_ne_nil (ih hpos)
    | idle => exact ih hpos
    | dispatch hprio hlow hq =>
      rw [streak_some] at hpos
      split at hpos
      · next hp =>
        rw [dispatch_level_of_ne hq]
        · exact hp.2
        · rw [← hp.1, hq.prio_eq hok] at hpq
          exact hpq
      · exact absurd hpos (Nat.lt_irrefl 0)

/-- At a `get_proc` that finds a slot used up, another level is served exactly when the slot is spared. -/
theorem other_served_iff (hrun : Run (schedStep F) SchedT.init h s) (hx : schedStep F s .get = .ok (r, s'))
    (hp : p < MAX_PRIO) (hq : q < MAX_PRIO) (hpq : q ≠ p) (hslot : s.slot p ≤ streak F p q h) :
    (∃ proc, r = some proc ∧ F.prio proc ≠ p) ↔ s.level p = [] ∨ ∃ l < p, s.level l ≠ [] := by
  have hok := run_ok hrun
  have hwait : s.level q ≠ [] := by
    apply waiting_of_streak hrun hpq
    have hpos := hok.slot p
    omega
  cases schedStep_cases hx with
  | enter hact => cases hact
  | idle hall => exact absurd (hall q hq) hwait
  | @dispatch prio proc _ l₁ l₂ hprio hlow hdeq =>
    have hproc := hdeq.prio_eq hok
    have hne : s.level prio ≠ [] := by
      rw [SchedT.level, hdeq.before]
      exact List.append_ne_nil_of_right_ne_nil _ (List.cons_ne_nil _ _)
    constructor
    · rintro ⟨_, hres, hother⟩
      cases hres
      rw [hproc] at hother
      rcases Nat.lt_or_gt_of_ne hother with hlt | hgt
      · exact .inr ⟨prio, hlt, hne⟩
      · exact .inl (hlow p hgt)
    · intro hspared
      refine ⟨proc, rfl, ?_⟩
      rw [hproc]
      intro heq
      subst heq
      rcases hspared with hempty | ⟨l, hl, hlne⟩
      · exact hne hempty
      · exact hlne (hlow l hl)

/-- When the level served changes as it should, no streak outgrows its slot. -/
theorem streak_le_slot {act : SchedAct P} (hstreak : streak F p q h ≤ s.slot p)
    (hother : s.slot p ≤ streak F p q h → ∃ proc, r = some proc ∧ F.prio proc ≠ p) :
    streak F p q (⟨s, act, r⟩ :: h) ≤ s.slot p := by
  cases r with
  | none => exact hstreak
  | some proc =>
    rw [streak_some]
    split
    · next hproc =>
      by_contra hlt
      obtain ⟨_, hres, hne⟩ := hother (by omega)
      cases hres
      exact hne hproc.1
    · exact Nat.zero_le _

theorem QuotaKept.streak_le (hrun : Run (schedStep F) SchedT.init h s) (hk : QuotaKept F h) (hp : p < MAX_PRIO)
    (hq : q < MAX_PRIO) (hpq : q ≠ p) : streak F p q h ≤ s.slot p := by
  induction hrun with
  | start => exact Nat.zero_le _
  | @next h s s' act r hrun hx ih =>
    have hslot : s'.slot p = s.slot p := by
      rw [(run_ok (.next hrun hx)).slot p, (run_ok hrun).slot p]
    rw [hslot]
    cases act with
    | get => exact (hk.2 rfl p hp q hq hpq).2
    | add => cases schedStep_cases hx; exact ih hk.1
    | put => cases schedStep_cases hx; exact ih hk.1

/-- The quota is kept if and only if the slots are spared. -/
theorem quota_iff (hrun : Run (schedStep F) SchedT.init h s) : QuotaKept F h ↔ SlotSpared F h := by
  induction hrun with
  | start => exact Iff.rfl
  | @next h s s' act r hrun hx ih =>
    constructor
    · intro hk
      refine ⟨ih.mp hk.1, fun hget p hp q hq hpq hslot => ?_⟩
      have hget' : act = .get := hget
      subst hget'
      exact (other_served_iff hrun hx hp hq hpq hslot).mp ((hk.2 rfl p hp q hq hpq).1 hslot)
    · intro hsp
      have hk := ih.mpr hsp.1
      refine ⟨hk, fun hget p hp q hq hpq => ?_⟩
      have hget' : act = .get := hget
      subst hget'
      have hother : s.slot p ≤ streak F p q h → ∃ proc, r = some proc ∧ F.prio proc ≠ p := fun hslot =>
        (other_served_iff hrun hx hp hq hpq hslot).mpr (hsp.2 rfl p hp q hq hpq hslot)
      exact ⟨hother, streak_le_slot (hk.streak_le hrun hp hq hpq) hother⟩

/-- Processes 0, 1 and 2 wait in level 138, whose slot is 2, and process 3 in level 139. -/
def quotaFields : PcbFields Nat := ⟨fun _ => 0, fun proc => if proc = 3 then 139 else 138⟩

/-- A get that finds the slot spared: after its two dispatches level 138 is empty. -/
theorem quota_iff_spared :
    ∃ (h : SchedHistory Nat), h.map Entry.act = [.get, .get, .get, .add 3, .add 1, .add 0] ∧
      (QuotaKept quotaFields h ↔ SlotSpared quotaFields h) := by
  obtain ⟨h, s, hrun, hact, _⟩ := exists_run_of_replay (schedStep quotaFields) SchedT.init
    [.get, .get, .get, .add 3, .add 1, .add 0] (fun _ _ => true) (by decide +kernel)
  exact ⟨h, hact, quota_iff hrun⟩

/-- A level exceeds its slot: level 138 is served a third time while level 139 waits. -/
theorem quota_exceeded :
    ∃ (h : SchedHistory Nat) (s : SchedT Nat), Run (schedStep quotaFields) SchedT.init h s ∧
      h.map Entry.act = [.get, .get, .get, .add 3, .add 2, .add 1, .add 0] ∧ ¬ QuotaKept quotaFields h := by
  obtain ⟨h, s, hrun, hact, hp⟩ := exists_run_of_replay (schedStep quotaFields) SchedT.init
    [.get, .get, .get, .add 3, .add 2, .add 1, .add 0]
    (fun h _ => match h with
      | e :: h => decide (e.act = .get ∧ e.before.slot 138 ≤ streak quotaFields 138 139 h ∧ e.res = some 2)
      | [] => false) (by decide +kernel)
  refine ⟨h, s, hrun, hact, fun hk => ?_⟩
  cases h with
  | nil => cases hp
  | cons e h =>
    obtain ⟨hget, hslot, hres⟩ := of_decide_eq_true hp
    obtain ⟨proc, hproc, hne⟩ := (hk.2 hget 138 (by decide) 139 (by decide) (by decide)).1 hslot
    rw [hres] at hproc
    cases hproc
    exact hne rfl

end SimpleOs.Sched
