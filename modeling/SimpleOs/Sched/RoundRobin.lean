import Mathlib.Data.List.Count
import SimpleOs.Sched.Mlq

/-!
# Round robin inside a level

* `entered`, `dispatched` : the processes that entered a level and that left it for a CPU, in order;
* `InOrder`, `Rounds`, `RoundRobin` : they leave in the order in which they entered, so between two
  dispatches of one process each other one that waited is dispatched once;
* `HeadLeast` : the process at the head of the level has a least legacy `priority`;
* `Queued`, `queued_step` : what entered is what was dispatched and what waits;
* `roundRobin_iff` : a level that never overflows is round robin if and only if its heads are least;
* `roundRobin_broken` : two processes with different `priority` in one level.
-/

namespace SimpleOs.Sched

/-! ## Queues in order -/

section Order
variable {α : Type} {D L W E d : List α} {x : α}

theorem head_of_prefix (h : D ++ [x] <+: D ++ L) : ∃ rest, L = x :: rest := by
  obtain ⟨rest, hrest⟩ := (List.prefix_append_right_inj D).mp h
  exact ⟨rest, hrest.symm⟩

/-- When `x` leaves for the first time after it came behind `W`, exactly `W` has left before it. -/
theorem left_before (h : d ++ [x] <+: W ++ x :: E) (hd : x ∉ d) (hW : x ∉ W) : d = W := by
  induction d generalizing W with
  | nil =>
    cases W with
    | nil => rfl
    | cons w W =>
      rw [List.nil_append, List.cons_append, List.cons_prefix_cons] at h
      exact absurd (h.1 ▸ List.mem_cons_self) hW
  | cons z d ih =>
    cases W with
    | nil =>
      rw [List.cons_append, List.nil_append, List.cons_prefix_cons] at h
      exact absurd (h.1 ▸ List.mem_cons_self) hd
    | cons w W =>
      rw [List.cons_append, List.cons_append, List.cons_prefix_cons] at h
      rw [List.mem_cons, not_or] at hd hW
      rw [h.1, ih h.2 hd.2 hW.2]

end Order

variable {P : Type}

/-! ## Round robin -/

/-- The processes that entered level `p`, oldest first. -/
def entered (F : PcbFields P) (p : Nat) (h : SchedHistory P) : List P :=
  (h.reverse.filterMap fun e => e.act.enters).filter fun proc => F.prio proc = p

/-- The processes dispatched from level `p`, oldest first. -/
def dispatched (F : PcbFields P) (p : Nat) (h : SchedHistory P) : List P :=
  (h.reverse.filterMap Entry.res).filter fun proc => F.prio proc = p

/-- Level `p` had room whenever a process entered it. -/
def NeverFull (F : PcbFields P) (p : Nat) (h : SchedHistory P) : Prop :=
  ∀ e ∈ h, ∀ proc, e.act.enters = some proc → F.prio proc = p → (e.before.level p).length < MAX_QUEUE_SIZE

/-- At every moment the processes dispatched are the first that entered, in the same order. -/
def InOrder (F : PcbFields P) (p : Nat) : SchedHistory P → Prop
  | [] => True
  | e :: h => InOrder F p h ∧ dispatched F p (e :: h) <+: entered F p (e :: h)

/-- Process `x` is dispatched at `e₁`, comes back to the level at `e` and is dispatched again at `e₂`. A
process that waits when `x` comes back, and waited since `e₁`, is dispatched exactly once meanwhile. -/
def Rounds (F : PcbFields P) [DecidableEq P] (p : Nat) (h : SchedHistory P) : Prop :=
  ∀ x y l₄ e₂ l₃ e l₂ e₁ l₁, h = l₄ ++ e₂ :: (l₃ ++ e :: (l₂ ++ e₁ :: l₁)) → F.prio x = p →
    e₁.res = some x → e.act.enters = some x → x ∉ e.before.level p → e₂.res = some x →
    x ∉ dispatched F p (l₃ ++ e :: l₂) → y ≠ x → y ∉ dispatched F p l₂ → (e.before.level p).count y = 1 →
    (dispatched F p (l₃ ++ e :: l₂)).count y = 1

def RoundRobin (F : PcbFields P) [DecidableEq P] (p : Nat) (h : SchedHistory P) : Prop :=
  InOrder F p h ∧ Rounds F p h

/-- When level `p` is the first that is not empty, its head has a least `priority`. -/
def HeadLeastAt (F : PcbFields P) (p : Nat) (s : SchedT P) : Prop :=
  (∀ l < p, s.level l = []) → ∀ x rest, s.level p = x :: rest → ∀ y ∈ rest, F.priority x ≤ F.priority y

/-- It has one at every `get_proc`. -/
def HeadLeast (F : PcbFields P) (p : Nat) (h : SchedHistory P) : Prop :=
  ∀ e ∈ h, e.act = .get → HeadLeastAt F p e.before

/-- What entered level `p` is what was dispatched from it, then what waits in it. -/
def Queued (F : PcbFields P) (p : Nat) (h : SchedHistory P) (s : SchedT P) : Prop :=
  entered F p h = dispatched F p h ++ s.level p

variable {F : PcbFields P} {s s' : SchedT P} {h : SchedHistory P} {act : SchedAct P} {r : Option P}
  {e : Entry (SchedT P) (SchedAct P) (Option P)} {p : Nat}

theorem entered_append (h₂ h₁ : SchedHistory P) : entered F p (h₂ ++ h₁) = entered F p h₁ ++ entered F p h₂ := by
  simp only [entered, List.reverse_append, List.filterMap_append, List.filter_append]

theorem dispatched_append (h₂ h₁ : SchedHistory P) :
    dispatched F p (h₂ ++ h₁) = dispatched F p h₁ ++ dispatched F p h₂ := by
  simp only [dispatched, List.reverse_append, List.filterMap_append, List.filter_append]

theorem entered_cons (e : Entry (SchedT P) (SchedAct P) (Option P)) :
    entered F p (e :: h) = entered F p h ++ entered F p [e] := entered_append [e] h

theorem dispatched_cons (e : Entry (SchedT P) (SchedAct P) (Option P)) :
    dispatched F p (e :: h) = dispatched F p h ++ dispatched F p [e] := dispatched_append [e] h

theorem entered_single {proc : P} (hact : e.act.enters = some proc) :
    entered F p [e] = if F.prio proc = p then [proc] else [] := by
  simp [entered, hact, List.filter_cons]

theorem entered_get (s : SchedT P) (r : Option P) : entered F p [⟨s, .get, r⟩] = [] := by
  simp [entered, SchedAct.enters]

theorem dispatched_single {proc : P} (hres : e.res = some proc) :
    dispatched F p [e] = if F.prio proc = p then [proc] else [] := by
  simp [dispatched, hres, List.filter_cons]

theorem dispatched_none (s : SchedT P) (act : SchedAct P) : dispatched F p [⟨s, act, none⟩] = [] := rfl

/-! ## The order of the level -/

theorem Dequeued.head {q : QueueT P} {proc : P} {q' : QueueT P} {l₁ l₂ : List P}
    (hq : Dequeued F.priority q proc q' l₁ l₂)
    (hleast : ∀ x rest, q.proc = x :: rest → ∀ y ∈ rest, F.priority x ≤ F.priority y) : l₁ = [] := by
  cases l₁ with
  | nil => rfl
  | cons x l₁ =>
    have hle := hleast x _ hq.before proc (List.mem_append_right _ List.mem_cons_self)
    have hlt := hq.left x List.mem_cons_self
    omega

theorem queued_init : Queued F p [] (SchedT.init : SchedT P) := rfl

/-- A step keeps the level queued when it had room and its head is least. -/
theorem queued_step (hs : s.Ok F) (hq : Queued F p h s)
    (hroom : ∀ proc, act.enters = some proc → F.prio proc = p → (s.level p).length < MAX_QUEUE_SIZE)
    (hhead : act = .get → HeadLeastAt F p s) (hx : schedStep F s act = .ok (r, s')) :
    Queued F p (⟨s, act, r⟩ :: h) s' := by
  rw [Queued] at hq ⊢
  rw [entered_cons, dispatched_cons, hq]
  cases schedStep_cases hx with
  | @enter _ proc hact hprio =>
    rw [entered_single hact, dispatched_none, List.append_nil, enter_level]
    by_cases hp : F.prio proc = p
    · have hlt := hroom proc hact hp
      rw [if_pos hp, if_pos ⟨hp.symm, hlt⟩, List.append_assoc]
    · rw [if_neg hp, if_neg fun h => hp h.1.symm, List.append_nil]
  | idle => rw [entered_get, dispatched_none, List.append_nil, List.append_nil]; rfl
  | @dispatch prio proc q l₁ l₂ hprio hlow hdeq =>
    have hproc := hdeq.prio_eq hs
    rw [entered_get, dispatched_single rfl, List.append_nil, dispatch_level hdeq, hproc]
    by_cases hp : prio = p
    · subst hp
      have hl₁ := hdeq.head (hhead rfl hlow)
      subst hl₁
      have hbefore : s.level prio = proc :: l₂ := hdeq.before
      rw [if_pos rfl, if_pos rfl, hbefore, List.append_assoc]
      rfl
    · rw [if_neg hp, if_neg (Ne.symm hp), List.append_nil]

theorem Dequeued.least {q q' : QueueT P} {proc y : P} {l₁ l₂ : List P} (hq : Dequeued F.priority q proc q' l₁ l₂)
    (hy : y ∈ q.proc) : F.priority proc ≤ F.priority y := by
  rw [hq.before] at hy
  rcases List.mem_append.mp hy with hy | hy
  · exact (hq.left y hy).le
  · rcases List.mem_cons.mp hy with rfl | hy
    · exact Nat.le_refl _
    · exact hq.right y hy

theorem headLeastAt_of_prefix (hp : p < MAX_PRIO) (hs : s.Ok F) (hq : Queued F p h s)
    (hx : schedStep F s .get = .ok (r, s'))
    (hpre : dispatched F p (⟨s, .get, r⟩ :: h) <+: entered F p (⟨s, .get, r⟩ :: h)) : HeadLeastAt F p s := by
  rw [Queued] at hq
  rw [entered_cons, dispatched_cons, hq, entered_get, List.append_nil] at hpre
  intro hlow x rest hlevel y hy
  cases schedStep_cases hx with
  | enter hact => cases hact
  | idle hall =>
    rw [hall p hp] at hlevel
    cases hlevel
  | @dispatch prio proc q l₁ l₂ hprio hlow' hdeq =>
    have hserved : s.level prio ≠ [] := by
      rw [SchedT.level, hdeq.before]
      exact List.append_ne_nil_of_right_ne_nil _ (List.cons_ne_nil _ _)
    have hwait : s.level p ≠ [] := by
      rw [hlevel]
      exact List.cons_ne_nil _ _
    have heq : prio = p := by
      rcases Nat.lt_trichotomy prio p with hlt | heq | hgt
      · exact absurd (hlow prio hlt) hserved
      · exact heq
      · exact absurd (hlow' p hgt) hwait
    subst heq
    rw [dispatched_single rfl, if_pos (hdeq.prio_eq hs)] at hpre
    obtain ⟨rest', hhead⟩ := head_of_prefix hpre
    rw [hlevel] at hhead
    cases hhead
    apply hdeq.least
    show y ∈ s.level prio
    rw [hlevel]
    exact List.mem_cons_of_mem _ hy

/-- A level that never overflows keeps its order if and only if its heads are least, and then it is
queued. -/
theorem inOrder_iff (hp : p < MAX_PRIO) (hrun : Run (schedStep F) SchedT.init h s) (hfull : NeverFull F p h) :
    (InOrder F p h ↔ HeadLeast F p h) ∧ (HeadLeast F p h → Queued F p h s) := by
  induction hrun with
  | start => exact ⟨⟨fun _ _ he => absurd he List.not_mem_nil, fun _ => trivial⟩, fun _ => queued_init⟩
  | @next h s s' act r hrun hx ih =>
    obtain ⟨hiff, hqueued⟩ := ih fun e he => hfull e (List.mem_cons_of_mem _ he)
    have hs := run_ok hrun
    have hstep : HeadLeast F p (⟨s, act, r⟩ :: h) → Queued F p (⟨s, act, r⟩ :: h) s' := by
      intro hleast
      rw [HeadLeast, List.forall_mem_cons] at hleast
      exact queued_step hs (hqueued hleast.2) (hfull _ List.mem_cons_self) hleast.1 hx
    refine ⟨⟨fun hord => ?_, fun hleast => ?_⟩, hstep⟩
    · have hleast := hiff.mp hord.1
      rw [HeadLeast, List.forall_mem_cons]
      refine ⟨fun hget => ?_, hleast⟩
      have hget' : act = .get := hget
      subst hget'
      exact headLeastAt_of_prefix hp hs (hqueued hleast) hx hord.2
    · have hq := hstep hleast
      rw [HeadLeast, List.forall_mem_cons] at hleast
      refine ⟨hiff.mpr hleast.2, ?_⟩
      rw [Queued] at hq
      rw [hq]
      exact List.prefix_append _ _

/-! ## Rounds -/

/-- What is dispatched between the moment `x` comes back to a level and its next dispatch is what waited
when it came back. -/
theorem dispatched_between (hp : p < MAX_PRIO) {x : P} {l₃ l₁ : SchedHistory P}
    {e₂ : Entry (SchedT P) (SchedAct P) (Option P)} (hrun : Run (schedStep F) SchedT.init (e₂ :: (l₃ ++ e :: l₁)) s)
    (hfull : NeverFull F p (e₂ :: (l₃ ++ e :: l₁))) (hleast : HeadLeast F p (e₂ :: (l₃ ++ e :: l₁)))
    (hx : F.prio x = p) (hback : e.act.enters = some x) (hout : x ∉ e.before.level p) (hagain : e₂.res = some x)
    (hbetween : x ∉ dispatched F p (l₃ ++ [e])) : dispatched F p (l₃ ++ [e]) = e.before.level p := by
  have hrun₂ : Run (schedStep F) SchedT.init ((e₂ :: l₃) ++ e :: l₁) s := hrun
  have hrun₁ : Run (schedStep F) SchedT.init l₁ e.before := hrun₂.before
  have hsub : ∀ e' ∈ l₁, e' ∈ e₂ :: (l₃ ++ e :: l₁) := fun e' he' =>
    List.mem_cons_of_mem _ (List.mem_append_right _ (List.mem_cons_of_mem _ he'))
  have hqueued : Queued F p l₁ e.before :=
    (inOrder_iff hp hrun₁ fun e' he' => hfull e' (hsub e' he')).2 fun e' he' => hleast e' (hsub e' he')
  have hord := ((inOrder_iff hp hrun hfull).1.mpr hleast).2
  have hsplit : l₃ ++ e :: l₁ = (l₃ ++ [e]) ++ l₁ := List.append_cons ..
  have hentered : entered F p (l₃ ++ [e]) = [x] ++ entered F p l₃ := by
    rw [entered_append, entered_single hback, if_pos hx]
  rw [Queued] at hqueued
  rw [dispatched_cons, entered_cons, hsplit, dispatched_append, entered_append, dispatched_single hagain, if_pos hx,
    hentered, hqueued, List.append_assoc, List.append_assoc, List.append_assoc, List.prefix_append_right_inj,
    List.append_assoc] at hord
  exact left_before hord hbetween hout

theorem rounds_of_headLeast [DecidableEq P] (hp : p < MAX_PRIO) (hrun : Run (schedStep F) SchedT.init h s)
    (hfull : NeverFull F p h) (hleast : HeadLeast F p h) : Rounds F p h := by
  intro x y l₄ e₂ l₃ e l₂ e₁ l₁ hh hx _ hback hout hagain hbetween _ hother hwait
  subst hh
  obtain ⟨_, hrun₂⟩ := hrun.suffix
  have hsplit : l₃ ++ e :: l₂ = (l₃ ++ [e]) ++ l₂ := List.append_cons ..
  rw [hsplit, dispatched_append] at hbetween ⊢
  have hlevel : dispatched F p (l₃ ++ [e]) = e.before.level p :=
    dispatched_between hp hrun₂ (fun e' he' => hfull e' (List.mem_append_right _ he'))
      (fun e' he' => hleast e' (List.mem_append_right _ he')) hx hback hout hagain
      fun hin => hbetween (List.mem_append_right _ hin)
  rw [List.count_append, List.count_eq_zero_of_not_mem hother, hlevel, hwait]

/-- A level that never overflows is round robin if and only if its heads are least. -/
theorem roundRobin_iff [DecidableEq P] (hp : p < MAX_PRIO) (hrun : Run (schedStep F) SchedT.init h s)
    (hfull : NeverFull F p h) : RoundRobin F p h ↔ HeadLeast F p h := by
  constructor
  · intro hrr
    exact (inOrder_iff hp hrun hfull).1.mp hrr.1
  · intro hleast
    exact ⟨(inOrder_iff hp hrun hfull).1.mpr hleast, rounds_of_headLeast hp hrun hfull hleast⟩

/-- Level 3 with one legacy `priority`. -/
theorem roundRobin_iff_uniform :
    ∃ h : SchedHistory Nat, h.map Entry.act = [.get, .get, .put 0, .get, .add 1, .add 0] ∧
      (RoundRobin ⟨fun _ => 0, fun _ => 3⟩ 3 h ↔ HeadLeast ⟨fun _ => 0, fun _ => 3⟩ 3 h) := by
  obtain ⟨h, s, hrun, hact, hp⟩ := exists_run_of_replay (schedStep (P := Nat) ⟨fun _ => 0, fun _ => 3⟩) SchedT.init
    [.get, .get, .put 0, .get, .add 1, .add 0]
    (fun h _ => decide (∀ e ∈ h, (e.before.level 3).length < MAX_QUEUE_SIZE)) (by decide +kernel)
  exact ⟨h, hact, roundRobin_iff (by decide) hrun fun e he _ _ _ => of_decide_eq_true hp e he⟩

/-- A level that is not round robin: process 1 came behind process 0, and has the smaller `priority`. -/
theorem roundRobin_broken :
    ∃ (F : PcbFields Nat) (h : SchedHistory Nat) (s : SchedT Nat), Run (schedStep F) SchedT.init h s ∧
      h.map Entry.act = [.get, .add 1, .add 0] ∧ NeverFull F 3 h ∧ ¬ RoundRobin F 3 h := by
  obtain ⟨h, s, hrun, hact, hp⟩ :=
    exists_run_of_replay (schedStep (P := Nat) ⟨fun proc => 5 - proc, fun _ => 3⟩) SchedT.init
    [.get, .add 1, .add 0]
    (fun h _ => decide ((∀ e ∈ h, (e.before.level 3).length < MAX_QUEUE_SIZE) ∧
      dispatched ⟨fun proc => 5 - proc, fun _ => 3⟩ 3 h = [1] ∧
        entered ⟨fun proc => 5 - proc, fun _ => 3⟩ 3 h = [0, 1]))
    (by decide +kernel)
  obtain ⟨hfull, hdispatched, hentered⟩ := of_decide_eq_true hp
  refine ⟨_, h, s, hrun, hact, fun e he _ _ _ => hfull e he, fun hrr => ?_⟩
  cases h with
  | nil => cases hact
  | cons e h =>
    have hpre := hrr.1.2
    rw [hdispatched, hentered, List.cons_prefix_cons] at hpre
    exact absurd hpre.1 (by decide)

end SimpleOs.Sched
