import SimpleOs.Lib.Run
import SimpleOs.Sched.Queue

/-!
# The queue as an array

* `QueueArr`, with `QueueArr.empty`, `QueueArr.enqueue`, `QueueArr.dequeue` : `queue.c` on the array and its `size`;
* `QueueArr.Models` : the first `size` slots are the processes of a `QueueT`; `QueueArr.enqueue_models`,
  `QueueArr.dequeue_models` : the functions on lists do what those on the array do;
* `StableStep`, `StableRun` : a bounded queue with priorities, whose entries know when they came;
* `ready_queue_stable` : any calls on an array are calls on such a queue.
-/

namespace SimpleOs.Sched

variable {P : Type}

/-- `struct queue_t` : a slot that was never written, or was given up, holds anything. -/
structure QueueArr (P : Type) where
  proc : Nat → P
  size : Int

inductive QueueUb
  | proc (i : Int)
  deriving DecidableEq

def QueueArr.get (q : QueueArr P) (i : Int) : Except QueueUb P :=
  if 0 ≤ i ∧ i < MAX_QUEUE_SIZE then .ok (q.proc i.toNat) else .error (.proc i)

def QueueArr.set (q : QueueArr P) (i : Int) (proc : P) : Except QueueUb (QueueArr P) :=
  if 0 ≤ i ∧ i < MAX_QUEUE_SIZE then .ok { q with proc := Function.update q.proc i.toNat proc } else .error (.proc i)

def QueueArr.empty (q : QueueArr P) : Bool := q.size == 0

def QueueArr.enqueue (q : QueueArr P) (proc : P) : Except QueueUb (QueueArr P) := do
  if q.size ≥ MAX_QUEUE_SIZE then return q
  let q ← q.set q.size proc
  return { q with size := q.size + 1 }

/-- The first loop of `dequeue`, for the slots left to look at from `i` on: `highest` and `highest_index`. -/
def QueueArr.searchLoop (priority : P → Nat) (q : QueueArr P) : Nat → Nat → P → Nat → Except QueueUb (P × Nat)
  | 0, _, highest, highestIndex => .ok (highest, highestIndex)
  | left + 1, i, highest, highestIndex => do
    let proc ← q.get i
    if priority proc < priority highest then q.searchLoop priority left (i + 1) proc i
    else q.searchLoop priority left (i + 1) highest highestIndex

/-- The second loop of `dequeue`, for the slots left to move from `i` on. -/
def QueueArr.shiftLoop : Nat → Nat → QueueArr P → Except QueueUb (QueueArr P)
  | 0, _, q => .ok q
  | left + 1, i, q => do
    let next ← q.get (i + 1 : Nat)
    let q ← q.set i next
    QueueArr.shiftLoop left (i + 1) q

/-- `dequeue` : the process (`none` for a null pointer) and the queue. -/
def QueueArr.dequeue (priority : P → Nat) (q : QueueArr P) : Except QueueUb (Option P × QueueArr P) := do
  if q.size = 0 then return (none, q)
  let highest ← q.get 0
  let (highest, highestIndex) ← q.searchLoop priority (q.size - 1).toNat 1 highest 0
  let q ← QueueArr.shiftLoop (q.size - 1 - highestIndex).toNat highestIndex q
  return (some highest, { q with size := q.size - 1 })

/-! ## The array and the list -/

/-- The slots below `size` hold the processes of `qt`. -/
structure QueueArr.Models (q : QueueArr P) (qt : QueueT P) : Prop where
  size : q.size = qt.proc.length
  slot : ∀ i, ∀ hi : i < qt.proc.length, q.proc i = qt.proc[i]

variable {q q' : QueueArr P} {qt : QueueT P} {proc : P} {priority : P → Nat}

theorem QueueUb.ok_bind {β γ : Type} (b : β) (f : β → Except QueueUb γ) :
    ((.ok b : Except QueueUb β) >>= f) = f b := rfl

theorem QueueArr.get_of_lt (q : QueueArr P) {i : Nat} (hi : i < MAX_QUEUE_SIZE) : q.get i = .ok (q.proc i) :=
  if_pos ⟨Int.natCast_nonneg i, Int.ofNat_lt.mpr hi⟩

theorem QueueArr.set_of_lt (q : QueueArr P) {i : Nat} (hi : i < MAX_QUEUE_SIZE) (proc : P) :
    q.set i proc = .ok { q with proc := Function.update q.proc i proc } :=
  if_pos ⟨Int.natCast_nonneg i, Int.ofNat_lt.mpr hi⟩

theorem QueueArr.Models.empty_eq (h : q.Models qt) : q.empty = Sched.empty qt := by
  have hsize := h.size
  rw [QueueArr.empty, Sched.empty, QueueT.size, Bool.eq_iff_iff, beq_iff_eq, beq_iff_eq]
  omega

theorem QueueArr.enqueue_full (hfull : MAX_QUEUE_SIZE ≤ q.size) (proc : P) : q.enqueue proc = .ok q := by
  rw [QueueArr.enqueue, if_pos hfull]
  rfl

theorem QueueArr.enqueue_models (h : q.Models qt) (proc : P) :
    ∃ q', q.enqueue proc = .ok q' ∧ q'.Models (Sched.enqueue qt proc) := by
  have hsize := h.size
  rcases Nat.lt_or_ge qt.proc.length MAX_QUEUE_SIZE with hroom | hfull
  · have hadd := enqueue_of_lt hroom proc
    refine ⟨{ proc := Function.update q.proc qt.proc.length proc, size := q.size + 1 }, ?_, ?_, ?_⟩
    · rw [QueueArr.enqueue, if_neg (by omega)]
      conv_lhs => rw [hsize, QueueArr.set_of_lt q hroom]
      rfl
    · show q.size + 1 = _
      rw [hadd, List.length_append, List.length_singleton]
      omega
    · intro i hi
      simp only [hadd, List.length_append, List.length_singleton] at hi ⊢
      by_cases hi' : i < qt.proc.length
      · rw [Function.update_of_ne (by omega), h.slot i hi', List.getElem_append_left hi']
      · obtain rfl : i = qt.proc.length := by omega
        rw [Function.update_self, List.getElem_concat_length rfl]
  · rw [enqueue_of_full hfull]
    exact ⟨q, QueueArr.enqueue_full (by omega) proc, h⟩

theorem QueueArr.searchLoop_eq (h : q.Models qt) {left i : Nat} (hi : i + left = qt.proc.length) (highest : P)
    (highestIndex : Nat) : q.searchLoop priority left i highest highestIndex =
      .ok (dequeueSearch priority (qt.proc.drop i) i highest highestIndex) := by
  induction left generalizing i highest highestIndex with
  | zero =>
    rw [List.drop_eq_nil_of_le (by omega)]
    rfl
  | succ left ih =>
    have hlt : i < qt.proc.length := by omega
    have hle := qt.size_le
    rw [QueueArr.searchLoop, q.get_of_lt (by omega), QueueUb.ok_bind, h.slot i hlt, List.drop_eq_getElem_cons hlt,
      dequeueSearch]
    split
    · exact ih (by omega) _ _
    · exact ih (by omega) _ _

theorem QueueArr.shiftLoop_eq {left i : Nat} (hi : i + left < MAX_QUEUE_SIZE) (q : QueueArr P) :
    QueueArr.shiftLoop left i q =
      .ok { q with proc := fun j => if i ≤ j ∧ j < i + left then q.proc (j + 1) else q.proc j } := by
  induction left generalizing i q with
  | zero =>
    have hproc : (fun j => if i ≤ j ∧ j < i + 0 then q.proc (j + 1) else q.proc j) = q.proc :=
      funext fun j => if_neg (by omega)
    rw [QueueArr.shiftLoop, hproc]
  | succ left ih =>
    rw [QueueArr.shiftLoop, q.get_of_lt (by omega), QueueUb.ok_bind, q.set_of_lt (by omega), QueueUb.ok_bind,
      ih (by omega)]
    congr 2
    funext j
    dsimp only
    by_cases hj : j = i
    · subst hj
      rw [if_neg (by omega), if_pos (by omega), Function.update_self]
    · rw [Function.update_of_ne hj]
      by_cases hin : i + 1 ≤ j ∧ j < i + 1 + left
      · rw [if_pos hin, if_pos (by omega), Function.update_of_ne (by omega)]
      · rw [if_neg hin, if_neg (by omega)]

theorem QueueArr.dequeue_nil (h : q.Models qt) (hnil : qt.proc = []) : q.dequeue priority = .ok (none, q) := by
  have hsize := h.size
  rw [hnil] at hsize
  have hzero : q.size = 0 := hsize
  rw [QueueArr.dequeue, if_pos hzero]
  rfl

theorem QueueArr.Models.shifted {l₁ l₂ : List P} {qt' : QueueT P} (h : q.Models qt) (hl : qt.proc = l₁ ++ proc :: l₂)
    (hl' : qt'.proc = l₁ ++ l₂) : QueueArr.Models ⟨fun j => if l₁.length ≤ j ∧ j < l₁.length + l₂.length then
      q.proc (j + 1) else q.proc j, q.size - 1⟩ qt' := by
  have hsize := h.size
  have hslot := h.slot
  simp only [hl, List.length_append, List.length_cons] at hsize hslot
  constructor
  · show q.size - 1 = _
    rw [hl', List.length_append]
    omega
  · intro i hi
    simp only [hl', List.length_append] at hi ⊢
    by_cases hlt : i < l₁.length
    · rw [if_neg (by omega), hslot i (by omega), List.getElem_append_left hlt, List.getElem_append_left hlt]
    · rw [if_pos (by omega), hslot (i + 1) (by omega), List.getElem_append_right (by omega),
        List.getElem_append_right (by omega)]
      have hi' : i + 1 - l₁.length = i - l₁.length + 1 := by omega
      simp only [hi', List.getElem_cons_succ]

theorem QueueArr.dequeue_models (h : q.Models qt) (hne : qt.proc ≠ []) :
    ∃ proc q' qt' l₁ l₂, q.dequeue priority = .ok (some proc, q') ∧ q'.Models qt' ∧
      Dequeued priority qt proc qt' l₁ l₂ := by
  have hsize := h.size
  have hle := qt.size_le
  obtain ⟨x, rest, hx⟩ := List.exists_cons_of_ne_nil hne
  obtain ⟨k₁, proc, k₂, hs, happ, hleft, hright⟩ : ∃ k₁ proc k₂,
      dequeueSearch priority rest (0 + 1 + 0) x 0 = (proc, k₁.length) ∧ x :: rest = k₁ ++ proc :: k₂ ∧
      (∀ y ∈ k₁, priority proc < priority y) ∧ ∀ y ∈ k₂, priority proc ≤ priority y :=
    dequeueSearch_spec [] [] (fun _ h => nomatch h) fun _ h => nomatch h
  have hproc : qt.proc = k₁ ++ proc :: k₂ := hx.trans happ
  have hlen := congrArg List.length hproc
  rw [List.length_append, List.length_cons] at hlen
  have hx₀ : q.proc 0 = x := by rw [h.slot 0 (by omega)]; simp only [hx, List.getElem_cons_zero]
  have hrest : qt.proc.drop 1 = rest := by rw [hx]; rfl
  have hsearch : q.searchLoop priority (q.size - 1).toNat 1 x 0 = .ok (proc, k₁.length) := by
    rw [QueueArr.searchLoop_eq h (by omega), hrest]
    exact congrArg Except.ok hs
  have hshift := QueueArr.shiftLoop_eq (show k₁.length + k₂.length < MAX_QUEUE_SIZE by omega) q
  have hleft' : (q.size - 1 - (k₁.length : Int)).toNat = k₂.length := by omega
  have hroom : (k₁ ++ k₂).length ≤ MAX_QUEUE_SIZE := by rw [List.length_append]; omega
  refine ⟨proc, _, ⟨k₁ ++ k₂, hroom⟩, k₁, k₂, ?_, h.shifted hproc rfl, hproc, rfl, hleft, hright⟩
  have hget : q.get 0 = .ok x := hx₀ ▸ q.get_of_lt (i := 0) (by decide)
  rw [QueueArr.dequeue, if_neg (by omega), hget, QueueUb.ok_bind, hsearch, QueueUb.ok_bind]
  dsimp only
  rw [hleft', hshift]
  rfl

/-! ## Any calls -/

/-- A call on a queue; `priority` reads the field as it is at the time of the call. -/
inductive QueueCall (P : Type)
  | enqueue (proc : P)
  | dequeue (priority : P → Nat)

def queueCall (q : QueueArr P) : QueueCall P → Except QueueUb (Option P × QueueArr P)
  | .enqueue proc => do
    let q ← q.enqueue proc
    return (none, q)
  | .dequeue priority => q.dequeue priority

/-- Of two entries, each with the number of the call that put it in, the first has the smaller priority, or came earlier
with the same one. -/
def Before (priority : P → Nat) (e e' : Nat × P) : Prop :=
  priority e.2 < priority e'.2 ∨ priority e.2 = priority e'.2 ∧ e.1 < e'.1

/-- A stable bounded priority queue, in its call number `n` : a call returns a process or nothing, and leaves the
entries in their order but for one that is added at the end or taken out. -/
inductive StableStep (n : Nat) : List (Nat × P) → QueueCall P → Option P → List (Nat × P) → Prop
  | enqueue {l : List (Nat × P)} {proc : P} (hroom : l.length < MAX_QUEUE_SIZE) :
      StableStep n l (.enqueue proc) none (l ++ [(n, proc)])
  | full {l : List (Nat × P)} {proc : P} (hfull : l.length = MAX_QUEUE_SIZE) : StableStep n l (.enqueue proc) none l
  | null {priority : P → Nat} : StableStep n [] (.dequeue priority) none []
  | dequeue {l₁ l₂ : List (Nat × P)} {e : Nat × P} {priority : P → Nat}
      (hfirst : ∀ e' ∈ l₁ ++ l₂, Before priority e e') :
      StableStep n (l₁ ++ e :: l₂) (.dequeue priority) (some e.2) (l₁ ++ l₂)

abbrev QueueHistory (P : Type) := List (Entry (QueueArr P) (QueueCall P) (Option P))

/-- The calls of a history, with their results, are calls on a stable queue that is left with the entries `l`. -/
inductive StableRun : QueueHistory P → List (Nat × P) → Prop
  | start : StableRun [] []
  | step {h : QueueHistory P} {e : Entry (QueueArr P) (QueueCall P) (Option P)} {l l' : List (Nat × P)}
      (hrun : StableRun h l) (hstep : StableStep h.length l e.act e.res l') : StableRun (e :: h) l'

variable {n : Nat} {h : QueueHistory P} {l l' : List (Nat × P)} {call : QueueCall P} {r : Option P}

def entryQueue (l : List (Nat × P)) (hle : l.length ≤ MAX_QUEUE_SIZE) : QueueT P :=
  ⟨l.map Prod.snd, by rwa [List.length_map]⟩

theorem entryQueue_enqueue (hroom : l.length < MAX_QUEUE_SIZE) (e : Nat × P) :
    ∃ hle, Sched.enqueue (entryQueue l hroom.le) e.2 = entryQueue (l ++ [e]) hle := by
  have hle : (l ++ [e]).length ≤ MAX_QUEUE_SIZE := by
    rw [List.length_append, List.length_singleton]
    exact hroom
  have hroom' : (entryQueue l hroom.le).proc.length < MAX_QUEUE_SIZE := by rwa [entryQueue, List.length_map]
  refine ⟨hle, QueueT.ext ((enqueue_of_lt hroom' e.2).trans ?_)⟩
  show l.map Prod.snd ++ [e].map Prod.snd = (l ++ [e]).map Prod.snd
  rw [List.map_append]

/-- The slots below `size` hold the processes of the entries, which are in the order of their calls. -/
structure QueueArr.Entries (q : QueueArr P) (n : Nat) (l : List (Nat × P)) : Prop where
  le : l.length ≤ MAX_QUEUE_SIZE
  models : q.Models (entryQueue l le)
  stamps : l.Pairwise fun e e' => e.1 < e'.1
  before : ∀ e ∈ l, e.1 < n

theorem QueueArr.Entries.size (h : q.Entries n l) : q.size = l.length := by
  rw [h.models.size, entryQueue, List.length_map]

theorem QueueArr.Entries.enqueue (h : q.Entries n l) (hx : q.enqueue proc = .ok q') :
    ∃ l', StableStep n l (.enqueue proc) none l' ∧ q'.Entries (n + 1) l' := by
  obtain ⟨q₁, hq₁, hmodels⟩ := QueueArr.enqueue_models h.models proc
  cases hq₁.symm.trans hx
  rcases Nat.lt_or_ge l.length MAX_QUEUE_SIZE with hroom | hfull
  · obtain ⟨hle, hmap⟩ := entryQueue_enqueue hroom (n, proc)
    refine ⟨l ++ [(n, proc)], .enqueue hroom, hle, hmap ▸ hmodels, ?_, ?_⟩
    · rw [List.pairwise_append]
      refine ⟨h.stamps, List.pairwise_singleton .., fun e he e' he' => ?_⟩
      rw [List.mem_singleton.mp he']
      exact h.before e he
    · intro e he
      rcases List.mem_append.mp he with he | he
      · exact Nat.lt_succ_of_lt (h.before e he)
      · rw [List.mem_singleton.mp he]
        exact Nat.lt_succ_self n
  · rw [enqueue_of_full (by rwa [entryQueue, List.length_map])] at hmodels
    exact ⟨l, .full (Nat.le_antisymm h.le hfull), h.le, hmodels, h.stamps,
      fun e he => Nat.lt_succ_of_lt (h.before e he)⟩

theorem QueueArr.Entries.dequeue (h : q.Entries n l) (hx : q.dequeue priority = .ok (r, q')) :
    ∃ l', StableStep n l (.dequeue priority) r l' ∧ q'.Entries (n + 1) l' := by
  rcases List.eq_nil_or_concat' l with rfl | hne
  · have hnil : q.dequeue priority = .ok (none, q) := QueueArr.dequeue_nil h.models rfl
    cases hnil.symm.trans hx
    exact ⟨[], .null, h.le, h.models, .nil, fun e he => by cases he⟩
  · have hne' : (entryQueue l h.le).proc ≠ [] := by
      obtain ⟨l', e, rfl⟩ := hne
      simp [entryQueue]
    obtain ⟨proc, q₁, qt', k₁, k₂, hq₁, hmodels, hdeq⟩ : ∃ proc q₁ qt' k₁ k₂, q.dequeue priority = .ok (some proc, q₁) ∧
        q₁.Models qt' ∧ Dequeued priority (entryQueue l h.le) proc qt' k₁ k₂ := QueueArr.dequeue_models h.models hne'
    cases hq₁.symm.trans hx
    obtain ⟨l₁, l₂', rfl, rfl, hl₂⟩ := List.map_eq_append_iff.mp hdeq.before
    obtain ⟨e, l₂, rfl, rfl, rfl⟩ := List.map_eq_cons_iff.mp hl₂
    have hle := h.le
    have hstamps := h.stamps
    rw [List.length_append, List.length_cons] at hle
    rw [List.pairwise_append, List.pairwise_cons] at hstamps
    have hroom : (l₁ ++ l₂).length ≤ MAX_QUEUE_SIZE := by rw [List.length_append]; omega
    have hqt' : qt' = entryQueue (l₁ ++ l₂) hroom :=
      QueueT.ext (hdeq.after.trans List.map_append.symm)
    refine ⟨l₁ ++ l₂, .dequeue fun e' he' => ?_, hroom, hqt' ▸ hmodels, ?_, fun e' he' => ?_⟩
    · rcases List.mem_append.mp he' with he' | he'
      · exact .inl (hdeq.left e'.2 (List.mem_map_of_mem he'))
      · rcases Nat.lt_or_eq_of_le (hdeq.right e'.2 (List.mem_map_of_mem he')) with hlt | heq
        · exact .inl hlt
        · exact .inr ⟨heq, hstamps.2.1.1 e' he'⟩
    · rw [List.pairwise_append]
      exact ⟨hstamps.1, hstamps.2.1.2, fun x hx y hy => hstamps.2.2 x hx y (List.mem_cons_of_mem _ hy)⟩
    · refine Nat.lt_succ_of_lt (h.before e' ?_)
      rcases List.mem_append.mp he' with he' | he'
      · exact List.mem_append_left _ he'
      · exact List.mem_append_right _ (List.mem_cons_of_mem _ he')

theorem QueueArr.Entries.step (h : q.Entries n l) (hx : queueCall q call = .ok (r, q')) :
    ∃ l', StableStep n l call r l' ∧ q'.Entries (n + 1) l' := by
  cases call with
  | enqueue proc =>
    obtain ⟨q₁, hq₁, -⟩ := QueueArr.enqueue_models h.models proc
    have hcall : queueCall q (.enqueue proc) = .ok (none, q₁) := by rw [queueCall, hq₁]; rfl
    cases hcall.symm.trans hx
    exact h.enqueue hq₁
  | dequeue priority => exact h.dequeue hx

/-- The ready queue is a stable bounded priority queue. The calls `h` were calls on such a queue, and the array holds
its entries; the next call succeeds, is null exactly for an empty queue, and leaves a full one as it is. -/
structure ReadyQueue (h : QueueHistory P) (q : QueueArr P) : Prop where
  entries : ∃ l, StableRun h l ∧ q.size = l.length ∧ l.length ≤ MAX_QUEUE_SIZE ∧
    ∀ i, ∀ hi : i < l.length, q.proc i = l[i].2
  enqueue : ∀ proc, ∃ q', queueCall q (.enqueue proc) = .ok (none, q') ∧ (q.size = MAX_QUEUE_SIZE → q' = q)
  dequeue : ∀ priority, ∃ o q', queueCall q (.dequeue priority) = .ok (o, q') ∧ (o = none ↔ q.size = 0)

theorem QueueArr.Entries.readyQueue (h' : q.Entries n l) (hstable : StableRun h l) : ReadyQueue h q where
  entries := by
    refine ⟨l, hstable, h'.size, h'.le, fun i hi => ?_⟩
    rw [h'.models.slot i (by rwa [entryQueue, List.length_map])]
    exact List.getElem_map ..
  enqueue := by
    intro proc
    obtain ⟨q', hq', -⟩ := QueueArr.enqueue_models h'.models proc
    refine ⟨q', by rw [queueCall, hq']; rfl, fun hfull => ?_⟩
    cases hq'.symm.trans (QueueArr.enqueue_full (Int.le_of_eq hfull.symm) proc)
    rfl
  dequeue := by
    intro priority
    have hsize := h'.size
    cases l with
    | nil => exact ⟨none, q, QueueArr.dequeue_nil h'.models rfl, fun _ => hsize, fun _ => rfl⟩
    | cons e l =>
      obtain ⟨proc, q', -, -, -, hq', -, -⟩ :=
        QueueArr.dequeue_models h'.models (List.map_eq_nil_iff.not.mpr (List.cons_ne_nil e l))
      rw [List.length_cons] at hsize
      exact ⟨some proc, q', hq', ⟨fun hnone => (Option.some_ne_none _ hnone).elim, fun hzero => by omega⟩⟩

/-- The ready queue is a stable bounded priority queue, from a queue of size 0 on, for any calls and any priorities. -/
theorem ready_queue_stable {proc : Nat → P} (hrun : Run queueCall ⟨proc, 0⟩ h q) : ReadyQueue h q := by
  obtain ⟨l, hstable, hentries⟩ : ∃ l, StableRun h l ∧ q.Entries h.length l := by
    refine hrun.invariant (I := fun h q => ∃ l, StableRun h l ∧ q.Entries h.length l) ?_ ?_
    · exact ⟨[], .start, Nat.zero_le _, ⟨rfl, fun i hi => absurd hi (Nat.not_lt_zero i)⟩, .nil, fun e he => by cases he⟩
    · rintro h q call r q' - ⟨l, hstable, hentries⟩ hx
      obtain ⟨l', hstep, hentries'⟩ := hentries.step hx
      exact ⟨l', .step hstable hstep, hentries'⟩
  exact hentries.readyQueue hstable

theorem ready_queue_stable_three : ∃ h q, Run queueCall (⟨fun _ => 7, 0⟩ : QueueArr Nat) h q ∧
    h.map Entry.act = [.dequeue (· % 2), .enqueue 2, .enqueue 4, .enqueue 3] ∧ ReadyQueue h q := by
  obtain ⟨h, q, hrun, hact, -⟩ := exists_run_of_replay queueCall (⟨fun _ => 7, 0⟩ : QueueArr Nat)
    [.dequeue (· % 2), .enqueue 2, .enqueue 4, .enqueue 3] (fun _ _ => true) (by decide +kernel)
  exact ⟨h, q, hrun, hact, ready_queue_stable hrun⟩

end SimpleOs.Sched
