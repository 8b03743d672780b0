import Mathlib.Data.List.Basic
import Mathlib.Order.Nat

/-!
# Bounded queues of processes (`queue.c`)

`P` are the pointers to processes, `priority` reads the field of that name.

* `QueueT` : the first `size` pointers of the array of a queue, at most `MAX_QUEUE_SIZE`;
* `empty`, `enqueue`, `dequeue`, with the loops of `dequeue`;
* `enqueue_of_lt`, `enqueue_of_full` : a full queue stays as it is;
* `Dequeued`, `dequeue_spec` : `dequeue` takes the first process of least `priority`.
-/

namespace SimpleOs.Sched

def MAX_QUEUE_SIZE : Nat := 10

variable {P : Type}

structure QueueT (P : Type) where
  proc : List P
  size_le : proc.length ≤ MAX_QUEUE_SIZE

@[ext] theorem QueueT.ext {q q' : QueueT P} (h : q.proc = q'.proc) : q = q' := by
  cases q
  cases q'
  cases h
  rfl

def QueueT.size (q : QueueT P) : Nat := q.proc.length

def QueueT.nil : QueueT P := ⟨[], Nat.zero_le _⟩

@[simp] theorem QueueT.nil_proc : (QueueT.nil : QueueT P).proc = [] := rfl

def empty (q : QueueT P) : Bool := q.size == 0

def enqueue (q : QueueT P) (proc : P) : QueueT P :=
  if h : q.size ≥ MAX_QUEUE_SIZE then q
  else ⟨q.proc ++ [proc], by rw [List.length_append, List.length_singleton]; exact Nat.lt_of_not_ge h⟩

/-- The first loop of `dequeue`, from index `i` on: `highest` and `highest_index`. -/
def dequeueSearch (priority : P → Nat) : List P → Nat → P → Nat → P × Nat
  | [], _, highest, highestIndex => (highest, highestIndex)
  | proc :: rest, i, highest, highestIndex =>
    if priority proc < priority highest then dequeueSearch priority rest (i + 1) proc i
    else dequeueSearch priority rest (i + 1) highest highestIndex

/-- The second loop of `dequeue` and `size--`: from index `highest_index` on each process moves down by
one. -/
def dequeueShift : List P → Nat → List P
  | [], _ => []
  | [_], _ => []
  | _ :: next :: rest, 0 => next :: dequeueShift (next :: rest) 0
  | proc :: next :: rest, highestIndex + 1 => proc :: dequeueShift (next :: rest) highestIndex

theorem dequeueShift_zero (proc : P) (rest : List P) : dequeueShift (proc :: rest) 0 = rest := by
  induction rest generalizing proc with
  | nil => rfl
  | cons next rest ih => rw [dequeueShift, ih]

theorem dequeueShift_append (l₁ : List P) (proc : P) (l₂ : List P) :
    dequeueShift (l₁ ++ proc :: l₂) l₁.length = l₁ ++ l₂ := by
  induction l₁ with
  | nil => exact dequeueShift_zero proc l₂
  | cons x l₁ ih =>
    cases l₁ with
    | nil => rw [List.cons_append, List.nil_append, List.length_singleton, dequeueShift, dequeueShift_zero]; rfl
    | cons y l₁ =>
      rw [List.cons_append, List.cons_append, List.length_cons, dequeueShift]
      exact congrArg (x :: ·) ih

theorem dequeueShift_length_le (l : List P) (i : Nat) : (dequeueShift l i).length ≤ l.length := by
  induction l generalizing i with
  | nil => exact Nat.le_refl _
  | cons x l ih =>
    cases l with
    | nil => exact Nat.zero_le _
    | cons y l => cases i with
      | zero => exact Nat.succ_le_succ (ih 0)
      | succ i => exact Nat.succ_le_succ (ih i)

def dequeue (priority : P → Nat) (q : QueueT P) : Option P × QueueT P :=
  match q.proc with
  | [] => (none, q)
  | proc :: rest =>
    let (highest, highestIndex) := dequeueSearch priority rest 1 proc 0
    (some highest, ⟨dequeueShift q.proc highestIndex, (dequeueShift_length_le ..).trans q.size_le⟩)

/-! ## What they do -/

variable {priority : P → Nat} {q q' : QueueT P} {proc : P}

theorem empty_iff : empty q = true ↔ q.proc = [] := by
  rw [empty, QueueT.size, beq_iff_eq, List.length_eq_zero_iff]

theorem enqueue_of_lt (h : q.proc.length < MAX_QUEUE_SIZE) (proc : P) : (enqueue q proc).proc = q.proc ++ [proc] := by
  have hsize : ¬ q.size ≥ MAX_QUEUE_SIZE := Nat.not_le_of_lt h
  rw [enqueue, dif_neg hsize]

theorem enqueue_of_full (h : MAX_QUEUE_SIZE ≤ q.proc.length) (proc : P) : enqueue q proc = q := dif_pos h

/-- `proc` is the first process of least priority in `q`, and `q'` is left. -/
structure Dequeued (priority : P → Nat) (q : QueueT P) (proc : P) (q' : QueueT P) (l₁ l₂ : List P) : Prop where
  before : q.proc = l₁ ++ proc :: l₂
  after : q'.proc = l₁ ++ l₂
  left : ∀ y ∈ l₁, priority proc < priority y
  right : ∀ y ∈ l₂, priority proc ≤ priority y

theorem dequeueSearch_spec (l₁ l₂ : List P) {rest : List P} {highest : P} (h₁ : ∀ y ∈ l₁, priority highest < priority y)
    (h₂ : ∀ y ∈ l₂, priority highest ≤ priority y) :
    ∃ k₁ proc k₂, dequeueSearch priority rest (l₁.length + 1 + l₂.length) highest l₁.length = (proc, k₁.length) ∧
      l₁ ++ highest :: (l₂ ++ rest) = k₁ ++ proc :: k₂ ∧ (∀ y ∈ k₁, priority proc < priority y) ∧
      ∀ y ∈ k₂, priority proc ≤ priority y := by
  induction rest generalizing l₁ l₂ highest with
  | nil => exact ⟨l₁, highest, l₂, rfl, by rw [List.append_nil], h₁, h₂⟩
  | cons x rest ih =>
    rw [dequeueSearch]
    by_cases hx : priority x < priority highest
    · rw [if_pos hx]
      have hall : ∀ y ∈ l₁ ++ highest :: l₂, priority x < priority y := by
        intro y hy
        rcases List.mem_append.mp hy with hy | hy
        · exact hx.trans (h₁ y hy)
        · rcases List.mem_cons.mp hy with rfl | hy
          · exact hx
          · exact hx.trans_le (h₂ y hy)
      have hlen : (l₁ ++ highest :: l₂).length = l₁.length + 1 + l₂.length := by
        rw [List.length_append, List.length_cons]; omega
      obtain ⟨k₁, proc, k₂, hs, happ, hk⟩ := ih _ [] hall (fun _ h => nomatch h)
      rw [hlen, List.length_nil, Nat.add_zero] at hs
      refine ⟨k₁, proc, k₂, hs, ?_, hk⟩
      rw [← happ]
      simp
    · rw [if_neg hx]
      have hall : ∀ y ∈ l₂ ++ [x], priority highest ≤ priority y := by
        intro y hy
        rcases List.mem_append.mp hy with hy | hy
        · exact h₂ y hy
        · rw [List.mem_singleton.mp hy]
          exact Nat.le_of_not_lt hx
      obtain ⟨k₁, proc, k₂, hs, happ, hk⟩ := ih _ _ h₁ hall
      rw [List.length_append, List.length_singleton, ← Nat.add_assoc] at hs
      refine ⟨k₁, proc, k₂, hs, ?_, hk⟩
      rw [← happ]
      simp

theorem dequeue_nil (h : q.proc = []) : dequeue priority q = (none, q) := by
  rw [dequeue]
  split
  · rfl
  · next hq => rw [h] at hq; cases hq

/-- `dequeue` on a queue that is not empty. -/
theorem dequeue_spec (h : q.proc ≠ []) :
    ∃ proc q' l₁ l₂, dequeue priority q = (some proc, q') ∧ Dequeued priority q proc q' l₁ l₂ := by
  rw [dequeue]
  split
  · next hq => exact absurd hq h
  · next x rest hq =>
    obtain ⟨k₁, proc, k₂, hs, happ, hleft, hright⟩ : ∃ k₁ proc k₂,
        dequeueSearch priority rest (0 + 1 + 0) x 0 = (proc, k₁.length) ∧ x :: rest = k₁ ++ proc :: k₂ ∧
        (∀ y ∈ k₁, priority proc < priority y) ∧ ∀ y ∈ k₂, priority proc ≤ priority y :=
      dequeueSearch_spec [] [] (fun _ h => nomatch h) (fun _ h => nomatch h)
    have hs' : dequeueSearch priority rest 1 x 0 = (proc, k₁.length) := hs
    rw [hs']
    refine ⟨proc, _, k₁, k₂, rfl, hq.trans happ, ?_, hleft, hright⟩
    have hproc : q.proc = k₁ ++ proc :: k₂ := hq.trans happ
    show dequeueShift q.proc k₁.length = _
    rw [hproc]
    exact dequeueShift_append k₁ proc k₂

end SimpleOs.Sched
