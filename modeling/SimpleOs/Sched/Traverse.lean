import Mathlib.Data.List.Count
import Mathlib.Data.List.Perm.Basic
import SimpleOs.Sched.Queue

/-!
# Rounds through a queue

A round takes the process of least `priority` out of a queue, and puts it back at the end unless it is a `hit`.

* `traverseQueue` : a number of rounds, with the hits taken out;
* `Reachable` : no process that is put back has smaller priority;
* `traverseQueue_perm`, `traverseQueue_out`, `traverseQueue_left` : as many rounds as there are processes take out the
  hits that are reachable, all of them and no others, and lose nothing; `traverseQueue_reached`, `traverseQueue_kept`
  count them.
-/

namespace SimpleOs.Sched

variable {P : Type}

/-- The hits of `n` rounds, and the queue after them. -/
def traverseQueue (priority : P → Nat) (hit : P → Bool) : Nat → QueueT P → List P × QueueT P
  | 0, q => ([], q)
  | n + 1, q =>
    match dequeue priority q with
    | (none, q) => traverseQueue priority hit n q
    | (some target, q) =>
      if hit target then
        let (l, q) := traverseQueue priority hit n q
        (target :: l, q)
      else traverseQueue priority hit n (enqueue q target)

variable {priority : P → Nat} {hit : P → Bool} {q q₁ : QueueT P} {x y : P} {l₁ l₂ : List P} {n : Nat}

/-- No process that is put back goes before `x`. -/
def Reachable (priority : P → Nat) (hit : P → Bool) (q : QueueT P) (x : P) : Prop :=
  ∀ y ∈ q.proc, hit y = false → priority x ≤ priority y

theorem Dequeued.reachable (hq : Dequeued priority q x q₁ l₁ l₂) : Reachable priority hit q x := by
  intro y hy _
  rw [hq.before] at hy
  rcases List.mem_append.mp hy with hy | hy
  · exact Nat.le_of_lt (hq.left y hy)
  · rcases List.mem_cons.mp hy with rfl | hy
    · exact Nat.le_refl _
    · exact hq.right y hy

theorem Dequeued.putBack (hq : Dequeued priority q x q₁ l₁ l₂) : (enqueue q₁ x).proc = l₁ ++ l₂ ++ [x] := by
  have hroom : q₁.proc.length < MAX_QUEUE_SIZE := by
    have hle := q.size_le
    rw [hq.before] at hle
    rw [hq.after]
    simp only [List.length_append, List.length_cons] at hle ⊢
    omega
  rw [enqueue_of_lt hroom, hq.after]

theorem Dequeued.putBack_perm (hq : Dequeued priority q x q₁ l₁ l₂) : (enqueue q₁ x).proc.Perm q.proc := by
  rw [hq.putBack, hq.before, List.append_assoc]
  exact List.Perm.append_left l₁ (List.perm_append_singleton x l₂)

theorem Dequeued.perm (hq : Dequeued priority q x q₁ l₁ l₂) : (x :: q₁.proc).Perm q.proc := by
  rw [hq.after, hq.before]
  exact List.perm_middle.symm

theorem dequeue_cases (priority : P → Nat) (q : QueueT P) :
    dequeue priority q = (none, q) ∨
      ∃ x q₁ l₁ l₂, dequeue priority q = (some x, q₁) ∧ Dequeued priority q x q₁ l₁ l₂ := by
  by_cases he : q.proc = []
  · exact .inl (dequeue_nil he)
  · exact .inr (dequeue_spec he)

theorem traverseQueue_perm (priority : P → Nat) (hit : P → Bool) (n : Nat) (q : QueueT P) :
    ((traverseQueue priority hit n q).1 ++ (traverseQueue priority hit n q).2.proc).Perm q.proc := by
  induction n generalizing q with
  | zero => exact List.Perm.refl _
  | succ n ih =>
    rw [traverseQueue]
    rcases dequeue_cases priority q with hdeq | ⟨x, q₁, l₁, l₂, hdeq, hq⟩
    · rw [hdeq]
      exact ih q
    · rw [hdeq]
      dsimp only
      split
      · exact ((ih q₁).cons x).trans hq.perm
      · exact (ih _).trans hq.putBack_perm

theorem Reachable.congr (hr : Reachable priority hit q₁ x) (hkept : ∀ y, hit y = false → (y ∈ q.proc → y ∈ q₁.proc)) :
    Reachable priority hit q x := fun y hy hhit => hr y (hkept y hhit hy) hhit

theorem traverseQueue_out (n : Nat) (q : QueueT P) :
    ∀ x ∈ (traverseQueue priority hit n q).1, hit x = true ∧ Reachable priority hit q x := by
  induction n generalizing q with
  | zero => exact fun x hx => by cases hx
  | succ n ih =>
    rw [traverseQueue]
    rcases dequeue_cases priority q with hdeq | ⟨y, q₁, l₁, l₂, hdeq, hq⟩
    · rw [hdeq]
      exact ih q
    · rw [hdeq]
      dsimp only
      split
      · next hhit =>
        intro x hx
        rcases List.mem_cons.mp hx with rfl | hx
        · exact ⟨hhit, hq.reachable⟩
        · obtain ⟨hx, hr⟩ := ih q₁ x hx
          refine ⟨hx, hr.congr fun z hz hin => ?_⟩
          rcases List.mem_cons.mp (hq.perm.mem_iff.mpr hin) with rfl | hin
          · cases hz.symm.trans hhit
          · exact hin
      · intro x hx
        obtain ⟨hx, hr⟩ := ih _ x hx
        exact ⟨hx, hr.congr fun z _ hin => hq.putBack_perm.mem_iff.mpr hin⟩

/-- As many rounds as there are processes leave no reachable hit. In the rounds so far `l'` was put back and
`l` was not looked at. -/
theorem traverseQueue_left {l l' : List P} (hl : q.proc = l ++ l') (hl' : ∀ y ∈ l', hit y = false) (hn : l.length ≤ n) :
    ∀ x ∈ (traverseQueue priority hit n q).2.proc, hit x = true → ¬ Reachable priority hit q x := by
  induction n generalizing q l l' with
  | zero =>
    intro x hx hhit
    rw [List.length_eq_zero_iff.mp (Nat.le_zero.mp hn), List.nil_append] at hl
    rw [traverseQueue, hl] at hx
    cases (hl' x hx).symm.trans hhit
  | succ n ih =>
    intro x hx hhit
    have hin : x ∈ q.proc := (traverseQueue_perm priority hit (n + 1) q).subset (List.mem_append_right _ hx)
    rw [traverseQueue] at hx
    obtain ⟨y, q₁, l₁, l₂, hdeq, hq⟩ :
        ∃ y q₁ l₁ l₂, dequeue priority q = (some y, q₁) ∧ Dequeued priority q y q₁ l₁ l₂ :=
      dequeue_spec (List.ne_nil_of_mem hin)
    rw [hdeq] at hx
    dsimp only at hx
    have hback : y ∈ l' → (∀ z ∈ l, z ∈ l₁) → ¬ Reachable priority hit q x := by
      intro hy hsub hr
      rw [hl] at hin
      rcases List.mem_append.mp hin with hin | hin
      · have hlt := hq.left x (hsub x hin)
        have hle := hr y (by rw [hq.before]; simp) (hl' y hy)
        omega
      · cases (hl' x hin).symm.trans hhit
    rcases List.append_eq_append_iff.mp (hq.before.symm.trans hl) with ⟨m, hm₁, hm₂⟩ | ⟨m, hm₁, hm₂⟩
    · cases m with
      | nil => exact hback (by rw [List.nil_append] at hm₂; rw [← hm₂]; simp) fun z hz => by simpa [hm₁] using hz
      | cons z m =>
        obtain ⟨rfl, rfl⟩ := List.cons.inj hm₂
        have hlen : (l₁ ++ m).length ≤ n := by
          rw [hm₁] at hn
          simp only [List.length_append, List.length_cons] at hn ⊢
          omega
        split at hx
        · next hy =>
          have hq₁ : q₁.proc = (l₁ ++ m) ++ l' := by rw [hq.after, List.append_assoc]; rfl
          intro hr
          refine ih hq₁ hl' hlen x hx hhit (hr.congr fun z _ hz => ?_)
          exact hq.perm.subset (List.mem_cons_of_mem _ hz)
        · next hy =>
          have hq₁ : (enqueue q₁ y).proc = (l₁ ++ m) ++ (l' ++ [y]) := by
            rw [hq.putBack]
            simp only [List.append_assoc, List.append_eq]
          have hback' : ∀ z ∈ l' ++ [y], hit z = false := by
            intro z hz
            rcases List.mem_append.mp hz with hz | hz
            · exact hl' z hz
            · rw [List.mem_singleton.mp hz]
              exact Bool.eq_false_iff.mpr hy
          exact fun hr => ih hq₁ hback' hlen x hx hhit (hr.congr fun z _ hz => hq.putBack_perm.subset hz)
    · exact hback (by rw [hm₂]; simp) fun z hz => by rw [hm₁]; exact List.mem_append_left _ hz

section Count
variable [DecidableEq P]

theorem traverseQueue_reached (hhit : hit x = true) (hr : Reachable priority hit q x) :
    (traverseQueue priority hit q.size q).1.count x = q.proc.count x ∧
      (traverseQueue priority hit q.size q).2.proc.count x = 0 := by
  have hleft : (traverseQueue priority hit q.size q).2.proc.count x = 0 :=
    List.count_eq_zero.mpr fun hx =>
      traverseQueue_left (List.append_nil _).symm (fun y hy => by cases hy) (Nat.le_refl _) x hx hhit hr
  have hperm := (traverseQueue_perm priority hit q.size q).count_eq x
  rw [List.count_append] at hperm
  exact ⟨by omega, hleft⟩

theorem traverseQueue_kept (hkept : ¬ (hit x = true ∧ Reachable priority hit q x)) :
    (traverseQueue priority hit q.size q).1.count x = 0 ∧
      (traverseQueue priority hit q.size q).2.proc.count x = q.proc.count x := by
  have hout : (traverseQueue priority hit q.size q).1.count x = 0 :=
    List.count_eq_zero.mpr fun hx => hkept (traverseQueue_out q.size q x hx)
  have hperm := (traverseQueue_perm priority hit q.size q).count_eq x
  rw [List.count_append] at hperm
  exact ⟨hout, by omega⟩

end Count

end SimpleOs.Sched
