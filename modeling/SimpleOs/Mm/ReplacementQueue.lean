import SimpleOs.Mm.System

/-!
# The replacement queue

* `QueueAgrees` : `fifo_pgn` holds each page in RAM once and no other page;
* `mapPages_count`, `mapPages_inRam` : growth enlists its pages, resident or not;
* `QueueAgrees.tableCase_iff` : a call keeps the agreement unless growth maps a page that is in RAM;
* `replacementQueue_iff` : the agreement over whole runs.
-/

namespace SimpleOs.Mm
open CInt

/-- The queue holds every page in RAM exactly once, and no other page. -/
def QueueAgrees (pgd : Nat → Word) (fifoPgn : List Nat) : Prop :=
  ∀ p, fifoPgn.count p = if InRam (pgd p) then 1 else 0

theorem mapPages_count (pgn : Nat) (frames : List Nat) (mm : MmStruct) (p : Nat) :
    (mapPages pgn frames mm).fifoPgn.count p =
      mm.fifoPgn.count p + if pgn ≤ p ∧ p < pgn + frames.length then 1 else 0 := by
  have hrange : (List.range' pgn frames.length).count p = if p ∈ List.range' pgn frames.length then 1 else 0 :=
    (List.nodup_range' ..).count
  rw [mapPages_fifoPgn, List.count_append, List.count_reverse, hrange, Nat.add_comm]
  simp only [List.mem_range'_1]

theorem mapPages_inRam {pgn : Nat} {frames : List Nat} {mm : MmStruct} {p : Nat} (hlo : pgn ≤ p)
    (hhi : p < pgn + frames.length) : InRam ((mapPages pgn frames mm).pgd p) := by
  obtain ⟨i, rfl⟩ := Nat.exists_eq_add_of_le hlo
  rw [mapPages_pgd_of_mem (by omega)]
  exact inRam_setFpn ..

theorem mapPages_queueAgrees_iff (pgn : Nat) (frames : List Nat) {mm : MmStruct}
    (h : QueueAgrees mm.pgd mm.fifoPgn) :
    QueueAgrees (mapPages pgn frames mm).pgd (mapPages pgn frames mm).fifoPgn ↔
      ∀ i < frames.length, ¬ InRam (mm.pgd (pgn + i)) := by
  constructor
  · intro h' i hi hram
    have hcount := h' (pgn + i)
    rw [mapPages_count, h (pgn + i), if_pos hram, if_pos (by omega)] at hcount
    split at hcount <;> omega
  · intro hclear p
    rw [mapPages_count, h p]
    by_cases hp : pgn ≤ p ∧ p < pgn + frames.length
    · have hnot : ¬ InRam (mm.pgd p) := by
        have := hclear (p - pgn) (by omega)
        rwa [Nat.add_sub_cancel' hp.1] at this
      rw [if_neg hnot, if_pos hp, if_pos (mapPages_inRam hp.1 hp.2)]
    · rw [if_neg hp, Nat.add_zero, mapPages_pgd_of_notMem (by omega)]

variable {c c' : Caller} {a : VmAreaStruct} {call : MemCall} {t : Tables}

theorem QueueAgrees.victim {pgd : Nat → Word} {l : List Nat} {v : Nat} (h : QueueAgrees pgd (l ++ [v])) :
    InRam (pgd v) ∧ l.count v = 0 := by
  have hv := h v
  rw [List.count_append, List.count_singleton_self] at hv
  split at hv
  · next hram => exact ⟨hram, by omega⟩
  · omega

theorem queueAgrees_swapIn {pgn : Nat} {l : List Nat} {v : Nat} (s : Nat) (rest : List Nat)
    (hp : pagingPagePresent (c.mm.pgd pgn) = false) (hq : c.mm.fifoPgn = l ++ [v])
    (h : QueueAgrees c.mm.pgd c.mm.fifoPgn) :
    QueueAgrees (c.swapIn pgn l v s rest).mm.pgd (c.swapIn pgn l v s rest).mm.fifoPgn := by
  rw [hq] at h
  obtain ⟨hram, hcv⟩ := h.victim
  have hne : pgn ≠ v := by
    rintro rfl
    rw [hram.1] at hp
    cases hp
  have hpgn : ¬ InRam (c.mm.pgd pgn) := fun hram => by rw [hram.1] at hp; cases hp
  intro p
  have hcount := h p
  rw [List.count_append, List.count_singleton] at hcount
  rw [Caller.swapIn_fifoPgn, List.count_cons]
  by_cases hpp : p = pgn
  · subst hpp
    rw [if_neg hpgn] at hcount
    rw [c.swapIn_pgd_self hne, if_pos (inRam_setFpn ..), beq_self_eq_true, if_pos rfl]
    omega
  · rw [if_neg (by simpa using Ne.symm hpp), Nat.add_zero]
    by_cases hpv : p = v
    · subst hpv
      rw [c.swapIn_pgd_victim hne, if_neg (not_inRam_of_swapped (swapped_setSwap ..)), hcv]
    · rw [c.swapIn_pgd_of_ne hpp hpv, ← hcount, if_neg (by simpa using Ne.symm hpv), Nat.add_zero]

theorem MemSys.growthOnto_of_not_allocates {s : MemSys} {pid : Nat} {P : Word → Prop} (h : ¬ call.Allocates) :
    s.GrowthOnto pid P call := by
  cases call with
  | alloc => exact fun _ _ hv => absurd hv h
  | free => trivial
  | read => trivial
  | write => trivial

theorem QueueAgrees.tableCase_iff {s : MemSys} {pid : Nat} (ha : (s.mm pid).Single a)
    (h : TableCase (s.caller pid) a call t) (hq : QueueAgrees (s.mm pid).pgd (s.mm pid).fifoPgn) :
    QueueAgrees t.pgd t.fifoPgn ↔ s.GrowthOnto pid (¬ InRam ·) call := by
  cases h with
  | same hcall => exact ⟨fun _ => MemSys.growthOnto_of_not_allocates hcall, fun _ => hq⟩
  | @grow size regIndex hcall hv =>
    subst hcall
    simp only [MemSys.GrowthOnto, ha.mmap, List.mem_singleton, forall_eq, hv, forall_true_left]
    by_cases hn : freshPages a (toInt size) ≤ (s.dev .mram).freeFpList.length
    · have hlen : ((s.dev .mram).freeFpList.take (freshPages a (toInt size))).reverse.length =
          freshPages a (toInt size) := by
        rw [List.length_reverse, List.length_take]; omega
      have hmap := mapPages_queueAgrees_iff (freshStart a)
        ((s.dev .mram).freeFpList.take (freshPages a (toInt size))).reverse hq
      rw [hlen] at hmap
      rw [Caller.tables, Caller.mapRam_of_le hn]
      simp only [hn, forall_true_left]
      exact hmap
    · rw [Caller.tables, Caller.mapRam_of_gt (Nat.lt_of_not_le hn)]
      exact ⟨fun _ h => absurd h hn, fun _ => hq⟩
  | @fault pgn l v slot rest hpage hp hqueue =>
    exact ⟨fun _ => MemSys.growthOnto_of_not_allocates (MemCall.not_allocates_of_page hpage),
      fun _ => queueAgrees_swapIn slot rest hp hqueue hq⟩

/-! ## Runs -/

/-- The queue of process `pid` agrees with its page table. -/
def MemSys.QueueAgrees (s : MemSys) (pid : Nat) : Prop := Mm.QueueAgrees (s.mm pid).pgd (s.mm pid).fifoPgn

variable {ram swp pid : Nat} {s s' : MemSys} {h : History} {act : Nat × MemCall} {r : MemResult}

theorem queueAgrees_boot : (MemSys.boot ram swp).QueueAgrees pid := by
  intro p
  rw [if_neg]
  · rfl
  · exact fun hram => absurd (show pagingPagePresent 0 = true from hram.1) (by decide)

theorem MemSys.GrowthOnto.mono {P Q : Word → Prop} (h : s.GrowthOnto pid P call) (hPQ : ∀ pte, P pte → Q pte) :
    s.GrowthOnto pid Q call := by
  cases call with
  | alloc => exact fun a ha hv hn i hi => hPQ _ (h a ha hv hn i hi)
  | free => trivial
  | read => trivial
  | write => trivial

theorem MemSys.QueueAgrees.victimInRam (h : s.QueueAgrees pid) : s.VictimInRam pid call := by
  intro _ v hv
  obtain ⟨l, hl⟩ := List.getLast?_eq_some_iff.mp hv
  rw [MemSys.QueueAgrees, hl] at h
  exact h.victim.1

theorem queueAgrees_step (hs : s.Ok ram swp) (hx : sysCall s act = .ok (r, s')) (hq : s.QueueAgrees pid) :
    s'.QueueAgrees pid ↔ (act.1 = pid → s.GrowthOnto pid (¬ InRam ·) act.2) := by
  obtain ⟨a, c', ha, hc, rfl⟩ := sysCall_cases hs hx
  by_cases hpid : act.1 = pid
  · subst hpid
    rw [MemSys.QueueAgrees, MemSys.after_mm_self, forall_prop_of_true rfl]
    exact QueueAgrees.tableCase_iff ha hc.tableCase hq
  · rw [MemSys.QueueAgrees, MemSys.after_mm_of_ne _ (Ne.symm hpid)]
    exact ⟨fun _ h => absurd h hpid, fun _ => hq⟩

/-- The replacement queue agrees with the page table in every state of a run exactly if no growth
of the run maps a page that is in RAM already. -/
theorem replacementQueue_iff (hram : ram < 2 ^ 31) (hswp : swp < 2 ^ 31)
    (hrun : Run sysCall (MemSys.boot ram swp) h s) :
    ((∀ e ∈ h, e.before.QueueAgrees pid) ∧ s.QueueAgrees pid) ↔
      ∀ e ∈ h, e.act.1 = pid → e.before.GrowthOnto pid (¬ InRam ·) e.act.2 := by
  refine hrun.invariant (I := fun h s => ((∀ e ∈ h, e.before.QueueAgrees pid) ∧ s.QueueAgrees pid) ↔
    ∀ e ∈ h, e.act.1 = pid → e.before.GrowthOnto pid (¬ InRam ·) e.act.2) ?_ ?_
  · exact ⟨fun _ e he => absurd he List.not_mem_nil,
      fun _ => ⟨fun e he => absurd he List.not_mem_nil, queueAgrees_boot⟩⟩
  · intro h s act r s' hrun ih hx
    have hs := run_ok hram hswp hrun
    rw [List.forall_mem_cons, List.forall_mem_cons, ← ih]
    constructor
    · rintro ⟨⟨hq, hall⟩, hq'⟩
      exact ⟨(queueAgrees_step hs hx hq).mp hq', hall, hq⟩
    · rintro ⟨hc, hall, hq⟩
      exact ⟨⟨hq, hall⟩, (queueAgrees_step hs hx hq).mpr hc⟩

theorem replacementQueue_iff_fault : ∃ h s, Run sysCall (MemSys.boot 2048 4096) h s ∧
    h.map Entry.act = [(0, .read 1 0), (0, .alloc 256 1), (0, .alloc 256 0)] ∧
    (((∀ e ∈ h, e.before.QueueAgrees 0) ∧ s.QueueAgrees 0) ↔
      ∀ e ∈ h, e.act.1 = 0 → e.before.GrowthOnto 0 (¬ InRam ·) e.act.2) := by
  obtain ⟨h, s, hrun, hact, -⟩ := exists_run_of_replay sysCall (MemSys.boot 2048 4096)
    [(0, .read 1 0), (0, .alloc 256 1), (0, .alloc 256 0)] (fun _ _ => true) (by decide +kernel)
  exact ⟨h, s, hrun, hact, replacementQueue_iff (by decide) (by decide) hrun⟩

/-- Page 2 is faulted in by the access to region 1 and mapped again by the growth for region 2. -/
theorem replacementQueue_enlisted_twice : ¬ ∀ ram swp pid : Nat, ram < 2 ^ 31 → swp < 2 ^ 31 → ∀ h s,
    Run sysCall (MemSys.boot ram swp) h s → (∀ e ∈ h, (e.before.mm e.act.1).AccessOk e.act.2) →
    s.QueueAgrees pid := by
  intro hall
  obtain ⟨h, s, hrun, -, hp⟩ := exists_run_of_replay sysCall (MemSys.boot 2048 4096)
    [(0, .alloc 256 2), (0, .read 1 0), (0, .alloc 256 1), (0, .alloc 256 0)]
    (fun h s => decide ((∀ e ∈ h, (e.before.mm e.act.1).AccessOk e.act.2) ∧ (s.mm 0).fifoPgn.count 2 = 2))
    (by decide +kernel)
  obtain ⟨haccess, htwice⟩ := of_decide_eq_true hp
  have hcount := hall 2048 4096 0 (by decide) (by decide) h s hrun haccess 2
  rw [htwice] at hcount
  split at hcount <;> cases hcount

end SimpleOs.Mm
