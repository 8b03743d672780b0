import Mathlib.Data.List.Nodup
import SimpleOs.Syscall.Killall

/-!
# Which processes `killall` terminates

* `Named`, `Listed`, `SameQueues` : the processes to terminate, and where processes are; `Kills` : the call
  terminates those named and counts them, and leaves the others alone;
* `ReachedIn`, `ReachedOnce`, `KillsWhen` : the processes that the traversals come to;
* `sysKillall_ok`, `sysKillall_returns` : what a call does, and when it returns;
* `killall_iff` : the call is right exactly when its traversals come once to every process to terminate;
* `killall_misses` : a process that they do not come to.
-/

namespace SimpleOs.Syscall
open SimpleOs.Mm SimpleOs.Sched CInt

variable {P : Type}

/-- A process other than the caller, with a pid other than 0, of the path that the name stands for. -/
def Named (T : PcbTable P) (caller : P) (name : List BYTE) (proc : P) : Prop :=
  T.pid proc ≠ 0 ∧ proc ≠ caller ∧ T.path proc = procDir ++ cString name

/-- The process is in `running_list` or in a ready level. -/
def Listed (s : SchedT P) (proc : P) : Prop := proc ∈ s.runningList.proc ∨ ∃ l < MAX_PRIO, proc ∈ s.level l

/-- The traversal of `q` comes to the process: none that stays in `q` has smaller priority. -/
def ReachedIn (T : PcbTable P) (caller : P) (name : List BYTE) (q : QueueT P) (proc : P) : Prop :=
  proc ∈ q.proc ∧ ∀ y ∈ q.proc, ¬ Named T caller name y → T.priority proc ≤ T.priority y

section Kills
variable [DecidableEq P]

/-- The process is in every queue as often as before. -/
def SameQueues (s s' : SchedT P) (proc : P) : Prop :=
  s'.runningList.proc.count proc = s.runningList.proc.count proc ∧
    ∀ l < MAX_PRIO, (s'.level l).count proc = (s.level l).count proc

/-- The specification: the call returns; every process named that was in a queue is at the end of its code or
in no queue; every other process is where it was, with its `pc`; and the result is the number of processes named
that were taken out of a queue. -/
def Kills (T : PcbTable P) (s : KillSys P) (caller : P) (memrg : Nat) (name : List BYTE) : Prop :=
  ∃ killedCount s', sysKillall T s caller memrg = .ok (killedCount, s') ∧
    (∀ proc, Named T caller name proc → Listed s.sched proc →
      s'.pc proc = T.codeSize proc ∨ ¬ Listed s'.sched proc) ∧
    (∀ proc, ¬ Named T caller name proc → SameQueues s.sched s'.sched proc ∧ s'.pc proc = s.pc proc) ∧
    ∃ l : List P, l.Nodup ∧ (∀ proc, proc ∈ l ↔ Named T caller name proc ∧ ¬ SameQueues s.sched s'.sched proc) ∧
      killedCount = l.length

/-- The traversals of `running_list` and of level 0 come to at most one entry of the process, and its `pc` is at
the end of its code, or they come to it in `running_list`, or in level 0 and it is in no other queue. -/
structure ReachedOnce (T : PcbTable P) (s : KillSys P) (caller : P) (name : List BYTE) (proc : P) : Prop where
  running : ReachedIn T caller name s.sched.runningList proc → s.sched.runningList.proc.count proc ≤ 1
  ready : ReachedIn T caller name (s.sched.mlqReadyQueue 0) proc → (s.sched.level 0).count proc ≤ 1
  once : ¬ (ReachedIn T caller name s.sched.runningList proc ∧ ReachedIn T caller name (s.sched.mlqReadyQueue 0) proc)
  ends : s.pc proc = T.codeSize proc ∨ ReachedIn T caller name s.sched.runningList proc ∨
    ReachedIn T caller name (s.sched.mlqReadyQueue 0) proc ∧ proc ∉ s.sched.runningList.proc ∧
      ∀ l, 0 < l → l < MAX_PRIO → proc ∉ s.sched.level l

/-- The name fits its arrays, no process in `running_list` and level 0 was freed, and the traversals come once to
every process to terminate. -/
structure KillsWhen (T : PcbTable P) (s : KillSys P) (caller : P) (name : List BYTE) : Prop where
  terminated : name.length < NAME_SIZE
  fits : procDir.length + (cString name).length < NAME_SIZE
  running : ∀ proc ∈ s.sched.runningList.proc, s.freed proc = false
  ready : ∀ proc ∈ s.sched.level 0, s.freed proc = false
  reached : ∀ proc, Named T caller name proc → Listed s.sched proc → ReachedOnce T s caller name proc

variable {T : PcbTable P} {s s' : KillSys P} {caller proc : P} {name : List BYTE} {memrg killedCount : Nat}
  {q : QueueT P} {c : Caller}

/-! ## The rounds of a traversal -/

def rounds (T : PcbTable P) (caller : P) (name : List BYTE) (q : QueueT P) : List P × QueueT P :=
  traverseQueue T.priority (isTarget T caller (procDir ++ cString name)) q.size q

theorem isTarget_iff : isTarget T caller (procDir ++ cString name) proc = true ↔ Named T caller name proc := by
  simp [isTarget, spared, Named, and_assoc]

theorem reachable_iff (hin : proc ∈ q.proc) :
    Reachable T.priority (isTarget T caller (procDir ++ cString name)) q proc ↔ ReachedIn T caller name q proc := by
  have hnot (y : P) : isTarget T caller (procDir ++ cString name) y = false ↔ ¬ Named T caller name y := by
    rw [← isTarget_iff, Bool.not_eq_true]
  simp only [Reachable, ReachedIn, hnot, hin, true_and]

theorem rounds_reached (hn : Named T caller name proc) (hr : ReachedIn T caller name q proc) :
    (rounds T caller name q).1.count proc = q.proc.count proc ∧ (rounds T caller name q).2.proc.count proc = 0 :=
  traverseQueue_reached (isTarget_iff.mpr hn) ((reachable_iff hr.1).mpr hr)

theorem rounds_kept (hnot : ¬ (Named T caller name proc ∧ ReachedIn T caller name q proc)) :
    (rounds T caller name q).1.count proc = 0 ∧ (rounds T caller name q).2.proc.count proc = q.proc.count proc := by
  by_cases hin : proc ∈ q.proc
  · exact traverseQueue_kept fun hc => hnot ⟨isTarget_iff.mp hc.1, (reachable_iff hin).mp hc.2⟩
  · have hperm := (traverseQueue_perm T.priority (isTarget T caller (procDir ++ cString name)) q.size q).count_eq proc
    rw [List.count_append, List.count_eq_zero.mpr hin] at hperm
    rw [List.count_eq_zero.mpr hin]
    exact ⟨Nat.eq_zero_of_add_eq_zero_right hperm, Nat.eq_zero_of_add_eq_zero_left hperm⟩

theorem mem_rounds : proc ∈ (rounds T caller name q).1 ↔ Named T caller name proc ∧ ReachedIn T caller name q proc := by
  constructor
  · intro hin
    by_contra hnot
    exact absurd (rounds_kept hnot).1 (List.count_pos_iff.mpr hin).ne'
  · rintro ⟨hn, hr⟩
    rw [← List.count_pos_iff, (rounds_reached hn hr).1]
    exact List.count_pos_iff.mpr hr.1

/-! ## The call -/

/-- The processes a call takes out of `running_list`, and out of level 0. -/
def taken (T : PcbTable P) (s : SchedT P) (caller : P) (name : List BYTE) : List P :=
  (rounds T caller name s.runningList).1 ++ (rounds T caller name (s.mlqReadyQueue 0)).1

def afterKill (T : PcbTable P) (s : SchedT P) (caller : P) (name : List BYTE) : SchedT P :=
  { s with
    runningList := (rounds T caller name s.runningList).2
    mlqReadyQueue := Function.update s.mlqReadyQueue 0 (rounds T caller name (s.mlqReadyQueue 0)).2 }

structure KillOutcome (T : PcbTable P) (s : KillSys P) (caller : P) (name : List BYTE) (killedCount : Nat)
    (s' : KillSys P) : Prop where
  count : killedCount = (taken T s.sched caller name).length
  sched : s'.sched = afterKill T s.sched caller name
  pc : ∀ proc, s'.pc proc =
    if proc ∈ (rounds T caller name s.sched.runningList).1 then T.codeSize proc else s.pc proc

/-- A call that returns read a name that fits and no freed process, and took out what its rounds come to. -/
theorem sysKillall_ok (hn : NameStored memrg 0 name (s.caller caller) c)
    (h : sysKillall T s caller memrg = .ok (killedCount, s')) :
    name.length < NAME_SIZE ∧ procDir.length + (cString name).length < NAME_SIZE ∧
    (∀ proc ∈ s.sched.runningList.proc, s.freed proc = false) ∧ (∀ proc ∈ s.sched.level 0, s.freed proc = false) ∧
    KillOutcome T s caller name killedCount s' := by
  rw [sysKillall, nameLoop_stored hn] at h
  by_cases hlen : name.length < NAME_SIZE
  · by_cases hfits : procDir.length + (cString name).length < NAME_SIZE
    · rw [if_pos hlen, Exec.ok_bind] at h
      dsimp only at h
      rw [fullName, if_pos hfits, Exec.ok_bind] at h
      obtain ⟨⟨q₁, s₁, k₁⟩, hloop₁, h₁⟩ := Exec.bind_ok.mp h
      obtain ⟨⟨q₂, s₂, k₂⟩, hloop₂, h₂⟩ := Exec.bind_ok.mp h₁
      obtain ⟨⟨ret, c₂⟩, hfree, hret⟩ := Exec.bind_ok.mp h₂
      clear h h₁ h₂
      obtain ⟨hq₁, hk₁, hfold₁⟩ := killLoop_ok hloop₁
      obtain ⟨hq₂, hk₂, hfold₂⟩ := killLoop_ok hloop₂
      have hlive₁ := killLoop_live hloop₁
      have hlive₂ := killLoop_live hloop₂
      have hs₁ := endCode_fold hfold₁
      have hframe := fold_keeps (G := fun t => t.sched = { s₁.sched with runningList := q₁ } ∧ t.pc = s₁.pc)
        (fun x t t' ht hG => ⟨(release_frame ht).1.trans hG.1, (release_frame ht).2.trans hG.2⟩) hfold₂ ⟨rfl, rfl⟩
      cases hret
      subst hs₁
      refine ⟨hlen, hfits, hlive₁, hlive₂, ?_, ?_, fun proc => ?_⟩
      · rw [hk₂, hk₁, taken, List.length_append, Nat.zero_add]
        rfl
      · show ({ s₂.sched with mlqReadyQueue := Function.update s₂.sched.mlqReadyQueue 0 q₂ } : SchedT P) = _
        rw [hframe.1, hq₂, hq₁]
        rfl
      · show s₂.pc proc = _
        rw [hframe.2]
        rfl
    · rw [if_pos hlen, Exec.ok_bind] at h
      dsimp only at h
      rw [fullName, if_neg hfits, Exec.error_bind] at h
      cases h
  · rw [if_neg hlen, Exec.error_bind] at h
    cases h

/-! ## Where the processes are -/

theorem mem_taken {t : SchedT P} : proc ∈ taken T t caller name ↔ Named T caller name proc ∧
    (ReachedIn T caller name t.runningList proc ∨ ReachedIn T caller name (t.mlqReadyQueue 0) proc) := by
  rw [taken, List.mem_append, mem_rounds, mem_rounds, ← and_or_left]

theorem afterKill_level (t : SchedT P) (l : Nat) : (afterKill T t caller name).level l =
    if l = 0 then (rounds T caller name (t.mlqReadyQueue 0)).2.proc else t.level l := by
  show (Function.update t.mlqReadyQueue 0 _ l).proc = _
  by_cases hl : l = 0
  · rw [hl, if_pos rfl, Function.update_self]
  · rw [if_neg hl, Function.update_of_ne hl]
    rfl

theorem sameQueues_iff (t : SchedT P) : SameQueues t (afterKill T t caller name) proc ↔
    proc ∉ taken T t caller name := by
  rw [mem_taken]
  constructor
  · rintro ⟨hrun, hlev⟩ ⟨hn, hr | hr⟩
    · have hzero : (afterKill T t caller name).runningList.proc.count proc = 0 := (rounds_reached hn hr).2
      rw [hzero] at hrun
      exact absurd hr.1 (List.count_eq_zero.mp hrun.symm)
    · have hzero := hlev 0 (by decide)
      rw [afterKill_level, if_pos rfl, (rounds_reached hn hr).2] at hzero
      exact absurd hr.1 (List.count_eq_zero.mp hzero.symm)
  · intro hnot
    refine ⟨(rounds_kept fun h => hnot ⟨h.1, .inl h.2⟩).2, fun l hl => ?_⟩
    rw [afterKill_level]
    split
    · next h0 =>
      rw [h0]
      exact (rounds_kept fun h => hnot ⟨h.1, .inr h.2⟩).2
    · rfl

/-- A process named is still in a queue when it is in one that the call does not come to it in. -/
theorem listed_after {t : SchedT P} (hn : Named T caller name proc) : Listed (afterKill T t caller name) proc ↔
    (proc ∈ t.runningList.proc ∧ ¬ ReachedIn T caller name t.runningList proc) ∨
    (proc ∈ t.level 0 ∧ ¬ ReachedIn T caller name (t.mlqReadyQueue 0) proc) ∨
    ∃ l, 0 < l ∧ l < MAX_PRIO ∧ proc ∈ t.level l := by
  have hleft (q : QueueT P) :
      proc ∈ (rounds T caller name q).2.proc ↔ proc ∈ q.proc ∧ ¬ ReachedIn T caller name q proc := by
    by_cases hr : ReachedIn T caller name q proc
    · have hout := List.count_eq_zero.mp (rounds_reached hn hr).2
      exact ⟨fun h => absurd h hout, fun h => absurd hr h.2⟩
    · have hkept := (rounds_kept fun h => hr h.2 : _ ∧ (rounds T caller name q).2.proc.count proc = _).2
      rw [← List.count_pos_iff, hkept, List.count_pos_iff]
      exact ⟨fun h => ⟨h, hr⟩, fun h => h.1⟩
  constructor
  · rintro (h | ⟨l, hl, h⟩)
    · exact .inl ((hleft _).mp h)
    · rw [afterKill_level] at h
      split at h
      · exact .inr (.inl ((hleft _).mp h))
      · next h0 => exact .inr (.inr ⟨l, Nat.pos_of_ne_zero h0, hl, h⟩)
  · rintro (h | h | ⟨l, h0, hl, h⟩)
    · exact .inl ((hleft _).mpr h)
    · exact .inr ⟨0, by decide, by rw [afterKill_level, if_pos rfl]; exact (hleft _).mpr h⟩
    · exact .inr ⟨l, hl, by rw [afterKill_level, if_neg h0.ne']; exact h⟩

/-- The call returns when the traversals come once to every process to terminate. -/
theorem sysKillall_returns (hok : s.Ok) (hdev : DevOk s.dev) (hn : NameStored memrg 0 name (s.caller caller) c)
    (hw : KillsWhen T s caller name) : ∃ killedCount s', sysKillall T s caller memrg = .ok (killedCount, s') := by
  obtain ⟨hv, a, hm⟩ := nameStored_ok (hok caller) hdev hn
  rw [sysKillall, nameLoop_stored hn, if_pos hw.terminated, Exec.ok_bind]
  dsimp only
  rw [fullName, if_pos hw.fits, Exec.ok_bind]
  obtain ⟨⟨q₁, s₁, k₁⟩, hloop₁⟩ : ∃ r, killLoop T caller (procDir ++ cString name) (endCode T) s.sched.runningList.size
      s.sched.runningList { s with mm := Function.update s.mm caller c.mm, dev := c.dev } 0 = .ok r :=
    killLoop_returns terminates_endCode (ok_update hok caller hm) hw.running fun hf => hf.elim
  have hs₁ := endCode_fold (killLoop_ok hloop₁).2.2
  have hok₁ : ({ s₁ with sched := { s₁.sched with runningList := q₁ } } : KillSys P).Ok := by
    rw [hs₁]
    exact ok_update hok caller hm
  obtain ⟨⟨q₂, s₂, k₂⟩, hloop₂⟩ : ∃ r, killLoop T caller (procDir ++ cString name) (release memrg)
      (s₁.sched.mlqReadyQueue 0).size (s₁.sched.mlqReadyQueue 0)
      { s₁ with sched := { s₁.sched with runningList := q₁ } } k₁ = .ok r := by
    refine killLoop_returns (terminates_release hv) hok₁ (fun x hx => ?_) fun _ x hhit hr => ?_
    · rw [hs₁] at hx ⊢
      exact hw.ready x hx
    · rw [hs₁] at hr ⊢
      by_cases hin : x ∈ (s.sched.mlqReadyQueue 0).proc
      · have hn := isTarget_iff.mp hhit
        have hlisted : Listed s.sched x := .inr ⟨0, by decide, hin⟩
        exact (hw.reached x hn hlisted).ready ((reachable_iff hin).mp hr)
      · exact (List.count_eq_zero.mpr hin).trans_le (Nat.zero_le 1)
  have hok₂ : s₂.Ok := by
    refine fold_keeps (fun x t t' ht hG => ?_) (killLoop_ok hloop₂).2.2 hok₁
    obtain ⟨t₁, ht₁, hG₁, _⟩ := terminates_release hv x t hG
    cases ht.symm.trans ht₁
    exact hG₁
  obtain ⟨a₂, hm₂⟩ : ∃ a, (s₂.caller caller).mm.Single a := hok₂ caller
  obtain ⟨ret, c₂, hfree, _⟩ := libfree_total hm₂ hv
  rw [hloop₁, Exec.ok_bind]
  dsimp only
  rw [hloop₂, Exec.ok_bind]
  exact ⟨_, _, Exec.bind_ok.mpr ⟨_, hfree, rfl⟩⟩

/-! ## The specification -/

/-- A process named ends when the call comes to it in `running_list`, or in level 0 and it is in no other
queue, or when it was at its end before. -/
theorem KillOutcome.ends_iff (ho : KillOutcome T s caller name killedCount s') (hn : Named T caller name proc)
    (hlisted : Listed s.sched proc) : s'.pc proc = T.codeSize proc ∨ ¬ Listed s'.sched proc ↔
    s.pc proc = T.codeSize proc ∨ ReachedIn T caller name s.sched.runningList proc ∨
      ReachedIn T caller name (s.sched.mlqReadyQueue 0) proc ∧ proc ∉ s.sched.runningList.proc ∧
        ∀ l, 0 < l → l < MAX_PRIO → proc ∉ s.sched.level l := by
  rw [ho.pc, ho.sched, listed_after hn]
  constructor
  · rintro (hpc | hout)
    · split at hpc
      · next hin => exact .inr (.inl (mem_rounds.mp hin).2)
      · exact .inl hpc
    · by_cases hr : ReachedIn T caller name s.sched.runningList proc
      · exact .inr (.inl hr)
      · have hrun : proc ∉ s.sched.runningList.proc := fun hin => hout (.inl ⟨hin, hr⟩)
        have hother : ∀ l, 0 < l → l < MAX_PRIO → proc ∉ s.sched.level l :=
          fun l h0 hl hin => hout (.inr (.inr ⟨l, h0, hl, hin⟩))
        have hin : proc ∈ s.sched.level 0 := by
          rcases hlisted with hin | ⟨l, hl, hin⟩
          · exact absurd hin hrun
          · rcases Nat.eq_zero_or_pos l with rfl | h0
            · exact hin
            · exact absurd hin (hother l h0 hl)
        have hr₀ : ReachedIn T caller name (s.sched.mlqReadyQueue 0) proc := by
          by_contra hnot
          exact hout (.inr (.inl ⟨hin, hnot⟩))
        exact .inr (.inr ⟨hr₀, hrun, hother⟩)
  · rintro (hpc | hr | ⟨hr, hrun, hother⟩)
    · exact .inl (by rw [hpc, ite_self])
    · exact .inl (if_pos (mem_rounds.mpr ⟨hn, hr⟩))
    · refine .inr ?_
      rintro (⟨hin, _⟩ | ⟨_, hnot⟩ | ⟨l, h0, hl, hin⟩)
      · exact hrun hin
      · exact hnot hr
      · exact hother l h0 hl hin

theorem KillOutcome.count_iff (ho : KillOutcome T s caller name killedCount s') :
    (∃ l : List P, l.Nodup ∧ (∀ proc, proc ∈ l ↔ Named T caller name proc ∧ ¬ SameQueues s.sched s'.sched proc) ∧
      killedCount = l.length) ↔ (taken T s.sched caller name).Nodup := by
  have hmem (proc : P) : Named T caller name proc ∧ ¬ SameQueues s.sched s'.sched proc ↔
      proc ∈ taken T s.sched caller name := by
    rw [ho.sched, sameQueues_iff, not_not]
    exact ⟨fun h => h.2, fun h => ⟨(mem_taken.mp h).1, h⟩⟩
  simp only [hmem, ho.count]
  constructor
  · rintro ⟨l, hl, hsame, hlen⟩
    have hsub : l.Subperm (taken T s.sched caller name) := List.subperm_of_subset hl fun x hx => (hsame x).mp hx
    exact (hsub.perm_of_length_le hlen.le).nodup_iff.mp hl
  · exact fun hnodup => ⟨_, hnodup, fun _ => Iff.rfl, rfl⟩

/-- The call takes no process out twice when it comes to at most one entry of each. -/
theorem taken_nodup_iff {t : SchedT P} : (taken T t caller name).Nodup ↔ ∀ proc, Named T caller name proc →
    (ReachedIn T caller name t.runningList proc → t.runningList.proc.count proc ≤ 1) ∧
    (ReachedIn T caller name (t.mlqReadyQueue 0) proc → (t.level 0).count proc ≤ 1) ∧
    ¬ (ReachedIn T caller name t.runningList proc ∧ ReachedIn T caller name (t.mlqReadyQueue 0) proc) := by
  have hcount (proc : P) : (taken T t caller name).count proc =
      (rounds T caller name t.runningList).1.count proc + (rounds T caller name (t.mlqReadyQueue 0)).1.count proc :=
    List.count_append
  simp only [List.nodup_iff_count_le_one, hcount]
  constructor
  · intro hle proc hn
    have hle := hle proc
    refine ⟨fun hr => ?_, fun hr => ?_, fun ⟨hr, hr₀⟩ => ?_⟩
    · rw [(rounds_reached hn hr).1] at hle
      omega
    · rw [(rounds_reached hn hr).1] at hle
      exact Nat.le_trans (Nat.le_add_left ..) hle
    · rw [(rounds_reached hn hr).1, (rounds_reached hn hr₀).1] at hle
      have hpos := List.count_pos_iff.mpr hr.1
      have hpos₀ := List.count_pos_iff.mpr hr₀.1
      omega
  · intro hone proc
    by_cases hr : Named T caller name proc ∧ ReachedIn T caller name t.runningList proc
    · obtain ⟨hn, hr⟩ := hr
      obtain ⟨hle, _, honce⟩ := hone proc hn
      rw [(rounds_reached hn hr).1, (rounds_kept fun h => honce ⟨hr, h.2⟩).1]
      exact hle hr
    · rw [(rounds_kept hr).1, Nat.zero_add]
      by_cases hr₀ : Named T caller name proc ∧ ReachedIn T caller name (t.mlqReadyQueue 0) proc
      · rw [(rounds_reached hr₀.1 hr₀.2).1]
        exact (hone proc hr₀.1).2.1 hr₀.2
      · rw [(rounds_kept hr₀).1]
        exact Nat.zero_le 1

/-- `killall` terminates exactly the named processes if and only if the name fits, no process in `running_list`
or level 0 was freed, and its two traversals come to every process to terminate, once, and in `running_list` if it
is in more than level 0. -/
theorem killall_iff (hok : s.Ok) (hdev : DevOk s.dev) (hn : NameStored memrg 0 name (s.caller caller) c) :
    Kills T s caller memrg name ↔ KillsWhen T s caller name := by
  constructor
  · rintro ⟨killedCount, s', hx, hends, _, hcount⟩
    obtain ⟨hlen, hfits, hrun, hready, ho⟩ := sysKillall_ok hn hx
    have hnodup := taken_nodup_iff.mp (ho.count_iff.mp hcount)
    refine ⟨hlen, hfits, hrun, hready, fun proc hnamed hlisted => ?_⟩
    obtain ⟨hr, hr₀, honce⟩ := hnodup proc hnamed
    exact ⟨hr, hr₀, honce, (ho.ends_iff hnamed hlisted).mp (hends proc hnamed hlisted)⟩
  · intro hw
    obtain ⟨killedCount, s', hx⟩ := sysKillall_returns hok hdev hn hw
    obtain ⟨_, _, _, _, ho⟩ := sysKillall_ok hn hx
    refine ⟨killedCount, s', hx, fun proc hnamed hlisted => ?_, fun proc hnot => ?_, ?_⟩
    · exact (ho.ends_iff hnamed hlisted).mpr (hw.reached proc hnamed hlisted).ends
    · have hout : proc ∉ taken T s.sched caller name := fun hin => hnot (mem_taken.mp hin).1
      rw [ho.sched, sameQueues_iff, ho.pc, if_neg fun hin => hout (List.mem_append_left _ hin)]
      exact ⟨hout, rfl⟩
    · refine ho.count_iff.mpr (taken_nodup_iff.mpr fun proc hnamed => ?_)
      by_cases hlisted : Listed s.sched proc
      · have honce := hw.reached proc hnamed hlisted
        exact ⟨honce.running, honce.ready, honce.once⟩
      · have hrun : ¬ ReachedIn T caller name s.sched.runningList proc := fun hr => hlisted (.inl hr.1)
        have hready : ¬ ReachedIn T caller name (s.sched.mlqReadyQueue 0) proc :=
          fun hr => hlisted (.inr ⟨0, by decide, hr.1⟩)
        exact ⟨fun hr => absurd hr hrun, fun hr => absurd hr hready, fun hr => hrun hr.1⟩

end Kills

/-! ## A process that is not reached -/

/-- `'p'` -/
def letter : BYTE := 112

/-- An address space with the name `p` in region 0, in a page of its own. -/
def namingMm : MmStruct where
  pgd := fun p => if p = 0 then pteSetFpn 0 0 else 0
  mmap := [⟨0, 0, 256, 256, []⟩]
  symrgtbl := fun i => if i = 0 then ⟨0, 0, 256⟩ else ⟨0, 0, 0⟩
  fifoPgn := [0]

def namingDev : Dev → MemphyStruct
  | .mram => ⟨fun i => if i = 0 then letter else -1, 256, true, 0, []⟩
  | .activeMswp => ⟨fun _ => 0, 256, true, 0, [0]⟩

/-- Process 0 runs, and processes 1 and 2 wait in level 1; `running_list` holds all three. -/
def twoListed : KillSys Nat where
  sched :=
    { (SchedT.init : SchedT Nat) with
      runningList := ⟨[0, 1, 2], by decide⟩
      mlqReadyQueue := fun l => if l = 1 then ⟨[1, 2], by decide⟩ else .nil }
  pc := fun _ => 0
  mm := fun _ => namingMm
  dev := namingDev
  freed := fun _ => false

/-- Process 1 runs the program `p` and the others run `q`. -/
def twoPrograms (priority : Nat → Nat) : PcbTable Nat where
  priority := priority
  prio := fun _ => 1
  pid := fun proc => proc + 1
  path := fun proc => procDir ++ if proc = 1 then [letter] else [113]
  codeSize := fun _ => 5

theorem twoListed_ok : twoListed.Ok := fun _ => ⟨_, rfl, rfl⟩

theorem twoListed_devOk : DevOk twoListed.dev where
  random := fun d => by cases d <;> rfl
  maxsz := fun d => by cases d <;> decide
  free := fun d => by cases d <;> decide

theorem twoListed_stored : NameStored 0 0 [letter] (twoListed.caller 0) (twoListed.caller 0) := by
  have hm : (twoListed.caller 0).mm.Single ⟨0, 0, 256, 256, []⟩ := ⟨rfl, rfl⟩
  have hpage (offset : Nat) (h : accessPgn (twoListed.caller 0).mm 0 (toInt offset) = 0) :
      PageOutcome (twoListed.caller 0) (accessPgn (twoListed.caller 0).mm 0 (toInt offset)) (some 0)
        (twoListed.caller 0) := by
    have hhit : PageOutcome (twoListed.caller 0) 0 _ (twoListed.caller 0) := .hit (by decide)
    have hfpn : pagingFpn ((twoListed.caller 0).mm.pgd 0) = 0 := by decide
    rw [hfpn] at hhit
    rw [h]
    exact hhit
  have hzero : libread (twoListed.caller 0) 0 0 = .ok (0, some (letter.signExtend 32), twoListed.caller 0) :=
    (libread_ok_iff hm twoListed_devOk).mpr ⟨some letter, .byte (by decide) (hpage 0 (by decide)) (by decide), rfl⟩
  have hone : libread (twoListed.caller 0) 0 1 = .ok (0, some (-1), twoListed.caller 0) :=
    (libread_ok_iff hm twoListed_devOk).mpr ⟨some (-1), .byte (by decide) (hpage 1 (by decide)) (by decide), by decide⟩
  exact ⟨0, _, hzero, by decide, 0, hone⟩

theorem named_iff {priority : Nat → Nat} {proc : Nat} :
    Named (twoPrograms priority) 0 [letter] proc ↔ proc = 1 := by
  constructor
  · rintro ⟨_, _, hpath⟩
    by_contra hne
    have hpath : procDir ++ (if proc = 1 then [letter] else [113]) = procDir ++ [letter] := hpath
    rw [if_neg hne] at hpath
    exact absurd (List.append_cancel_left hpath) (by decide)
  · rintro rfl
    exact ⟨Nat.succ_ne_zero 1, Nat.one_ne_zero, rfl⟩

theorem not_reachedIn_nil {priority : Nat → Nat} {proc : Nat} :
    ¬ ReachedIn (twoPrograms priority) 0 [letter] (twoListed.sched.mlqReadyQueue 0) proc := fun hr => by cases hr.1

/-- With equal priorities the process is reached. -/
theorem killall_iff_equal : Kills (twoPrograms fun _ => 0) twoListed 0 0 [letter] := by
  refine (killall_iff twoListed_ok twoListed_devOk twoListed_stored).mpr
    ⟨by decide, by decide, by decide, by decide, fun proc hn _ => ?_⟩
  rw [named_iff.mp hn]
  exact ⟨fun _ => by decide, fun _ => by decide, fun hr => not_reachedIn_nil hr.2,
    .inr (.inl ⟨by decide, fun _ _ _ => Nat.le_refl _⟩)⟩

/-- A process is missed when one that stays in `running_list` has smaller priority. -/
theorem killall_misses : twoListed.Ok ∧ DevOk twoListed.dev ∧
    NameStored 0 0 [letter] (twoListed.caller 0) (twoListed.caller 0) ∧
    ¬ Kills (twoPrograms fun proc => 5 - proc) twoListed 0 0 [letter] := by
  refine ⟨twoListed_ok, twoListed_devOk, twoListed_stored, ?_⟩
  rintro ⟨killedCount, s', hx, hends, _⟩
  obtain ⟨_, _, _, _, ho⟩ := sysKillall_ok twoListed_stored hx
  have hn : Named (twoPrograms fun proc => 5 - proc) 0 [letter] 1 := named_iff.mpr rfl
  have hlisted : Listed twoListed.sched 1 := .inl (by decide)
  rcases (ho.ends_iff hn hlisted).mp (hends 1 hn hlisted) with hpc | hr | ⟨hr, _⟩
  · exact absurd hpc (by decide)
  · have hle := hr.2 2 (by decide) fun h2 => absurd (named_iff.mp h2) (by decide)
    exact absurd hle (by decide)
  · exact not_reachedIn_nil hr

end SimpleOs.Syscall
