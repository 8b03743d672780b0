import SimpleOs.Os.Routines

/-!
# When CPUs leave their loops

The timer is a barrier here. `done` is read in another step than the levels, so what counts is which calls of
`next_slot` lie between the two.

* `LdSt.lastCall` : no call of `next_slot` before this one is the loader's last;
* `Paced`, `paced_run` : CPU and loader are at most one slot apart, and CPUs leave only after `done`;
* `lastGet`, `GotNothing`, `lastLook_run` : what a CPU found at its last `get_proc` before it leaves;
* `Awake`, `awake_run` : a CPU that will call `get_proc` again, as long as a process waits;
* `no_cpu_gives_up` : CPUs leave when all processes are added and the levels are empty, and nothing is left
  when all have stopped.
-/

namespace SimpleOs.Os
open SimpleOs.Sched

variable {P I : Type} {C : OsConfig P I} {s s' : OsSys P I} {i : Nat} {act : OsAct} {r : Unit} {h : OsHistory P I}

/-! ## Slots -/

/-- The loader is past its loop. -/
def LdPc.past : LdPc → Bool
  | .finish | .leaving | .detached => true
  | _ => false

/-- The CPU is past its loop. -/
def CpuPc.past : CpuPc → Bool
  | .leaving | .stopped => true
  | _ => false

/-- The loader has called `next_slot` after its last `add_proc`. -/
def LdSt.Loaded (ld : LdSt P) : Prop := ld.rest = [] ∧ ld.pc ≠ .added

/-- The calls of `next_slot` so far, and one more if the loader is not through with its processes. -/
def LdSt.lastCall (ld : LdSt P) : Nat := if ld.rest.isEmpty ∧ ld.pc ≠ .added then ld.calls else ld.calls + 1

theorem LdSt.lastCall_of_loaded {ld : LdSt P} (hl : ld.Loaded) : ld.lastCall = ld.calls :=
  if_pos ⟨List.isEmpty_iff.mpr hl.1, hl.2⟩

theorem LdSt.lastCall_of_not {ld : LdSt P} (hl : ¬ ld.Loaded) : ld.lastCall = ld.calls + 1 :=
  if_neg fun hc => hl ⟨List.isEmpty_iff.mp hc.1, hc.2⟩

theorem LdSt.lastCall_le (ld : LdSt P) : ld.lastCall ≤ ld.calls + 1 := by
  unfold lastCall
  split <;> omega

theorem LdSt.calls_le (ld : LdSt P) : ld.calls ≤ ld.lastCall := by
  unfold lastCall
  split <;> omega

theorem LdSt.lastCall_congr {ld ld' : LdSt P} (hpc : ld.pc ≠ .added) (hpc' : ld'.pc ≠ .added)
    (hrest : ld'.rest = ld.rest) (hcalls : ld'.calls = ld.calls) : ld.lastCall ≤ ld'.lastCall := by
  simp only [lastCall, hpc, hpc', hrest, hcalls, Nat.le_refl, ne_eq, not_false_eq_true, and_true]

theorem LdSt.next_pc (rest : List P) (calls : Nat) : (LdSt.next rest calls).pc ≠ .added := by
  rw [LdSt.next]
  split <;> simp

theorem LdMove.lastCall (hmove : LdMove C s s') : s.ld.lastCall ≤ s'.ld.lastCall := by
  cases hmove with
  | @early proc rest hpc hrest =>
    have hnot : ¬ s.ld.Loaded := fun hl => by cases hrest.symm.trans hl.1
    rw [LdSt.lastCall_of_not hnot]
    exact LdSt.calls_le ⟨.early, proc :: rest, s.ld.calls + 1⟩
  | @add proc rest hpc hrest hprio =>
    have hnot : ¬ (⟨.added, rest, s.ld.calls⟩ : LdSt P).Loaded := fun hl => hl.2 rfl
    show s.ld.lastCall ≤ LdSt.lastCall ⟨.added, rest, s.ld.calls⟩
    rw [LdSt.lastCall_of_not hnot]
    exact LdSt.lastCall_le _
  | again hpc => exact LdSt.lastCall_congr (by rw [hpc]; decide) (fun he => by cases he) rfl rfl
  | call hpc => exact Nat.le_trans (LdSt.lastCall_le _) (LdSt.calls_le ⟨.inSlot, s.ld.rest, s.ld.calls + 1⟩)
  | next hpc hpass => exact LdSt.lastCall_congr (by rw [hpc]; decide) (LdSt.next_pc _ _) rfl rfl
  | finish hpc => exact LdSt.lastCall_congr (by rw [hpc]; decide) (fun he => by cases he) rfl rfl
  | detach hpc => exact LdSt.lastCall_congr (by rw [hpc]; decide) (fun he => by cases he) rfl rfl

/-- The loader calls `next_slot` again, or is in a call, that the CPU has not made. -/
def Stale (c : CpuSt P) (ld : LdSt P) : Prop := c.calls < ld.lastCall

/-- The barrier keeps CPUs and loader together. -/
structure Paced (C : OsConfig P I) (s : OsSys P I) : Prop where
  past : s.ld.pc.past = true → s.ld.rest = []
  done : s.done = true → s.ld.pc.past = true
  left : ∀ i < C.numCpus, (s.cpu i).pc.past = true → s.done = true
  ahead : ∀ i < C.numCpus, (s.cpu i).pc ≠ .inSlot → s.ld.pc ≠ .detached → (s.cpu i).calls ≤ s.ld.calls
  behind : s.ld.pc.past = true → ∀ i < C.numCpus, (s.cpu i).pc ≠ .stopped → s.ld.calls ≤ (s.cpu i).calls

theorem Paced.loaded (hp : Paced C s) (hpast : s.ld.pc.past = true) : s.ld.Loaded :=
  ⟨hp.past hpast, fun he => by rw [he] at hpast; cases hpast⟩

theorem Paced.stale (hp : Paced C s) (hi : i < C.numCpus) (hpc : (s.cpu i).pc ≠ .inSlot) (hl : ¬ s.ld.Loaded) :
    Stale (s.cpu i) s.ld := by
  have hdet : s.ld.pc ≠ .detached := fun he => hl (hp.loaded (by rw [he]; rfl))
  have hle := hp.ahead i hi hpc hdet
  rw [Stale, LdSt.lastCall_of_not hl]
  omega

theorem Paced.not_stale (hp : Paced C s) (hi : i < C.numCpus) (hpc : (s.cpu i).pc ≠ .stopped) (hdone : s.done = true) :
    ¬ Stale (s.cpu i) s.ld := by
  have hpast := hp.done hdone
  have hle := hp.behind hpast i hi hpc
  rw [Stale, LdSt.lastCall_of_loaded (hp.loaded hpast)]
  omega

theorem paced_boot (C : OsConfig P I) : Paced C (.boot C) where
  past := by
    show (LdSt.next C.load 0).pc.past = true → (LdSt.next C.load 0).rest = []
    rw [LdSt.next]
    split
    · next he => exact fun _ => List.isEmpty_iff.mp he
    · exact fun hc => by cases hc
  done := fun hc => by cases hc
  left := fun _ _ hc => by cases hc
  ahead := fun _ _ _ _ => Nat.le_refl _
  behind := fun _ _ _ _ => Nat.zero_le _

section Steps
variable [DecidableEq P]

/-- What a step of a CPU does to its place and to its calls of `next_slot`. -/
theorem CpuMove.pace (hmove : CpuMove C s i s') :
    (s.cpu i).pc ≠ .stopped ∧ (s.cpu i).calls ≤ (s'.cpu i).calls ∧
    ((s'.cpu i).pc.past = true → (s.cpu i).pc.past = true ∨ s.done = true) ∧
    ((s'.cpu i).pc ≠ .inSlot → (s'.cpu i).calls = (s.cpu i).calls ∧
      ((s.cpu i).pc = .inSlot → Passes C s (s.cpu i).calls)) := by
  cases hmove with
  | @fetch proc sched hpc => cases proc <;> simp [hpc, CpuPc.past]
  | leave hpc hproc hdone => simp [hpc, hdone]
  | pass hpc hpass => simp [hpc, hpass, CpuPc.past]
  | finish hpc => simp [hpc, CpuPc.past]
  | put hpc => simp [hpc, CpuPc.past]
  | keep hpc => simp [hpc, CpuPc.past]
  | reload hpc => simp [hpc, CpuPc.past]
  | skip hpc => simp [hpc, CpuPc.past]
  | dispatch hpc => simp [hpc, CpuPc.past]
  | run hpc => simp [hpc, CpuPc.past]
  | call hpc => simp [hpc, CpuPc.past]
  | detach hpc => simp [hpc, CpuPc.past]

theorem paced_cpu (hp : Paced C s) (hbar : C.barrier = true) (hi : i < C.numCpus) (hmove : CpuMove C s i s') :
    Paced C s' := by
  obtain ⟨hrunning, hcalls, hleft, hslot⟩ := hmove.pace
  refine ⟨?_, ?_, ?_, ?_, ?_⟩
  · rw [hmove.ld]
    exact hp.past
  · rw [hmove.done, hmove.ld]
    exact hp.done
  · rw [hmove.done]
    refine hmove.forall_cpu
      (p := fun j c => j < C.numCpus → c.pc.past = true → s.done = true) (fun _ hpast => ?_) hp.left
    rcases hleft hpast with hpast | hdone
    · exact hp.left i hi hpast
    · exact hdone
  · rw [hmove.ld]
    refine hmove.forall_cpu
      (p := fun j c => j < C.numCpus → c.pc ≠ .inSlot → s.ld.pc ≠ .detached → c.calls ≤ s.ld.calls)
      (fun _ hpc hdet => ?_) hp.ahead
    obtain ⟨hsame, hpass⟩ := hslot hpc
    rw [hsame]
    by_cases hin : (s.cpu i).pc = .inSlot
    · exact (hpass hin hbar).2 hdet
    · exact hp.ahead i hi hin hdet
  · rw [hmove.ld]
    intro hpast
    exact hmove.forall_cpu (p := fun j c => j < C.numCpus → c.pc ≠ .stopped → s.ld.calls ≤ c.calls)
      (fun _ _ => Nat.le_trans (hp.behind hpast i hi hrunning) hcalls) (hp.behind hpast)

omit [DecidableEq P] in
theorem Paced.loop (hp : Paced C s) (hcpu : s'.cpu = s.cpu) (hdone : s'.done = s.done) (hpc : s.ld.pc.past = false)
    (hpc' : s'.ld.pc.past = false) (hcalls : s.ld.calls ≤ s'.ld.calls) : Paced C s' := by
  have hdet : s.ld.pc ≠ .detached := fun he => by rw [he] at hpc; cases hpc
  refine ⟨fun hc => ?_, fun hd => ?_, ?_, ?_, fun hc => ?_⟩
  · cases hc.symm.trans hpc'
  · rw [hdone] at hd
    cases (hp.done hd).symm.trans hpc
  · rw [hcpu, hdone]
    exact hp.left
  · rw [hcpu]
    exact fun j hj hj' _ => Nat.le_trans (hp.ahead j hj hj' hdet) hcalls
  · cases hc.symm.trans hpc'

omit [DecidableEq P] in
/-- The loader keeps pace: it passes its last slot after every CPU that goes on has called `next_slot`. -/
theorem paced_ld (hp : Paced C s) (hbar : C.barrier = true) (hmove : LdMove C s s') : Paced C s' := by
  have hpast := hp.past
  have hbehind := hp.behind
  cases hmove with
  | early hpc => exact hp.loop rfl rfl (by rw [hpc]; rfl) rfl (Nat.le_succ _)
  | add hpc => exact hp.loop rfl rfl (by rw [hpc]; rfl) rfl (Nat.le_refl _)
  | again hpc => exact hp.loop rfl rfl (by rw [hpc]; rfl) rfl (Nat.le_refl _)
  | call hpc => exact hp.loop rfl rfl (by rw [hpc]; rfl) rfl (Nat.le_succ _)
  | next hpc hpass =>
    refine ⟨fun hc => ?_, fun hd => ?_, hp.left, fun j hj hj' _ => hp.ahead j hj hj' (by rw [hpc]; decide),
      fun _ j hj hj' => (hpass hbar).1 j hj hj'⟩
    · show s.ld.rest = []
      rw [LdSt.next] at hc
      split at hc
      · next he => exact List.isEmpty_iff.mp he
      · cases hc
    · have hc := hp.done hd
      rw [hpc] at hc
      cases hc
  | finish hpc =>
    rw [hpc] at hpast hbehind
    exact ⟨fun _ => hpast rfl, fun _ => rfl, fun _ _ _ => rfl,
      fun j hj hj' _ => hp.ahead j hj hj' (by rw [hpc]; decide), fun _ => hbehind rfl⟩
  | detach hpc =>
    rw [hpc] at hpast hbehind
    exact ⟨fun _ => hpast rfl, fun _ => rfl, hp.left, fun _ _ _ hc => absurd rfl hc, fun _ => hbehind rfl⟩

theorem paced_step (hp : Paced C s) (hbar : C.barrier = true) (hmove : OsMove C s act s') : Paced C s' := by
  cases act with
  | cpu => exact paced_cpu hp hbar hmove.1 hmove.2
  | ld => exact paced_ld hp hbar hmove

theorem paced_run (hbar : C.barrier = true) (hrun : Run (osStep C) (.boot C) h s) : Paced C s :=
  hrun.invariant (I := fun _ s => Paced C s) (paced_boot C)
    fun _ _ _ _ _ _ hp hx => paced_step hp hbar (osStep_move hx)

end Steps

/-! ## The last `get_proc` -/

/-- The next step of the CPU calls `get_proc`. -/
def CpuSt.gets (c : CpuSt P) : Bool :=
  match c.pc with
  | .top => c.proc.isNone
  | .reload _ => true
  | _ => false

/-- The last step at which CPU `i` called `get_proc`. -/
def lastGet (i : Nat) (h : OsHistory P I) : Option (Entry (OsSys P I) OsAct Unit) :=
  h.find? fun e => e.act = .cpu i ∧ (e.before.cpu i).gets

/-- The last `get_proc` of CPU `i` found the levels empty, in a state with `p`. -/
def GotNothing (i : Nat) (h : OsHistory P I) (p : OsSys P I → Prop) : Prop :=
  ∃ e, lastGet i h = some e ∧ (∀ l < MAX_PRIO, e.before.sched.level l = []) ∧ p e.before

theorem GotNothing.mono {p q : OsSys P I → Prop} (hg : GotNothing i h p) (hpq : ∀ s, p s → q s) : GotNothing i h q := by
  obtain ⟨e, hlast, hempty, hp⟩ := hg
  exact ⟨e, hlast, hempty, hpq _ hp⟩

theorem GotNothing.cons {p : OsSys P I → Prop} (hg : GotNothing i h p) {e : Entry (OsSys P I) OsAct Unit}
    (he : e.act = .cpu i → (e.before.cpu i).gets = false) : GotNothing i (e :: h) p := by
  obtain ⟨e', hlast, hg⟩ := hg
  refine ⟨e', ?_, hg⟩
  rw [lastGet, List.find?_cons_of_neg]
  · exact hlast
  · intro hc
    obtain ⟨hact, hgets⟩ := of_decide_eq_true hc
    cases (he hact).symm.trans hgets

theorem gotNothing_get {p : OsSys P I → Prop} (hgets : (s.cpu i).gets = true) {sched : SchedT P}
    (hget : SchedOutcome C.fields s.sched .get none sched) (hp : p s) : GotNothing i (⟨s, .cpu i, r⟩ :: h) p := by
  refine ⟨⟨s, .cpu i, r⟩, ?_, ?_, hp⟩
  · rw [lastGet, List.find?_cons_of_pos]
    simp [hgets]
  · cases hget with
    | enter hact => cases hact
    | idle hall => exact hall

def CpuSt.Idle (c : CpuSt P) : Prop := c.pc = .recheck ∧ c.proc = none

/-- A CPU that is about to leave its loop, or has left it, found nothing at its last `get_proc`, when the
loader had added all processes; or the loader has not made its last call of `next_slot`, so that the CPU will
not leave. -/
structure LastLook (h : OsHistory P I) (s : OsSys P I) (i : Nat) : Prop where
  idle : (s.cpu i).Idle → GotNothing i h fun t => t.ld.rest = [] ∨ Stale (s.cpu i) s.ld
  left : (s.cpu i).pc.past = true → GotNothing i h fun t => t.ld.rest = []

theorem LastLook.other {act : OsAct} (hl : LastLook h s i) (hact : act ≠ .cpu i) (hcpu : s'.cpu i = s.cpu i)
    (hld : s.ld.lastCall ≤ s'.ld.lastCall) : LastLook (⟨s, act, r⟩ :: h) s' i := by
  refine ⟨fun hidle => ?_, fun hleft => ?_⟩
  · rw [hcpu] at hidle ⊢
    refine ((hl.idle hidle).mono fun t ht => ?_).cons fun he => absurd he hact
    rcases ht with ht | ht
    · exact .inl ht
    · exact .inr (Nat.lt_of_lt_of_le ht hld)
  · rw [hcpu] at hleft
    exact (hl.left hleft).cons fun he => absurd he hact

section Looks
variable [DecidableEq P]

theorem lastLook_cpu (hp : Paced C s) (hl : LastLook h s i) (hi : i < C.numCpus)
    (hmove : CpuMove C s i s') : LastLook (⟨s, .cpu i, r⟩ :: h) s' i := by
  cases hmove with
  | @fetch proc sched hpc hproc hget =>
    refine ⟨fun hidle => ?_, fun hleft => ?_⟩
    · cases proc with
      | none => simp [CpuSt.Idle] at hidle
      | some => simp [CpuSt.Idle] at hidle
    · cases proc with
      | none => simp [CpuPc.past] at hleft
      | some => simp [CpuPc.past] at hleft
  | @reload freed proc sched hpc hget =>
    refine ⟨fun hidle => ?_, fun hleft => ?_⟩
    · rw [OsSys.setCpu_self] at hidle ⊢
      obtain rfl : proc = none := hidle.2
      refine gotNothing_get (by rw [CpuSt.gets, hpc]) hget ?_
      by_cases hload : s.ld.Loaded
      · exact .inl hload.1
      · exact .inr (hp.stale hi (by rw [hpc]; simp) hload)
    · simp [CpuPc.past] at hleft
  | leave hpc hproc hdone =>
    refine ⟨fun hidle => ?_, fun _ => ?_⟩
    · simp [CpuSt.Idle] at hidle
    · refine ((hl.idle ⟨hpc, hproc⟩).mono fun t ht => ?_).cons fun _ => by rw [CpuSt.gets, hpc]
      exact ht.resolve_right (hp.not_stale hi (by rw [hpc]; decide) hdone)
  | detach hpc =>
    refine ⟨fun hidle => ?_, fun _ => ?_⟩
    · simp [CpuSt.Idle] at hidle
    · exact (hl.left (by rw [hpc]; rfl)).cons fun _ => by rw [CpuSt.gets, hpc]
  | keep hpc hproc =>
    refine ⟨fun hidle => ?_, fun hleft => ?_⟩
    · simp [CpuSt.Idle, hproc] at hidle
    · simp [CpuPc.past] at hleft
  | _ => exact ⟨fun hidle => by simp [CpuSt.Idle] at hidle, fun hleft => by simp [CpuPc.past] at hleft⟩

theorem lastLook_step (hp : Paced C s) (hl : LastLook h s i) (hi : i < C.numCpus) (hmove : OsMove C s act s') :
    LastLook (⟨s, act, r⟩ :: h) s' i := by
  cases act with
  | cpu j =>
    by_cases hj : i = j
    · subst hj
      exact lastLook_cpu hp hl hi hmove.2
    · refine hl.other (fun he => by cases he; exact hj rfl) (hmove.2.other hj) ?_
      rw [hmove.2.ld]
  | ld => exact hl.other (fun he => by cases he) (congrFun (LdMove.cpu hmove) i) (LdMove.lastCall hmove)

theorem lastLook_run (hbar : C.barrier = true) (hrun : Run (osStep C) (.boot C) h s) (hi : i < C.numCpus) :
    LastLook h s i :=
  hrun.invariant (I := fun h s => LastLook h s i)
    ⟨fun hidle => (by cases hidle.1), fun hleft => by cases hleft⟩
    fun _ _ _ _ _ hrun hl hx => lastLook_step (paced_run hbar hrun) hl hi (osStep_move hx)

/-! ## The last CPU -/

/-- The CPU will call `get_proc` again. -/
structure WillLook (c : CpuSt P) (ld : LdSt P) : Prop where
  stays : c.pc.past = false
  idle : c.Idle → Stale c ld

/-- As long as a process waits, and the loader adds none, a CPU will call `get_proc` again. -/
def Awake (C : OsConfig P I) (s : OsSys P I) : Prop :=
  s.ld.Loaded → (∃ l < MAX_PRIO, s.sched.level l ≠ []) → ∃ i < C.numCpus, WillLook (s.cpu i) s.ld

omit [DecidableEq P] in
theorem Paced.willLook (hp : Paced C s) (hl : ¬ s.ld.Loaded) (hi : i < C.numCpus) : WillLook (s.cpu i) s.ld where
  stays := by
    by_contra hc
    exact hl (hp.loaded (hp.done (hp.left i hi (by simpa using hc))))
  idle := fun hidle => hp.stale hi (by rw [hidle.1]; decide) hl

theorem Awake.leave (ha : Awake C s) (hmove : CpuMove C s i s') (hsched : s'.sched = s.sched)
    (hnot : ¬ WillLook (s.cpu i) s.ld) : Awake C s' := by
  intro hload hwait
  rw [hmove.ld] at hload ⊢
  rw [hsched] at hwait
  obtain ⟨j, hj, hlook⟩ := ha hload hwait
  have hji : j ≠ i := fun he => hnot (he ▸ hlook)
  refine ⟨j, hj, ?_⟩
  rw [hmove.other hji]
  exact hlook

/-- After a step from which the CPU goes on it will call `get_proc` again, unless it found nothing. -/
theorem awake_cpu (hp : Paced C s) (ha : Awake C s) (hi : i < C.numCpus) (hmove : CpuMove C s i s') : Awake C s' := by
  cases hmove with
  | @fetch proc sched hpc hproc hget =>
    refine fun _ _ => ⟨i, hi, ?_⟩
    rw [OsSys.setCpu_self]
    cases proc with
    | none => exact ⟨rfl, fun hidle => by cases hidle.1⟩
    | some => exact ⟨rfl, fun hidle => by cases hidle.2⟩
  | @reload freed proc sched hpc hget =>
    cases hget with
    | enter hact => cases hact
    | idle hall => exact fun _ ⟨l, hl, hne⟩ => absurd (hall l hl) hne
    | dispatch =>
      refine fun _ _ => ⟨i, hi, ?_⟩
      rw [OsSys.setCpu_self]
      exact ⟨rfl, fun hidle => by cases hidle.2⟩
  | leave hpc hproc hdone =>
    exact ha.leave (.leave hpc hproc hdone) rfl fun hlook =>
      hp.not_stale hi (by rw [hpc]; decide) hdone (hlook.idle ⟨hpc, hproc⟩)
  | detach hpc =>
    refine ha.leave (.detach hpc) rfl fun hlook => ?_
    have hstays := hlook.stays
    rw [hpc] at hstays
    cases hstays
  | keep hpc hproc =>
    refine fun _ _ => ⟨i, hi, ?_⟩
    rw [OsSys.setCpu_self]
    exact ⟨rfl, fun hidle => by cases hproc.symm.trans hidle.2⟩
  | _ =>
    refine fun _ _ => ⟨i, hi, ?_⟩
    rw [OsSys.setCpu_self]
    exact ⟨rfl, fun hidle => by cases hidle.1⟩

omit [DecidableEq P] in
theorem WillLook.mono {c : CpuSt P} {ld ld' : LdSt P} (hlook : WillLook c ld) (hle : ld.lastCall ≤ ld'.lastCall) :
    WillLook c ld' :=
  ⟨hlook.stays, fun hidle => Nat.lt_of_lt_of_le (hlook.idle hidle) hle⟩

omit [DecidableEq P] in
/-- Until its last call of `next_slot` the loader leaves every CPU in its loop; after it, it adds nothing. -/
theorem awake_ld (hn : 0 < C.numCpus) (hp : Paced C s) (ha : Awake C s) (hmove : LdMove C s s') : Awake C s' := by
  intro _ hwait
  rw [LdMove.cpu hmove]
  by_cases hload : s.ld.Loaded
  · have hsched : s'.sched = s.sched := by
      cases hmove with
      | add hpc hrest => cases hrest.symm.trans hload.1
      | _ => rfl
    rw [hsched] at hwait
    obtain ⟨j, hj, hlook⟩ := ha hload hwait
    exact ⟨j, hj, hlook.mono hmove.lastCall⟩
  · exact ⟨0, hn, (hp.willLook hload hn).mono hmove.lastCall⟩

theorem awake_run (hbar : C.barrier = true) (hn : 0 < C.numCpus) (hrun : Run (osStep C) (.boot C) h s) : Awake C s := by
  refine hrun.invariant (I := fun _ s => Awake C s) (fun _ ⟨_, _, hne⟩ => absurd rfl hne) ?_
  intro _ s act _ s' hrun ha hx
  have hmove := osStep_move hx
  cases act with
  | cpu => exact awake_cpu (paced_run hbar hrun) ha hmove.1 hmove.2
  | ld => exact awake_ld hn (paced_run hbar hrun) ha hmove

/-- No CPU gives up while work is left: with the timer as a barrier, a CPU that has left its loop found all
levels empty at its last `get_proc`, when the loader had added all processes; and once all CPUs have stopped
every level is empty and no CPU holds a process. -/
theorem no_cpu_gives_up (hbar : C.barrier = true) (hrun : Run (osStep C) (.boot C) h s) :
    (∀ i < C.numCpus, (s.cpu i).pc = .leaving ∨ (s.cpu i).pc = .stopped →
      ∃ e, lastGet i h = some e ∧ e.before.ld.rest = [] ∧ ∀ l < MAX_PRIO, e.before.sched.level l = []) ∧
    (0 < C.numCpus → (∀ i < C.numCpus, (s.cpu i).pc = .stopped) →
      (∀ l < MAX_PRIO, s.sched.level l = []) ∧ ∀ i < C.numCpus, (s.cpu i).proc = none) := by
  refine ⟨fun i hi hleft => ?_, fun hn hall => ⟨fun l hl => ?_, fun i hi => ?_⟩⟩
  · have hpast : (s.cpu i).pc.past = true := by
      rcases hleft with hpc | hpc
      · rw [hpc]
        rfl
      · rw [hpc]
        rfl
    obtain ⟨e, hlast, hempty, hrest⟩ := (lastLook_run hbar hrun hi).left hpast
    exact ⟨e, hlast, hrest, hempty⟩
  · have hp := paced_run hbar hrun
    have hload : s.ld.Loaded := by
      apply hp.loaded (hp.done (hp.left 0 hn _))
      rw [hall 0 hn]
      rfl
    by_contra hne
    obtain ⟨j, hj, hlook⟩ := awake_run hbar hn hrun hload ⟨l, hl, hne⟩
    have hstays := hlook.stays
    rw [hall j hj] at hstays
    cases hstays
  · have hok := cpuOk_run hrun i
    rw [CpuSt.Ok, hall i hi] at hok
    exact hok

end Looks

/-- Two processes on two CPUs, loaded in the first slot and in the second. -/
def twoProcs : OsConfig Nat Char where
  fields := ⟨fun _ => 0, fun _ => 0⟩
  text := fun proc => if proc = 0 then ['a', 'b'] else ['c']
  numCpus := 2
  timeSlot := 2
  load := [0, 1]
  load_nodup := by decide
  barrier := true

/-- The steps of three slots, the newest first: both CPUs end with their process in the third. -/
def twoProcsRun : List OsAct :=
  [.cpu 1, .cpu 1, .cpu 1, .cpu 1, .cpu 1, .cpu 0, .cpu 0, .cpu 0, .cpu 0, .cpu 0, .ld false, .ld false, .ld false,
    .cpu 1, .cpu 1, .cpu 1, .cpu 1, .cpu 1, .cpu 0, .cpu 0, .cpu 0, .cpu 0, .cpu 0, .ld false, .ld false, .ld false,
    .cpu 1, .cpu 1, .cpu 0, .cpu 0, .cpu 0, .cpu 0, .ld false, .ld false]

theorem no_cpu_gives_up_twoProcs :
    ∃ (h : OsHistory Nat Char) (s : OsSys Nat Char), h.map Entry.act = twoProcsRun ∧
      (∀ i < 2, ∃ e, lastGet i h = some e ∧ e.before.ld.rest = [] ∧ ∀ l < MAX_PRIO, e.before.sched.level l = []) ∧
      (∀ l < MAX_PRIO, s.sched.level l = []) ∧ ∀ i < 2, (s.cpu i).proc = none := by
  obtain ⟨h, s, hrun, hact, hstop⟩ := exists_run_of_replay (osStep twoProcs) (.boot twoProcs) twoProcsRun
    (fun _ s => decide (∀ i : Nat, i < 2 → (s.cpu i).pc = .stopped)) (by decide +kernel)
  have hstop : ∀ i < 2, (s.cpu i).pc = .stopped := of_decide_eq_true hstop
  obtain ⟨hleft, hall⟩ := no_cpu_gives_up (C := twoProcs) rfl hrun
  exact ⟨h, s, hact, fun i hi => hleft i hi (.inr (hstop i hi)), hall (by decide) hstop⟩

end SimpleOs.Os
