import SimpleOs.Os.Idle
import SimpleOs.Os.Stopping

/-!
# What a slot does

The timer is a barrier here. In a slot that starts after the last `add_proc`, some CPU executes an instruction, or
nothing is left to do.

* `CpuSt.slot`, `Together`, `together_run` : no thread is a slot behind a CPU;
* `Finished`, `finished_step` : no process waits, runs or is still to be added, and this stays so;
* `runOf`, `runsOf` : the calls of `run`, with their process and slot;
* `CpuSt.Pending` : the CPU will still call `get_proc`, or `run`, in a slot; `SlotOpen`, `slotOpen_cpu`, `slotOpen_ld` :
  as long as one does;
* `slot_works`, `slots_run` : one call of `run` a slot, until all is finished.
-/

namespace SimpleOs.Os
open SimpleOs.Sched

variable {P I : Type} {C : OsConfig P I} {s s' : OsSys P I} {i j t : Nat} {act : OsAct} {r : Unit} {h : OsHistory P I}

/-! ## CPUs in step -/

/-- The slot a CPU is in. -/
def CpuSt.slot (c : CpuSt P) : Nat := if c.pc = .inSlot then c.calls - 1 else c.calls

structure Together (C : OsConfig P I) (s : OsSys P I) : Prop where
  cpu : ∀ i < C.numCpus, ∀ j < C.numCpus, (s.cpu j).pc ≠ .stopped → (s.cpu i).slot ≤ (s.cpu j).calls
  ld : ∀ i < C.numCpus, s.ld.pc ≠ .detached → (s.cpu i).slot ≤ s.ld.calls

theorem CpuSt.slot_le (c : CpuSt P) : c.slot ≤ c.calls := by
  unfold slot
  split <;> omega

theorem CpuSt.slot_of_ne {c : CpuSt P} (h : c.pc ≠ .inSlot) : c.slot = c.calls := if_neg h

theorem LdMove.calls_le (hmove : LdMove C s s') : s.ld.pc ≠ .detached ∧ s.ld.calls ≤ s'.ld.calls := by
  cases hmove with
  | early hpc => exact ⟨by rw [hpc]; decide, Nat.le_succ _⟩
  | add hpc => exact ⟨by rw [hpc]; decide, Nat.le_refl _⟩
  | again hpc => exact ⟨by rw [hpc]; decide, Nat.le_refl _⟩
  | call hpc => exact ⟨by rw [hpc]; decide, Nat.le_succ _⟩
  | next hpc => exact ⟨by rw [hpc]; decide, Nat.le_refl _⟩
  | finish hpc => exact ⟨by rw [hpc]; decide, Nat.le_refl _⟩
  | detach hpc => exact ⟨by rw [hpc]; decide, Nat.le_refl _⟩

section Steps
variable [DecidableEq P]

theorem CpuMove.slot (hmove : CpuMove C s i s') :
    (s'.cpu i).slot = (s.cpu i).slot ∨ ((s'.cpu i).slot = (s.cpu i).calls ∧ Passes C s (s.cpu i).calls) := by
  cases hmove with
  | @fetch proc sched hpc => cases proc <;> simp [CpuSt.slot, hpc]
  | finish hpc => simp [CpuSt.slot, hpc]
  | put hpc => simp [CpuSt.slot, hpc]
  | keep hpc => simp [CpuSt.slot, hpc]
  | reload hpc => simp [CpuSt.slot, hpc]
  | leave hpc => simp [CpuSt.slot, hpc]
  | skip hpc => simp [CpuSt.slot, hpc]
  | dispatch hpc => simp [CpuSt.slot, hpc]
  | run hpc => simp [CpuSt.slot, hpc]
  | call hpc => simp [CpuSt.slot, hpc]
  | pass hpc hpass => simp [CpuSt.slot, hpass]
  | detach hpc => simp [CpuSt.slot, hpc]

theorem together_cpu (ht : Together C s) (hbar : C.barrier = true) (hi : i < C.numCpus) (hmove : CpuMove C s i s') :
    Together C s' := by
  obtain ⟨hrunning, hcalls, -, -⟩ := hmove.pace
  refine ⟨fun j hj k hk hpc => ?_, fun j hj hpc => ?_⟩
  · have hbefore : (s.cpu k).pc ≠ .stopped ∧ (s.cpu k).calls ≤ (s'.cpu k).calls := by
      by_cases hki : k = i
      · rw [hki]
        exact ⟨hrunning, hcalls⟩
      · rw [hmove.other hki] at hpc ⊢
        exact ⟨hpc, Nat.le_refl _⟩
    refine Nat.le_trans ?_ hbefore.2
    by_cases hji : j = i
    · subst hji
      rcases hmove.slot with hsame | ⟨hpass, hall⟩
      · rw [hsame]
        exact ht.cpu j hj k hk hbefore.1
      · rw [hpass]
        exact (hall hbar).1 k hk hbefore.1
    · rw [hmove.other hji]
      exact ht.cpu j hj k hk hbefore.1
  · rw [hmove.ld] at hpc ⊢
    by_cases hji : j = i
    · subst hji
      rcases hmove.slot with hsame | ⟨hpass, hall⟩
      · rw [hsame]
        exact ht.ld j hj hpc
      · rw [hpass]
        exact (hall hbar).2 hpc
    · rw [hmove.other hji]
      exact ht.ld j hj hpc

theorem together_run (hbar : C.barrier = true) (hrun : Run (osStep C) (.boot C) h s) : Together C s := by
  refine hrun.invariant (I := fun _ s => Together C s) ⟨fun _ _ _ _ _ => Nat.le_refl _, fun _ _ _ => Nat.zero_le _⟩ ?_
  intro _ s act _ s' _ ht hx
  have hmove := osStep_move hx
  cases act with
  | cpu i => exact together_cpu ht hbar hmove.1 hmove.2
  | ld =>
    have hmove : LdMove C s s' := hmove
    refine ⟨?_, fun i hi _ => ?_⟩
    · rw [hmove.cpu]
      exact ht.cpu
    · rw [hmove.cpu]
      exact (ht.ld i hi hmove.calls_le.1).trans hmove.calls_le.2

end Steps

/-! ## No work left -/

structure Finished (C : OsConfig P I) (s : OsSys P I) : Prop where
  rest : s.ld.rest = []
  level : ∀ l < MAX_PRIO, s.sched.level l = []
  cpu : ∀ i < C.numCpus, (s.cpu i).proc = none

theorem finished_step [DecidableEq P] (hf : Finished C s) (hmove : OsMove C s act s') : Finished C s' := by
  cases act with
  | cpu i =>
    obtain ⟨hi, hmove⟩ := hmove
    have hnone := hf.cpu i hi
    have hcpu : (∀ l < MAX_PRIO, s'.sched.level l = []) ∧ (s'.cpu i).proc = none := by
      cases hmove with
      | fetch _ _ hget =>
        obtain ⟨rfl, hempty⟩ := get_empty hf.level hget
        exact ⟨hempty, congrArg CpuSt.proc (OsSys.setCpu_self ..)⟩
      | reload _ hget =>
        obtain ⟨rfl, hempty⟩ := get_empty hf.level hget
        exact ⟨hempty, congrArg CpuSt.proc (OsSys.setCpu_self ..)⟩
      | finish _ hproc | put _ hproc | keep _ hproc | dispatch _ hproc | run _ hproc => cases hproc.symm.trans hnone
      | leave | skip | call | pass | detach =>
        refine ⟨hf.level, ?_⟩
        rw [OsSys.setCpu_self]
        exact hnone
    refine ⟨?_, hcpu.1, hmove.forall_cpu (p := fun j c => j < C.numCpus → c.proc = none) (fun _ => hcpu.2) hf.cpu⟩
    rw [hmove.ld]
    exact hf.rest
  | ld early =>
    have hrest := hf.rest
    have hmove : LdMove C s s' := hmove
    cases hmove with
    | early _ hcons | add _ hcons => cases hcons.symm.trans hrest
    | again | call | finish | detach => exact ⟨hrest, hf.level, hf.cpu⟩
    | next =>
      refine ⟨?_, hf.level, hf.cpu⟩
      show (LdSt.next s.ld.rest s.ld.calls).rest = []
      rw [LdSt.next]
      exact hrest

theorem get_empty_levels {F : PcbFields P} {sched sched' : SchedT P} (hget : SchedOutcome F sched .get none sched') :
    ∀ l < MAX_PRIO, sched'.level l = [] := by
  cases hget with
  | enter hact => cases hact
  | idle hall => exact hall

/-! ## Calls of `run` -/

/-- The process and the slot of a call of `run`. -/
def runOf (s : OsSys P I) : OsAct → Option (P × Nat)
  | .cpu i => if (s.cpu i).pc = .run then (s.cpu i).proc.map (·, (s.cpu i).calls) else none
  | .ld _ => none

def runsOf (h : OsHistory P I) : List (P × Nat) := h.filterMap fun e => runOf e.before e.act

theorem mem_runsOf_cons {x : P × Nat} (e : Entry (OsSys P I) OsAct Unit) (hx : x ∈ runsOf h) : x ∈ runsOf (e :: h) := by
  obtain ⟨e', he', hrun⟩ := List.mem_filterMap.mp hx
  exact List.mem_filterMap.mpr ⟨e', List.mem_cons_of_mem _ he', hrun⟩

/-! ## A slot -/

/-- The CPU has yet to find nothing, or to execute an instruction, in slot `t`. -/
def CpuSt.Pending (c : CpuSt P) (t : Nat) : Prop :=
  c.pc.past = false ∧ (c.calls < t ∨ (c.calls = t ∧ c.pc ≠ .toCall ∧ ¬ c.Idle))

/-- The CPU has come to the end of slot `t`, and holds nothing. -/
def CpuSt.Rested (c : CpuSt P) (t : Nat) : Prop := c.slot = t → c.pc = .toCall ∨ c.pc = .inSlot → c.proc = none

/-- Some CPU has not come to the end of slot `t`, and those that have hold nothing. -/
structure SlotOpen (C : OsConfig P I) (t : Nat) (s : OsSys P I) : Prop where
  pending : ∃ i < C.numCpus, (s.cpu i).Pending t
  rested : ∀ i < C.numCpus, (s.cpu i).Rested t

/-- An instruction was executed in slot `t`, or nothing is left to do, or the slot is not over. -/
def Worked (C : OsConfig P I) (t : Nat) (h : OsHistory P I) (s : OsSys P I) : Prop :=
  (∃ x ∈ runsOf h, x.2 = t) ∨ Finished C s ∨ SlotOpen C t s

theorem CpuSt.Ok.none_of_past {c : CpuSt P} (hok : c.Ok) (hpast : c.pc.past = true) : c.proc = none := by
  cases hpc : c.pc with
  | leaving =>
    rw [CpuSt.Ok, hpc] at hok
    exact hok
  | stopped =>
    rw [CpuSt.Ok, hpc] at hok
    exact hok
  | _ =>
    rw [hpc] at hpast
    cases hpast

theorem CpuSt.Rested.none {c : CpuSt P} (hr : c.Rested t) (hok : c.Ok) (hslot : c.slot ≤ t) (hp : ¬ c.Pending t) :
    c.proc = none := by
  by_cases hpast : c.pc.past = true
  · exact hok.none_of_past hpast
  · have hpast : c.pc.past = false := by simpa using hpast
    have hge : t ≤ c.calls := by
      by_contra hlt
      exact hp ⟨hpast, .inl (by omega)⟩
    by_cases hin : c.pc = .inSlot
    · rw [CpuSt.slot, if_pos hin] at hslot
      by_cases heq : c.calls = t
      · exact absurd ⟨hpast, .inr ⟨heq, by rw [hin]; decide, fun hidle => by cases hin.symm.trans hidle.1⟩⟩ hp
      · refine hr ?_ (.inr hin)
        rw [CpuSt.slot, if_pos hin]
        omega
    · rw [CpuSt.slot_of_ne hin] at hslot
      have heq : c.calls = t := by omega
      by_cases hcall : c.pc = .toCall
      · exact hr ((CpuSt.slot_of_ne hin).trans heq) (.inl hcall)
      · by_contra hproc
        exact hp ⟨hpast, .inr ⟨heq, hcall, fun hidle => hproc hidle.2⟩⟩

section Slot
variable [DecidableEq P]

/-- The slot stays open: the CPU that made the step still has it before it, if it had. -/
theorem SlotOpen.keep (ho : SlotOpen C t s) (hmove : CpuMove C s i s')
    (hpend : (s.cpu i).Pending t → (s'.cpu i).Pending t) (hrest : (s'.cpu i).Rested t) : SlotOpen C t s' := by
  obtain ⟨j, hj, hp⟩ := ho.pending
  refine ⟨⟨j, hj, ?_⟩, hmove.forall_cpu (p := fun j c => j < C.numCpus → c.Rested t) (fun _ => hrest) ho.rested⟩
  by_cases hji : j = i
  · rw [hji] at hp ⊢
    exact hpend hp
  · rw [hmove.other hji]
    exact hp

theorem SlotOpen.goes (ho : SlotOpen C t s) (hmove : CpuMove C s i s') {c : CpuSt P} (hself : s'.cpu i = c)
    (hcalls : c.calls = (s.cpu i).calls) (hpast : c.pc.past = (s.cpu i).pc.past) (hcall : c.pc ≠ .toCall)
    (hin : c.pc ≠ .inSlot) (hidle : ¬ c.Idle) : SlotOpen C t s' := by
  subst hself
  refine ho.keep hmove (fun hp => ⟨hpast.trans hp.1, ?_⟩) fun _ hpc => ?_
  · rw [hcalls]
    exact hp.2.imp_right fun hc => ⟨hc.1, hcall, hidle⟩
  · rcases hpc with hpc | hpc
    · exact absurd hpc hcall
    · exact absurd hpc hin

omit [DecidableEq P] in
theorem SlotOpen.slot_le (ho : SlotOpen C t s) (ht : Together C s) (hi : i < C.numCpus) : (s.cpu i).slot ≤ t := by
  obtain ⟨j, hj, hpast, hcalls⟩ := ho.pending
  have hle := ht.cpu i hi j hj fun hpc => by rw [hpc] at hpast; cases hpast
  omega

/-- A CPU finds nothing: it was the last to look, and nothing is left to do, or the slot stays open. -/
theorem SlotOpen.nothing (ho : SlotOpen C t s) (ht : Together C s) (hok : ∀ j, (s.cpu j).Ok) (hrest : s.ld.rest = [])
    (hmove : CpuMove C s i s') (hproc : (s'.cpu i).proc = none) (hempty : ∀ l < MAX_PRIO, s'.sched.level l = []) :
    Finished C s' ∨ SlotOpen C t s' := by
  have hrested : ∀ j < C.numCpus, (s'.cpu j).Rested t :=
    hmove.forall_cpu (p := fun j c => j < C.numCpus → c.Rested t) (fun _ _ _ => hproc) ho.rested
  by_cases hp : ∃ j < C.numCpus, (s'.cpu j).Pending t
  · exact .inr ⟨hp, hrested⟩
  · refine .inl ⟨by rw [hmove.ld]; exact hrest, hempty, fun j hj => ?_⟩
    by_cases hji : j = i
    · rw [hji]
      exact hproc
    · have hnot : ¬ (s'.cpu j).Pending t := fun hpend => hp ⟨j, hj, hpend⟩
      rw [hmove.other hji] at hnot ⊢
      exact (ho.rested j hj).none (hok j) (ho.slot_le ht hj) hnot

/-- The last CPU that had the slot before it leaves before that: all have left. -/
theorem SlotOpen.left (ht : Together C s) (ho : SlotOpen C t s) (hok : ∀ j, (s.cpu j).Ok) (ha : Awake C s')
    (hload : s.ld.Loaded) (hi : i < C.numCpus) (hpc : (s.cpu i).pc = .recheck) (hproc : (s.cpu i).proc = none)
    (hmove : CpuMove C s i s') (hleft : s'.cpu i = { s.cpu i with pc := .leaving }) :
      Finished C s' ∨ SlotOpen C t s' := by
  have hleft' : (s'.cpu i).pc.past = true := by
    rw [hleft]
    rfl
  have hrested : (s'.cpu i).Rested t := fun _ _ => by
    rw [hleft]
    exact hproc
  by_cases hp : ∃ j < C.numCpus, (s'.cpu j).Pending t
  · exact .inr ⟨hp, hmove.forall_cpu (p := fun j c => j < C.numCpus → c.Rested t) (fun _ => hrested) ho.rested⟩
  · -- the CPU was the one that had the slot before it, so it was in a slot before it
    have hcalls : (s.cpu i).calls < t := by
      obtain ⟨j, hj, hpend⟩ := ho.pending
      by_cases hji : j = i
      · rw [hji] at hpend
        exact hpend.2.resolve_right fun hc => hc.2.2 ⟨hpc, hproc⟩
      · rw [← hmove.other hji] at hpend
        exact absurd ⟨j, hj, hpend⟩ hp
    have hpast : ∀ j < C.numCpus, (s'.cpu j).pc.past = true := by
      intro j hj
      by_cases hji : j = i
      · rw [hji]
        exact hleft'
      · by_contra hpast
        have hpast : (s'.cpu j).pc.past = false := by simpa using hpast
        apply hp
        refine ⟨j, hj, hpast, ?_⟩
        rw [hmove.other hji]
        have hslot := ht.cpu j hj i hi (by rw [hpc]; decide)
        by_cases hin : (s.cpu j).pc = .inSlot
        · rw [CpuSt.slot, if_pos hin] at hslot
          rcases Nat.lt_or_ge (s.cpu j).calls t with hlt | hge
          · exact .inl hlt
          · exact .inr ⟨by omega, by rw [hin]; decide, fun hidle => by cases hin.symm.trans hidle.1⟩
        · rw [CpuSt.slot_of_ne hin] at hslot
          exact .inl (by omega)
    refine .inl ⟨by rw [hmove.ld]; exact hload.1, fun l hl => ?_, fun j hj => ?_⟩
    · by_contra hne
      obtain ⟨j, hj, hlook⟩ := ha (by rw [hmove.ld]; exact hload) ⟨l, hl, hne⟩
      cases (hpast j hj).symm.trans hlook.stays
    · have hok' : (s'.cpu j).Ok := hmove.forall_cpu (p := fun _ c => c.Ok) (hmove.ok (hok i)) hok j
      exact hok'.none_of_past (hpast j hj)

/-- A step of a CPU in a slot: it executes an instruction in it, or it was the last to find nothing to do, or the
slot stays open. -/
theorem slotOpen_cpu (ho : SlotOpen C t s) (ht : Together C s) (hok : ∀ j, (s.cpu j).Ok) (ha : Awake C s')
    (hload : s.ld.Loaded) (hi : i < C.numCpus) (hmove : CpuMove C s i s') : Worked C t (⟨s, .cpu i, r⟩ :: h) s' := by
  have hslot := ho.slot_le ht hi
  have hrest := ho.rested i hi
  have hcpu := hmove
  cases hmove with
  | @fetch proc sched hpc hproc hget =>
    cases proc with
    | none =>
      refine .inr (ho.nothing ht hok hload.1 hcpu ?_ (get_empty_levels hget))
      exact congrArg CpuSt.proc (OsSys.setCpu_self ..)
    | some proc =>
      have hself := OsSys.setCpu_self s i
      refine .inr (.inr (ho.goes hcpu (hself _) rfl ?_ ?_ ?_ ?_))
      all_goals simp [CpuPc.past, CpuSt.Idle, hpc]
  | @reload freed proc sched hpc hget =>
    cases proc with
    | none =>
      refine .inr (ho.nothing ht hok hload.1 hcpu ?_ (get_empty_levels hget))
      exact congrArg CpuSt.proc (OsSys.setCpu_self ..)
    | some proc =>
      have hself := OsSys.setCpu_self s i
      refine .inr (.inr (ho.goes hcpu (hself _) rfl ?_ ?_ ?_ ?_))
      all_goals simp [CpuPc.past, CpuSt.Idle, hpc]
  | leave hpc hproc =>
    exact .inr (ho.left ht hok ha hload hi hpc hproc hcpu (OsSys.setCpu_self ..))
  | @run proc hpc hproc =>
    have hcalls : (s.cpu i).calls ≤ t := by
      rw [CpuSt.slot_of_ne (by rw [hpc]; decide)] at hslot
      exact hslot
    rcases Nat.lt_or_eq_of_le hcalls with hlt | heq
    · refine .inr (.inr (ho.keep hcpu (fun _ => ?_) ?_))
      · rw [OsSys.setCpu_self]
        exact ⟨rfl, .inl hlt⟩
      · rw [OsSys.setCpu_self]
        intro hs
        rw [CpuSt.slot_of_ne (by simp)] at hs
        exact absurd hs (Nat.ne_of_lt hlt)
    · refine .inl ⟨(proc, (s.cpu i).calls), ?_, heq⟩
      refine List.mem_filterMap.mpr ⟨_, List.mem_cons_self, ?_⟩
      simp [runOf, hpc, hproc]
  | skip hpc hproc =>
    refine .inr (.inr (ho.keep hcpu (fun hp => ?_) ?_))
    · rw [OsSys.setCpu_self]
      exact ⟨rfl, .inl (hp.2.resolve_right fun hc => hc.2.2 ⟨hpc, hproc⟩)⟩
    · rw [OsSys.setCpu_self]
      exact fun _ _ => hproc
  | call hpc =>
    refine .inr (.inr (ho.keep hcpu (fun hp => ?_) ?_))
    · have hlt := hp.2.resolve_right fun hc => hc.2.1 hpc
      rw [OsSys.setCpu_self]
      refine ⟨rfl, ?_⟩
      simp only [CpuSt.Idle, ne_eq, reduceCtorEq, not_false_eq_true, false_and, and_true]
      omega
    · rw [OsSys.setCpu_self]
      intro hs _
      have hs : (s.cpu i).calls + 1 - 1 = t := hs
      refine hrest ?_ (.inl hpc)
      rw [CpuSt.slot_of_ne (by rw [hpc]; decide)]
      omega
  | finish hpc | put hpc | pass hpc | detach hpc =>
    have hself := OsSys.setCpu_self s i
    refine .inr (.inr (ho.goes hcpu (hself _) rfl ?_ ?_ ?_ ?_))
    all_goals simp [CpuPc.past, CpuSt.Idle, hpc]
  | keep hpc hproc | dispatch hpc hproc =>
    have hself := OsSys.setCpu_self s i
    refine .inr (.inr (ho.goes hcpu (hself _) rfl ?_ ?_ ?_ ?_))
    all_goals simp [CpuPc.past, CpuSt.Idle, hpc, hproc]

omit [DecidableEq P] in
/-- The loader makes its last call of `next_slot`: no CPU has come to a slot after it. -/
theorem slotOpen_loaded (hp : Paced C s) (ht : Together C s) (hn : 0 < C.numCpus) (hload : ¬ s.ld.Loaded)
    (hdet : s.ld.pc ≠ .detached) (hcpu : s'.cpu = s.cpu) (hcalls : s.ld.calls < t) : SlotOpen C t s' := by
  refine ⟨⟨0, hn, ?_⟩, fun i hi hslot => ?_⟩
  · rw [hcpu]
    have hslot := ht.ld 0 hn hdet
    refine ⟨(hp.willLook hload hn).stays, ?_⟩
    by_cases hin : (s.cpu 0).pc = .inSlot
    · rw [CpuSt.slot, if_pos hin] at hslot
      rcases Nat.lt_or_ge (s.cpu 0).calls t with hlt | hge
      · exact .inl hlt
      · exact .inr ⟨by omega, by rw [hin]; decide, fun hidle => by cases hin.symm.trans hidle.1⟩
    · rw [CpuSt.slot_of_ne hin] at hslot
      exact .inl (by omega)
  · rw [hcpu] at hslot
    have hle := ht.ld i hi hdet
    omega

omit [DecidableEq P] in
/-- A step of the loader when it is through with its processes, or when it becomes so. -/
theorem worked_ld (hn : 0 < C.numCpus) (hp : Paced C s) (ht : Together C s) (hmove : LdMove C s s') {early : Bool}
    (hw : s.ld.Loaded → s.ld.calls ≤ t → Worked C t h s) (hload : s'.ld.Loaded) (hcalls : s'.ld.calls ≤ t) :
    Worked C t (⟨s, .ld early, r⟩ :: h) s' := by
  have hsame : s.ld.Loaded → s.ld.calls ≤ t → s'.sched = s.sched → s'.cpu = s.cpu → s'.ld.rest = [] →
      Worked C t (⟨s, .ld early, r⟩ :: h) s' := by
    intro hl hc hsched hcpu hrest
    rcases hw hl hc with ⟨x, hx, hslot⟩ | hf | ho
    · exact .inl ⟨x, mem_runsOf_cons _ hx, hslot⟩
    · exact .inr (.inl ⟨hrest, by rw [hsched]; exact hf.level, by rw [hcpu]; exact hf.cpu⟩)
    · exact .inr (.inr ⟨by rw [hcpu]; exact ho.pending, by rw [hcpu]; exact ho.rested⟩)
  have hrest := hload.1
  have hpc' := hload.2
  cases hmove with
  | early => cases hrest
  | add => exact absurd rfl hpc'
  | again hpc => exact hsame ⟨hrest, by rw [hpc]; decide⟩ hcalls rfl rfl hrest
  | call hpc =>
    exact .inr (.inr (slotOpen_loaded hp ht hn (fun hl => hl.2 hpc) (by rw [hpc]; decide) rfl hcalls))
  | next hpc =>
    have hnext : (LdSt.next s.ld.rest s.ld.calls).calls ≤ t := hcalls
    have hrest' : (LdSt.next s.ld.rest s.ld.calls).rest = [] := hrest
    rw [LdSt.next] at hnext hrest'
    exact hsame ⟨hrest', by rw [hpc]; decide⟩ hnext rfl rfl hrest
  | finish hpc => exact hsame ⟨hrest, by rw [hpc]; decide⟩ hcalls rfl rfl hrest
  | detach hpc => exact hsame ⟨hrest, by rw [hpc]; decide⟩ hcalls rfl rfl hrest

/-- In every state reached, a slot after the last `add_proc` has worked, or is open. -/
theorem worked_run (hbar : C.barrier = true) (hn : 0 < C.numCpus) (hrun : Run (osStep C) (.boot C) h s)
    (hload : s.ld.Loaded) (hcalls : s.ld.calls ≤ t) : Worked C t h s := by
  induction hrun with
  | start =>
    refine .inr (.inr ⟨⟨0, hn, rfl, ?_⟩, fun _ _ _ hpc => ?_⟩)
    · rcases Nat.eq_zero_or_pos t with rfl | hpos
      · exact .inr ⟨rfl, nofun, fun hidle => nomatch hidle.1⟩
      · exact .inl hpos
    · rcases hpc with hpc | hpc
      · cases hpc
      · cases hpc
  | @next h s s' a r hrun hx ih =>
    have hmove := osStep_move hx
    cases a with
    | cpu i =>
      obtain ⟨hi, hmove⟩ := hmove
      rw [hmove.ld] at hload hcalls
      rcases ih hload hcalls with ⟨x, hx, hslot⟩ | hf | ho
      · exact .inl ⟨x, mem_runsOf_cons _ hx, hslot⟩
      · have hmove' : OsMove C s (.cpu i) s' := ⟨hi, hmove⟩
        have hf' : Finished C s' := finished_step hf hmove'
        exact .inr (.inl hf')
      · exact slotOpen_cpu ho
          (together_run hbar hrun) (cpuOk_run hrun) (awake_run hbar hn (hrun.next hx)) hload hi hmove
    | ld early => exact worked_ld hn (paced_run hbar hrun) (together_run hbar hrun) hmove ih hload hcalls

/-- A slot that is over has worked. -/
theorem slot_works (hbar : C.barrier = true) (hn : 0 < C.numCpus) (hrun : Run (osStep C) (.boot C) h s)
    (hload : s.ld.Loaded) (hcalls : s.ld.calls ≤ t)
    (hover : ∀ i < C.numCpus, (s.cpu i).pc ≠ .stopped → t < (s.cpu i).calls) :
    (∃ x ∈ runsOf h, x.2 = t) ∨ Finished C s := by
  rcases worked_run hbar hn hrun hload hcalls with hw | hf | ho
  · exact .inl hw
  · exact .inr hf
  · obtain ⟨j, hj, hpast, hpend⟩ := ho.pending
    have hlt := hover j hj fun hpc => by rw [hpc] at hpast; cases hpast
    omega

/-- All slots: there are no more of them than calls of `run`, until all is finished. -/
theorem slots_run (hbar : C.barrier = true) (hn : 0 < C.numCpus) (hrun : Run (osStep C) (.boot C) h s)
    (hload : s.ld.Loaded) {T : Nat} (hover : ∀ i < C.numCpus, (s.cpu i).pc ≠ .stopped → T ≤ (s.cpu i).calls) :
    T ≤ s.ld.calls + (runsOf h).length ∨ Finished C s := by
  by_cases hf : Finished C s
  · exact .inr hf
  · have hslots : List.range' s.ld.calls (T - s.ld.calls) ⊆ (runsOf h).map Prod.snd := by
      intro u hu
      obtain ⟨hge, hlt⟩ := List.mem_range'_1.mp hu
      have hover' : ∀ i < C.numCpus, (s.cpu i).pc ≠ .stopped → u < (s.cpu i).calls := fun i hi hpc => by
        have hT := hover i hi hpc
        omega
      rcases slot_works hbar hn hrun hload hge hover' with ⟨x, hx, rfl⟩ | hf'
      · exact List.mem_map_of_mem hx
      · exact absurd hf' hf
    have hle := List.Nodup.length_le_of_subset List.nodup_range' hslots
    rw [List.length_range', List.length_map] at hle
    exact .inl (by omega)

end Slot

end SimpleOs.Os
