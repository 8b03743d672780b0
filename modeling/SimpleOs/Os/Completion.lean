import Mathlib.Algebra.Order.BigOperators.Group.Finset
import SimpleOs.Os.Origin
import SimpleOs.Os.Slots
import SimpleOs.Os.TimeSlice

/-!
# Completion

The timer is a barrier here.

* `runCount`, `Due`, `due_step` : the calls of `run` for a process, and the processes that will have one more;
* `Counted`, `counted_run` : no process is run more often than its program has instructions;
* `work`, `runsOf_le` : so there are no more calls than instructions;
* `completes` : as many slots after the last `add_proc` as there are instructions, every program has been executed.
-/

namespace SimpleOs.Os
open SimpleOs.Sched

variable {P I : Type} [DecidableEq P] {C : OsConfig P I} {s s' : OsSys P I} {i j : Nat} {act : OsAct} {r : Unit}
  {h : OsHistory P I} {x proc : P}

/-- The calls of `run` for a process. -/
def runCount (h : OsHistory P I) (proc : P) : Nat := ((runsOf h).map Prod.fst).count proc

/-- The most calls of `run` that a process needs: a program without instructions needs one. -/
def OsConfig.turns (C : OsConfig P I) (proc : P) : Nat := max 1 (C.text proc).length

/-- The calls of `run` that all processes need. -/
def work (C : OsConfig P I) : Nat := C.load.foldr (fun x n => C.turns x + n) 0

inductive Due (s : OsSys P I) (x : P) : Prop
  | level (l : Nat) (h : x ∈ s.sched.level l)
  | rest (h : x ∈ s.ld.rest)
  | cpu (i : Nat) (h : (s.cpu i).proc = some x) (hpc : (s.cpu i).pc = .recheck ∨ (s.cpu i).pc = .run)

structure Counted (C : OsConfig P I) (h : OsHistory P I) (s : OsSys P I) (x : P) : Prop where
  pc : runCount h x = s.procPc x ∨ C.text x = []
  le : runCount h x ≤ C.turns x
  due : Due s x → runCount h x < C.turns x

/-! ## Which processes are due -/

theorem top_not_ended (hx : cpuRoutine C s i = .ok s') (hpc : (s.cpu i).pc = .top) (hproc : (s.cpu i).proc = some proc)
    (hpc' : (s'.cpu i).pc ≠ .reload true) : s.procPc proc ≠ (C.text proc).length := by
  intro hend
  unfold cpuRoutine at hx
  simp only [hpc, hproc, if_pos hend] at hx
  cases hx
  exact hpc' (congrArg CpuSt.pc (OsSys.setCpu_self ..))

/-- The process did not have to be due: it has not ended on its CPU. -/
def Unended (C : OsConfig P I) (s : OsSys P I) (i : Nat) (x : P) : Prop :=
  (s.cpu i).proc = some x ∧ s.procPc x ≠ (C.text x).length

theorem due_level (hx : cpuRoutine C s i = .ok s') (hmove : CpuMove C s i s') {l : Nat} (hl : x ∈ s'.sched.level l) :
    Due s x ∨ Unended C s i x := by
  have hwait : ∀ l, ∀ y ∈ s.sched.level l, Due s y := fun l y hy => .level l hy
  cases hmove with
  | fetch _ _ hget => exact .inl ((get_within hwait hget).1 l x hl)
  | reload _ hget => exact .inl ((get_within hwait hget).1 l x hl)
  | @put proc hpc hproc =>
    rcases mem_enter hl with hl | rfl
    · exact .inl (.level l hl)
    · exact .inr ⟨hproc, top_not_ended hx hpc hproc (by simp)⟩
  | @run proc =>
    have hl : x ∈ (run C s proc).sched.level l := hl
    rw [run_sched] at hl
    exact .inl (.level l hl)
  | _ => exact .inl (.level l hl)

theorem due_self (hx : cpuRoutine C s i = .ok s') (hmove : CpuMove C s i s') (hproc' : (s'.cpu i).proc = some x)
    (hpc' : (s'.cpu i).pc = .recheck ∨ (s'.cpu i).pc = .run) : Due s x ∨ Unended C s i x := by
  have hwait : ∀ l, ∀ y ∈ s.sched.level l, Due s y := fun l y hy => .level l hy
  have hself := OsSys.setCpu_self s i
  cases hmove with
  | fetch _ _ hget =>
    rw [hself] at hproc'
    exact .inl ((get_within hwait hget).2 x hproc')
  | reload _ hget =>
    rw [hself] at hproc'
    exact .inl ((get_within hwait hget).2 x hproc')
  | keep hpc hproc =>
    have hne := top_not_ended hx hpc hproc (by rw [hself]; simp)
    rw [hself] at hproc'
    cases hproc.symm.trans hproc'
    exact .inr ⟨hproc, hne⟩
  | dispatch hpc =>
    rw [hself] at hproc'
    exact .inl (.cpu i hproc' (.inl hpc))
  | finish | put | leave | skip | call | pass | detach =>
    rw [hself] at hpc'
    simp at hpc'
  | run =>
    rw [OsSys.setCpu_self] at hpc'
    simp at hpc'

/-- A step makes a process due only if it was, or if it has not ended on its CPU. -/
theorem due_cpu (hx : cpuRoutine C s i = .ok s') (hmove : CpuMove C s i s') (hd : Due s' x) :
    Due s x ∨ Unended C s i x := by
  cases hd with
  | level l hl => exact due_level hx hmove hl
  | rest h =>
    rw [hmove.ld] at h
    exact .inl (.rest h)
  | cpu j h hpc =>
    by_cases hj : j = i
    · subst hj
      exact due_self hx hmove h hpc
    · rw [hmove.other hj] at h hpc
      exact .inl (.cpu j h hpc)

omit [DecidableEq P] in
theorem due_ld (hmove : LdMove C s s') (hd : Due s' x) : Due s x := by
  cases hd with
  | level l hl =>
    cases hmove with
    | @add y rest hpc hrest =>
      rcases mem_enter hl with hl | rfl
      · exact .level l hl
      · refine .rest ?_
        rw [hrest]
        exact List.mem_cons_self
    | _ => exact .level l hl
  | rest h =>
    have hsub : ∀ y ∈ s'.ld.rest, y ∈ s.ld.rest := by
      cases hmove with
      | early hpc hrest =>
        rw [hrest]
        exact fun y hy => hy
      | add hpc hrest =>
        rw [hrest]
        exact fun y hy => List.mem_cons_of_mem _ hy
      | _ => exact fun y hy => hy
    exact .rest (hsub x h)
  | cpu j h hpc =>
    rw [hmove.cpu] at h hpc
    exact .cpu j h hpc

/-! ## Counting -/

theorem runCount_cons (e : Entry (OsSys P I) OsAct Unit) (x : P) :
    runCount (e :: h) x = runCount h x + if (runOf e.before e.act).map Prod.fst = some x then 1 else 0 := by
  unfold runCount runsOf
  rw [List.filterMap_cons]
  cases hrun : runOf e.before e.act with
  | none => simp
  | some y => simp [List.count_cons]

theorem Counted.of_unended (hc : Counted C h s x) (he : Executed C s x) (hne : Unended C s i x) :
    runCount h x < C.turns x := by
  have hlt : s.procPc x < (C.text x).length := lt_of_le_of_ne he.size hne.2
  unfold OsConfig.turns
  rcases hc.pc with hpc | hnil
  · omega
  · rw [hnil] at hlt
    cases hlt

theorem Counted.other (hc : Counted C h s x) {act : OsAct} (hrun : (runOf s act).map Prod.fst ≠ some x)
    (hpc : s'.procPc x = s.procPc x) (hdue : Due s' x → runCount h x < C.turns x) :
    Counted C (⟨s, act, r⟩ :: h) s' x := by
  have hcount : runCount (⟨s, act, r⟩ :: h) x = runCount h x := by
    rw [runCount_cons, if_neg hrun, Nat.add_zero]
  refine ⟨?_, ?_, ?_⟩
  · rw [hcount, hpc]
    exact hc.pc
  · rw [hcount]
    exact hc.le
  · rw [hcount]
    exact hdue

theorem Counted.ran {own : P → Owner} (hc : Counted C h s x) (ho : Owned own C s) (he : Executed C s x)
    (hpc : (s.cpu i).pc = .run) (hproc : (s.cpu i).proc = some x) {c : CpuSt P} (hcpu : c.pc = .toCall) :
    Counted C (⟨s, .cpu i, r⟩ :: h) ((run C s x).setCpu i c) x := by
  have hdue := hc.due (.cpu i hproc (.inr hpc))
  have hcount : runCount (⟨s, .cpu i, r⟩ :: h) x = runCount h x + 1 := by
    rw [runCount_cons]
    simp [runOf, hpc, hproc]
  have hown := ho.cpu i x hproc
  refine ⟨?_, ?_, fun hd => ?_⟩
  · rw [hcount]
    show _ = (run C s x).procPc x ∨ _
    unfold Os.run
    cases hins : (C.text x)[s.procPc x]? with
    | none =>
      have hle := List.getElem?_eq_none_iff.mp hins
      refine .inr (List.length_eq_zero_iff.mp ?_)
      have hsize := he.size
      unfold OsConfig.turns at hdue
      rcases hc.pc with heq | hnil
      · omega
      · rw [hnil]
        rfl
    | some ins =>
      dsimp only
      rw [Function.update_self]
      exact hc.pc.imp_left (congrArg (· + 1))
  · rw [hcount]
    exact hdue
  · exfalso
    cases hd with
    | level l hl =>
      have hl : x ∈ (Os.run C s x).sched.level l := hl
      rw [run_sched] at hl
      cases hown.symm.trans (ho.level l x hl)
    | rest hin =>
      have hin : x ∈ (Os.run C s x).ld.rest := hin
      rw [run_ld] at hin
      cases hown.symm.trans (ho.rest x hin)
    | cpu j hj hpc' =>
      by_cases hji : j = i
      · rw [hji, OsSys.setCpu_self, hcpu] at hpc'
        simp at hpc'
      · rw [OsSys.setCpu_of_ne _ hji, run_cpu] at hj
        cases hown.symm.trans (ho.cpu j x hj)
        exact hji rfl

theorem counted_step {own : P → Owner} (hc : Counted C h s x) (ho : Owned own C s) (he : Executed C s x)
    (hx : osStep C s act = .ok (r, s')) : Counted C (⟨s, act, r⟩ :: h) s' x := by
  have hmove := osStep_move hx
  cases act with
  | cpu i =>
    have hroutine := cpuRoutine_of_osStep hx
    obtain ⟨-, hmove⟩ := hmove
    have hdue : Due s' x → runCount h x < C.turns x := fun hd => by
      rcases due_cpu hroutine hmove hd with hd | hne
      · exact hc.due hd
      · exact hc.of_unended he hne
    cases hmove with
    | @run y hpc hproc =>
      by_cases hy : y = x
      · subst hy
        exact hc.ran ho he hpc hproc rfl
      · refine hc.other ?_ ?_ hdue
        · simp [runOf, hpc, hproc, hy]
        · show (Os.run C s y).procPc x = s.procPc x
          unfold Os.run
          split
          · rfl
          · exact Function.update_of_ne (Ne.symm hy) ..
    | _ =>
      refine hc.other ?_ rfl hdue
      simp [runOf, *]
  | ld early =>
    have hmove : LdMove C s s' := hmove
    refine hc.other (by simp [runOf]) (congrFun hmove.procPc x) fun hd => hc.due (due_ld hmove hd)

theorem counted_boot (C : OsConfig P I) (x : P) : Counted C [] (.boot C) x where
  pc := .inl rfl
  le := Nat.zero_le _
  due := fun _ => Nat.lt_of_lt_of_le Nat.zero_lt_one (Nat.le_max_left ..)

theorem counted_run (hrun : Run (osStep C) (.boot C) h s) (x : P) : Counted C h s x :=
  hrun.invariant (I := fun h s => Counted C h s x) (counted_boot C x)
    fun _ _ _ _ _ hrun hc hx => counted_step hc (owned_run hrun).choose_spec (executed_run hrun x) hx

theorem runsOf_load (hrun : Run (osStep C) (.boot C) h s) : ∀ x ∈ runsOf h, x.1 ∈ C.load := by
  induction hrun with
  | start => exact fun x hx => absurd hx List.not_mem_nil
  | @next h s s' a r hrun hx ih =>
    intro x hx
    obtain ⟨e, he, hrunOf⟩ := List.mem_filterMap.mp hx
    rcases List.mem_cons.mp he with rfl | he
    · cases a with
      | cpu i =>
        simp only [runOf] at hrunOf
        split at hrunOf
        · obtain ⟨y, hy, rfl⟩ := Option.map_eq_some_iff.mp hrunOf
          exact (within_run hrun).cpu i y hy
        · cases hrunOf
      | ld => cases hrunOf
    · exact ih x (List.mem_filterMap.mpr ⟨e, he, hrunOf⟩)

/-- There are no more calls of `run` than the processes need. -/
theorem runsOf_le (hrun : Run (osStep C) (.boot C) h s) : (runsOf h).length ≤ work C := by
  have hmem : ∀ y ∈ (((runsOf h).map Prod.fst : List P) : Multiset P), y ∈ C.load.toFinset := by
    intro y hy
    obtain ⟨x, hx, rfl⟩ := List.mem_map.mp (Multiset.mem_coe.mp hy)
    exact List.mem_toFinset.mpr (runsOf_load hrun x hx)
  have hsum := Multiset.sum_count_eq_card hmem
  rw [Multiset.coe_card, List.length_map] at hsum
  rw [← hsum]
  calc ∑ y ∈ C.load.toFinset, Multiset.count y (((runsOf h).map Prod.fst : List P) : Multiset P)
      ≤ ∑ y ∈ C.load.toFinset, C.turns y := Finset.sum_le_sum fun y _ => by
        rw [Multiset.coe_count]
        exact (counted_run hrun y).le
    _ = (C.load.map C.turns).sum := List.sum_toFinset _ C.load_nodup
    _ = work C := List.foldr_map

/-! ## All programs -/

theorem freed_of_finished (hfit : Fits C) (hrun : Run (osStep C) (.boot C) h s) (hf : Finished C s) (hx : x ∈ C.load) :
    s.freed x = true := by
  cases placed_run hfit hrun hx with
  | freed hfreed => exact hfreed
  | rest hin =>
    rw [hf.rest] at hin
    cases hin
  | level hprio hin =>
    rw [hf.level _ hprio] at hin
    cases hin
  | cpu hi hproc => cases hproc.symm.trans (hf.cpu _ hi)

/-- Completion: when the CPUs that go on have called `next_slot` more often after the last `add_proc` than the
processes need calls of `run`, every program has been executed. -/
theorem completes (hbar : C.barrier = true) (hn : 0 < C.numCpus) (hfit : Fits C) (hrun : Run (osStep C) (.boot C) h s)
    (hload : s.ld.Loaded) {T : Nat} (hover : ∀ i < C.numCpus, (s.cpu i).pc ≠ .stopped → T ≤ (s.cpu i).calls)
    (hlate : s.ld.calls + work C < T) (hx : x ∈ C.load) : s.freed x = true ∧ s.executed x = C.text x := by
  have hf : Finished C s := by
    rcases slots_run hbar hn hrun hload hover with hT | hf
    · have hle := runsOf_le hrun
      omega
    · exact hf
  have hfreed := freed_of_finished hfit hrun hf hx
  have he := executed_run hrun x
  refine ⟨hfreed, ?_⟩
  rw [he.order, he.freed hfreed, List.take_length]

end SimpleOs.Os
