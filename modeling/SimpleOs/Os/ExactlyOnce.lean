import Mathlib.Data.List.Nodup
import SimpleOs.Os.Routines

/-!
# Exactly-once execution

* `Owner` : not loaded, in the scheduler, on a CPU, or freed; `Owned` : the owners of all processes;
* `owned_step`, `owned_run` : every process has one owner in every state reached;
* `Executed`, `executed_run` : what was executed is the code up to `pc`;
* `exactly_once` : no two CPUs hold the same process, its code is executed once and in order, and a process
  is freed after all of it.
-/

namespace SimpleOs.Os
open SimpleOs.Sched

variable {P I : Type} {C : OsConfig P I} {s s' : OsSys P I} {i : Nat} {act : OsAct} {r : Unit} {proc x : P}
  {h : OsHistory P I}

inductive Owner
  | outside
  | ready
  | cpu (i : Nat)
  | freed
  deriving DecidableEq

/-- `own` says who has each process: a CPU those it holds, the scheduler those in the levels, and nobody
those that are not loaded yet or freed. -/
structure Owned (own : P → Owner) (C : OsConfig P I) (s : OsSys P I) : Prop where
  ok : s.sched.Ok C.fields
  once : ∀ l, (s.sched.level l).Nodup
  level : ∀ l, ∀ proc ∈ s.sched.level l, own proc = .ready
  cpu : ∀ i proc, (s.cpu i).proc = some proc → own proc = .cpu i
  rest : ∀ proc ∈ s.ld.rest, own proc = .outside
  restOnce : s.ld.rest.Nodup
  freed : ∀ proc, s.freed proc = true → own proc = .freed

theorem owned_boot (C : OsConfig P I) : Owned (fun _ => .outside) C (.boot C) where
  ok := init_ok
  once := fun _ => List.nodup_nil
  level := fun _ _ hin => absurd hin List.not_mem_nil
  cpu := fun _ _ h => by cases h
  rest := fun _ _ => rfl
  restOnce := C.load_nodup
  freed := fun _ h => by cases h

/-! ## The scheduler -/

theorem mem_enter {F : PcbFields P} {t : SchedT P} {l : Nat} (hx : x ∈ (t.enter F proc).level l) :
    x ∈ t.level l ∨ x = proc := by
  rw [enter_level] at hx
  split at hx
  · rcases List.mem_append.mp hx with hx | hx
    · exact .inl hx
    · exact .inr (List.mem_singleton.mp hx)
  · exact .inl hx

theorem nodup_enter {F : PcbFields P} {t : SchedT P} {l : Nat} (hout : proc ∉ t.level l) (hl : (t.level l).Nodup) :
    ((t.enter F proc).level l).Nodup := by
  rw [enter_level]
  split
  · rw [List.nodup_append]
    refine ⟨hl, List.nodup_singleton _, fun a ha b hb hab => ?_⟩
    rw [List.mem_singleton.mp hb] at hab
    exact hout (hab ▸ ha)
  · exact hl

/-- What `get_proc` returns leaves its level, and the levels keep the rest. -/
theorem get_levels {F : PcbFields P} {t t' : SchedT P} {o : Option P} (ht : t.Ok F) (honce : ∀ l, (t.level l).Nodup)
    (hget : SchedOutcome F t .get o t') :
    (∀ l, ∀ x ∈ t'.level l, x ∈ t.level l ∧ o ≠ some x) ∧ (∀ l, (t'.level l).Nodup) ∧
      ∀ x, o = some x → ∃ l, x ∈ t.level l := by
  cases hget with
  | enter hact => cases hact
  | idle => exact ⟨fun l x hx => ⟨hx, by simp⟩, honce, fun x h => by cases h⟩
  | @dispatch prio proc q l₁ l₂ hprio hlow hq =>
    have hbefore : t.level prio = l₁ ++ proc :: l₂ := hq.before
    have hnodup := honce prio
    rw [hbefore, List.nodup_middle, List.nodup_cons] at hnodup
    refine ⟨fun l x hx => ?_, fun l => ?_, fun x he => ⟨prio, ?_⟩⟩
    · rw [dispatch_level hq] at hx
      split at hx
      · next hl =>
        refine ⟨?_, fun he => ?_⟩
        · rw [hl, hbefore]
          rcases List.mem_append.mp hx with hx | hx
          · exact List.mem_append_left _ hx
          · exact List.mem_append_right _ (List.mem_cons_of_mem _ hx)
        · cases he
          exact hnodup.1 hx
      · next hl =>
        refine ⟨hx, fun he => ?_⟩
        cases he
        exact hl ((ht.prio l _ hx).symm.trans (hq.prio_eq ht))
    · rw [dispatch_level hq]
      split
      · exact hnodup.2
      · exact honce l
    · cases he
      rw [hbefore]
      exact List.mem_append_right _ List.mem_cons_self

/-! ## Owners -/

variable {own own' : P → Owner}

theorem Owned.same (ho : Owned own C s) {c : CpuSt P} (hc : c.proc = (s.cpu i).proc) : Owned own C (s.setCpu i c) := by
  refine ⟨ho.ok, ho.once, ho.level, fun j x hx => ?_, ho.rest, ho.restOnce, ho.freed⟩
  by_cases hj : j = i
  · rw [hj, OsSys.setCpu_self, hc] at hx
    rw [hj]
    exact ho.cpu i x hx
  · rw [OsSys.setCpu_of_ne s hj] at hx
    exact ho.cpu j x hx

/-- Owners depend on the queues, on what the CPUs and the loader hold and on what is freed. -/
theorem Owned.congr (ho : Owned own C s) (hsched : s'.sched = s.sched) (hcpu : s'.cpu = s.cpu)
    (hrest : s'.ld.rest = s.ld.rest) (hfreed : s'.freed = s.freed) : Owned own C s' where
  ok := by rw [hsched]; exact ho.ok
  once := by rw [hsched]; exact ho.once
  level := by rw [hsched]; exact ho.level
  cpu := by rw [hcpu]; exact ho.cpu
  rest := by rw [hrest]; exact ho.rest
  restOnce := by rw [hrest]; exact ho.restOnce
  freed := by rw [hfreed]; exact ho.freed

theorem Owned.not_mem_level (ho : Owned own C s) (hown : own proc ≠ .ready) (l : Nat) : proc ∉ s.sched.level l :=
  fun hin => hown (ho.level l proc hin)

def OnlyOf (own own' : P → Owner) (proc : P) : Prop := ∀ x, x ≠ proc → own' x = own x

theorem OnlyOf.keeps (honly : OnlyOf own own' proc) {o o' : Owner} (hx : own x = o) (hproc : own proc = o')
    (hne : o ≠ o') : own' x = o := by
  rw [honly x fun he => hne (by rw [← hx, ← hproc, he])]
  exact hx

theorem Owned.enter_level (ho : Owned own C s) (honly : OnlyOf own own' proc)
    (hready : own' proc = .ready) {l : Nat} (hx : x ∈ (s.sched.enter C.fields proc).level l) : own' x = .ready := by
  by_cases hxp : x = proc
  · rw [hxp, hready]
  · rw [honly x hxp]
    rcases mem_enter hx with hx | hx
    · exact ho.level l x hx
    · exact absurd hx hxp

theorem Owned.release (ho : Owned own C s) (hproc : (s.cpu i).proc = some proc) {c : CpuSt P} (hc : c.proc = none)
    (honly : OnlyOf own own' proc) {sched : SchedT P} (hok : sched.Ok C.fields) (honce : ∀ l, (sched.level l).Nodup)
    (hlevel : ∀ l, ∀ x ∈ sched.level l, own' x = .ready) {freed : P → Bool}
    (hfreed : ∀ x, freed x = true → own' x = .freed) :
    Owned own' C { s.setCpu i c with sched := sched, freed := freed } := by
  refine ⟨hok, honce, hlevel, fun j x hx => ?_, fun x hx => ?_, ho.restOnce, hfreed⟩
  · by_cases hj : j = i
    · have hnone : ((s.setCpu i c).cpu i).proc = none := by rw [OsSys.setCpu_self, hc]
      rw [hj] at hx
      exact absurd (hx.symm.trans hnone) (by simp)
    · have hx' : (s.cpu j).proc = some x := by
        rw [← OsSys.setCpu_of_ne s hj c]
        exact hx
      exact honly.keeps (ho.cpu j x hx') (ho.cpu i proc hproc) fun he => hj (Owner.cpu.inj he)
  · exact honly.keeps (ho.rest x hx) (ho.cpu i proc hproc) nofun

section Steps
variable [DecidableEq P]

theorem onlyOf_update (own : P → Owner) (proc : P) (o : Owner) : OnlyOf own (Function.update own proc o) proc :=
  fun _ hx => Function.update_of_ne hx ..

theorem Owned.get (ho : Owned own C s) (hnone : (s.cpu i).proc = none) {o : Option P} {sched : SchedT P}
    (hget : SchedOutcome C.fields s.sched .get o sched) {c : CpuSt P} (hc : c.proc = o) :
    ∃ own', Owned own' C { s.setCpu i c with sched := sched } := by
  obtain ⟨hlevel, honce, hfrom⟩ := get_levels ho.ok ho.once hget
  have hok : sched.Ok C.fields := hget.ok ho.ok
  cases o with
  | none =>
    have hsame : Owned own C (s.setCpu i c) := ho.same (hc.trans hnone.symm)
    exact ⟨own, hok, honce, fun l x hx => ho.level l x (hlevel l x hx).1, hsame.cpu, hsame.rest, hsame.restOnce,
      hsame.freed⟩
  | some proc =>
    obtain ⟨l₀, hin⟩ := hfrom proc rfl
    have hready : own proc = .ready := ho.level l₀ proc hin
    have honly := onlyOf_update own proc (.cpu i)
    refine ⟨Function.update own proc (.cpu i), hok, honce, fun l x hx => ?_, fun j x hx => ?_, fun x hx => ?_,
      ho.restOnce, fun x hx => ?_⟩
    · obtain ⟨hx, hne⟩ := hlevel l x hx
      rw [honly x fun he => hne (by rw [he])]
      exact ho.level l x hx
    · by_cases hj : j = i
      · have hsome : ((s.setCpu i c).cpu i).proc = some proc := by rw [OsSys.setCpu_self, hc]
        rw [hj] at hx
        obtain rfl : x = proc := Option.some.inj (hx.symm.trans hsome)
        rw [hj, Function.update_self]
      · have hx' : (s.cpu j).proc = some x := by
          rw [← OsSys.setCpu_of_ne s hj c]
          exact hx
        exact honly.keeps (ho.cpu j x hx') hready nofun
    · exact honly.keeps (ho.rest x hx) hready nofun
    · exact honly.keeps (ho.freed x hx) hready nofun

theorem Owned.add (ho : Owned own C s) {rest : List P} (hrest : s.ld.rest = proc :: rest)
    (hprio : C.fields.prio proc < MAX_PRIO) (pc : LdPc) (calls : Nat) :
    Owned (Function.update own proc .ready) C
      { s with sched := s.sched.enter C.fields proc, ld := ⟨pc, rest, calls⟩ } := by
  have honly := onlyOf_update own proc .ready
  have hin : proc ∈ s.ld.rest := by
    rw [hrest]
    exact List.mem_cons_self
  have hown : own proc = .outside := ho.rest proc hin
  have hready : own proc ≠ .ready := fun he => by cases hown.symm.trans he
  have honce := ho.restOnce
  rw [hrest, List.nodup_cons] at honce
  refine ⟨ho.ok.enter hprio, fun l => nodup_enter (ho.not_mem_level hready l) (ho.once l),
    fun l x hx => ho.enter_level honly (Function.update_self ..) hx, fun j x hx => ?_, fun x hx => ?_, honce.2,
    fun x hx => ?_⟩
  · exact honly.keeps (ho.cpu j x hx) hown nofun
  · rw [honly x fun he => honce.1 (he ▸ hx)]
    apply ho.rest x
    rw [hrest]
    exact List.mem_cons_of_mem _ hx
  · exact honly.keeps (ho.freed x hx) hown nofun

/-- Every process keeps one owner. -/
theorem owned_step (ho : Owned own C s) (hok : ∀ j, (s.cpu j).Ok) (hmove : OsMove C s act s') :
    ∃ own', Owned own' C s' := by
  cases act with
  | cpu i =>
    cases hmove.2 with
    | fetch hpc hproc hget => exact ho.get hproc hget rfl
    | @finish proc hpc hproc hend =>
      have hown : own proc = .cpu i := ho.cpu i proc hproc
      have honly := onlyOf_update own proc .freed
      refine ⟨_, ho.release hproc rfl honly ho.ok ho.once (fun l x hx => ?_) fun x hx => ?_⟩
      · exact honly.keeps (ho.level l x hx) hown nofun
      · by_cases hxp : x = proc
        · rw [hxp, Function.update_self]
        · rw [Function.update_of_ne hxp] at hx
          rw [honly x hxp]
          exact ho.freed x hx
    | @put proc hpc hproc htime hprio =>
      have hown : own proc = .cpu i := ho.cpu i proc hproc
      have honly := onlyOf_update own proc .ready
      have hready : own proc ≠ .ready := fun he => by cases hown.symm.trans he
      refine ⟨_, ho.release hproc rfl honly (ho.ok.enter hprio)
        (fun l => nodup_enter (ho.not_mem_level hready l) (ho.once l))
        (fun l x hx => ho.enter_level honly (Function.update_self ..) hx) fun x hx => ?_⟩
      exact honly.keeps (ho.freed x hx) hown nofun
    | keep => exact ⟨own, ho.same rfl⟩
    | reload hpc hget =>
      have hnone : (s.cpu i).proc = none := by
        have hi := hok i
        rw [CpuSt.Ok, hpc] at hi
        exact hi
      exact ho.get hnone hget rfl
    | leave => exact ⟨own, ho.same rfl⟩
    | skip => exact ⟨own, ho.same rfl⟩
    | dispatch => exact ⟨own, ho.same rfl⟩
    | @run proc =>
      have hrun : Owned own C (run C s proc) :=
        ho.congr (run_sched s proc) (run_cpu s proc) (congrArg _ (run_ld s proc)) (run_freed s proc)
      exact ⟨own, hrun.same (by rw [run_cpu])⟩
    | call => exact ⟨own, ho.same rfl⟩
    | pass => exact ⟨own, ho.same rfl⟩
    | detach => exact ⟨own, ho.same rfl⟩
  | ld early =>
    cases hmove with
    | early hpc hrest => exact ⟨own, ho.congr rfl rfl hrest.symm rfl⟩
    | add hpc hrest hprio => exact ⟨_, ho.add hrest hprio _ _⟩
    | again => exact ⟨own, ho.congr rfl rfl rfl rfl⟩
    | call => exact ⟨own, ho.congr rfl rfl rfl rfl⟩
    | next => exact ⟨own, ho.congr rfl rfl rfl rfl⟩
    | finish => exact ⟨own, ho.congr rfl rfl rfl rfl⟩
    | detach => exact ⟨own, ho.congr rfl rfl rfl rfl⟩

theorem owned_run (hrun : Run (osStep C) (.boot C) h s) : ∃ own, Owned own C s :=
  hrun.invariant (I := fun _ s => ∃ own, Owned own C s) ⟨_, owned_boot C⟩
    fun _ _ _ _ _ hrun ho hx => owned_step ho.choose_spec (cpuOk_run hrun) (osStep_move hx)

/-! ## Execution -/

/-- What was executed for each process is its code up to `pc`, and all of it when the process is freed. -/
structure Executed (C : OsConfig P I) (s : OsSys P I) (proc : P) : Prop where
  size : s.procPc proc ≤ (C.text proc).length
  order : s.executed proc = (C.text proc).take (s.procPc proc)
  freed : s.freed proc = true → s.procPc proc = (C.text proc).length

omit [DecidableEq P] in
theorem Executed.congr (he : Executed C s x) (hpc : s'.procPc x = s.procPc x) (hex : s'.executed x = s.executed x)
    (hfreed : s'.freed x = s.freed x) : Executed C s' x where
  size := by rw [hpc]; exact he.size
  order := by rw [hpc, hex]; exact he.order
  freed := by rw [hpc, hfreed]; exact he.freed

/-- `run` executes the next instruction of its process, and nothing for the others. -/
theorem Executed.run (he : Executed C s x) (proc : P) : Executed C (run C s proc) x := by
  unfold Os.run
  split
  · exact he
  · next ins hins =>
    by_cases hx : x = proc
    · subst hx
      have hlt : s.procPc x < (C.text x).length := (List.getElem?_eq_some_iff.mp hins).1
      refine ⟨?_, ?_, fun hf => absurd (he.freed hf) (by omega)⟩
      · simp only [Function.update_self]
        omega
      · simp only [Function.update_self]
        rw [he.order, List.take_add_one, hins]
        rfl
    · exact he.congr (Function.update_of_ne hx ..) (Function.update_of_ne hx ..) rfl

theorem executed_step (he : Executed C s x) (hmove : OsMove C s act s') : Executed C s' x := by
  cases act with
  | cpu i =>
    cases hmove.2 with
    | @finish proc hpc hproc hend =>
      refine ⟨he.size, he.order, fun hf => ?_⟩
      by_cases hx : x = proc
      · rw [hx]
        exact hend
      · have hf : Function.update s.freed proc true x = true := hf
        rw [Function.update_of_ne hx] at hf
        exact he.freed hf
    | @run proc => exact (he.run proc).congr rfl rfl rfl
    | _ => exact he.congr rfl rfl rfl
  | ld => cases hmove <;> exact he.congr rfl rfl rfl

theorem executed_run (hrun : Run (osStep C) (.boot C) h s) (x : P) : Executed C s x :=
  hrun.invariant (I := fun _ s => Executed C s x)
    ⟨Nat.zero_le _, (List.take_zero).symm, fun hf => by cases hf⟩
    fun _ _ _ _ _ _ he hx => executed_step he (osStep_move hx)

/-- Exactly-once, in-order execution: no two CPUs hold the same process, what was executed for a process by
all CPUs is its code up to `pc`, once and in order, `pc` stays within the code, and a process is freed after
all of its code was executed. -/
theorem exactly_once (hrun : Run (osStep C) (.boot C) h s) :
    (∀ i j proc, (s.cpu i).proc = some proc → (s.cpu j).proc = some proc → i = j) ∧
    (∀ proc, s.procPc proc ≤ (C.text proc).length ∧ s.executed proc = (C.text proc).take (s.procPc proc)) ∧
    ∀ proc, s.freed proc = true → s.executed proc = C.text proc := by
  obtain ⟨own, ho⟩ := owned_run hrun
  refine ⟨fun i j proc hi hj => ?_, fun proc => ?_, fun proc hf => ?_⟩
  · have heq := (ho.cpu i proc hi).symm.trans (ho.cpu j proc hj)
    cases heq
    rfl
  · have he := executed_run hrun proc
    exact ⟨he.size, he.order⟩
  · have he := executed_run hrun proc
    rw [he.order, he.freed hf, List.take_length]

end Steps

/-- One process of two instructions on two CPUs, with one instruction a turn. -/
def migrating : OsConfig Nat Char where
  fields := ⟨fun _ => 0, fun _ => 0⟩
  text := fun _ => ['a', 'b']
  numCpus := 2
  timeSlot := 1
  load := [0]
  load_nodup := by decide
  barrier := false

/-- The process starts on CPU 0, is put back after one instruction and ends on CPU 1. -/
theorem exactly_once_migrating :
    ∃ (h : OsHistory Nat Char) (s : OsSys Nat Char),
      h.map Entry.act = [.cpu 1, .cpu 1, .cpu 1, .cpu 1, .cpu 1, .cpu 1, .cpu 0, .cpu 0, .cpu 0, .cpu 0, .cpu 0,
        .cpu 0, .ld false] ∧ s.freed 0 = true ∧
      (∀ i j proc, (s.cpu i).proc = some proc → (s.cpu j).proc = some proc → i = j) ∧
      (∀ proc, s.procPc proc ≤ 2 ∧ s.executed proc = ['a', 'b'].take (s.procPc proc)) ∧
      ∀ proc, s.freed proc = true → s.executed proc = ['a', 'b'] := by
  obtain ⟨h, s, hrun, hact, hfreed⟩ := exists_run_of_replay (osStep migrating) (.boot migrating)
    [.cpu 1, .cpu 1, .cpu 1, .cpu 1, .cpu 1, .cpu 1, .cpu 0, .cpu 0, .cpu 0, .cpu 0, .cpu 0, .cpu 0, .ld false]
    (fun _ s => s.freed 0) (by decide)
  exact ⟨h, s, hact, hfreed, exactly_once hrun⟩

end SimpleOs.Os
