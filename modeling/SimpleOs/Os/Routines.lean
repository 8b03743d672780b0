import SimpleOs.Sched.Mlq

/-!
# The CPUs and the loader (`os.c`, `run` of `cpu.c`)

A step of a thread is one of the atomic operations (`get_proc`, `put_proc`, `add_proc`, `free`, `run`, the
two sides of `next_slot`, `detach_event`) with the tests of local variables before it. What an instruction
does to memory is left out.

* `OsConfig` : the programs, the processes in the order of loading, `num_cpus` and `time_slot`;
* `CpuSt`, `LdSt`, `OsSys` : the threads and what they share, with the instructions executed so far;
* `Passes` : with `barrier`, `next_slot` returns only when every thread that has not detached has called it
  as often (`Timer.barrier`);
* `run`, `cpuRoutine`, `ldRoutine`, `osStep` : the steps;
* `CpuMove`, `LdMove`, `osStep_move` : what they do;
* `CpuSt.Ok`, `cpuOk_run` : where a CPU holds a process, in every state reached.
-/

namespace SimpleOs.Os
open SimpleOs.Sched

structure OsConfig (P I : Type) where
  fields : PcbFields P
  /-- the instructions of the code segment -/
  text : P → List I
  numCpus : Nat
  timeSlot : Int
  /-- what `load` returns for one process after the other, each time a new `pcb_t` -/
  load : List P
  load_nodup : load.Nodup
  barrier : Bool

/-- Where a CPU is: at the top of its loop, about to call `get_proc` (after it freed its process or put it
back), at the second test of `proc`, about to call `run`, about to call `next_slot`, in `next_slot`, past
the loop, past `detach_event`. -/
inductive CpuPc
  | top
  | reload (freed : Bool)
  | recheck
  | run
  | toCall
  | inSlot
  | leaving
  | stopped
  deriving DecidableEq

structure CpuSt (P : Type) where
  pc : CpuPc
  proc : Option P
  timeLeft : Int
  /-- the number of calls of `next_slot` -/
  calls : Nat

/-- Where the loader is: at the test of the start time of the next process, in `next_slot` before that
time, about to call `next_slot` after `add_proc`, in that `next_slot`, past its loop, past `done = 1`, past
`detach_event`. -/
inductive LdPc
  | check
  | early
  | added
  | inSlot
  | finish
  | leaving
  | detached
  deriving DecidableEq

structure LdSt (P : Type) where
  pc : LdPc
  /-- the processes not added yet -/
  rest : List P
  /-- the number of calls of `next_slot` -/
  calls : Nat

structure OsSys (P I : Type) where
  sched : SchedT P
  cpu : Nat → CpuSt P
  ld : LdSt P
  done : Bool
  /-- `pc` of the processes -/
  procPc : P → Nat
  /-- the instructions executed for a process, by whatever CPU -/
  executed : P → List I
  freed : P → Bool

variable {P I : Type}

/-- The loader before the process `rest` starts with, or after its loop. -/
def LdSt.next (rest : List P) (calls : Nat) : LdSt P := ⟨if rest.isEmpty then .finish else .check, rest, calls⟩

def OsSys.boot (C : OsConfig P I) : OsSys P I where
  sched := SchedT.init
  cpu := fun _ => ⟨.top, none, 0, 0⟩
  ld := .next C.load 0
  done := false
  procPc := fun _ => 0
  executed := fun _ => []
  freed := fun _ => false

def OsSys.setCpu (s : OsSys P I) (i : Nat) (c : CpuSt P) : OsSys P I := { s with cpu := Function.update s.cpu i c }

/-- Every thread that has not detached has called `next_slot` `calls` times. -/
def Passes (C : OsConfig P I) (s : OsSys P I) (calls : Nat) : Prop :=
  C.barrier = true → (∀ i < C.numCpus, (s.cpu i).pc ≠ .stopped → calls ≤ (s.cpu i).calls) ∧
    (s.ld.pc ≠ .detached → calls ≤ s.ld.calls)

instance (C : OsConfig P I) (s : OsSys P I) (calls : Nat) : Decidable (Passes C s calls) :=
  inferInstanceAs (Decidable (_ → _))

section Steps
variable [DecidableEq P] (C : OsConfig P I)

/-- `run` : the instruction at `pc`, unless the code has ended. -/
def run (s : OsSys P I) (proc : P) : OsSys P I :=
  match (C.text proc)[s.procPc proc]? with
  | none => s
  | some ins =>
    { s with
      procPc := Function.update s.procPc proc (s.procPc proc + 1)
      executed := Function.update s.executed proc (s.executed proc ++ [ins]) }

/-- The next step of `cpu_routine` on CPU `i`. The error `none` says that there is none. -/
def cpuRoutine (s : OsSys P I) (i : Nat) : Except (Option Ub) (OsSys P I) :=
  let c := s.cpu i
  match c.pc with
  | .top =>
    match c.proc with
    | none =>
      let (proc, sched) := getProc C.fields s.sched
      .ok { s.setCpu i { c with proc := proc, pc := if proc.isSome then .recheck else .toCall } with sched := sched }
    | some proc =>
      if s.procPc proc = (C.text proc).length then
        .ok { s.setCpu i { c with proc := none, pc := .reload true } with freed := Function.update s.freed proc true }
      else if c.timeLeft = 0 then
        match putProc C.fields s.sched proc with
        | .ok sched => .ok { s.setCpu i { c with proc := none, pc := .reload false } with sched := sched }
        | .error e => .error (some e)
      else .ok (s.setCpu i { c with pc := .recheck })
  | .reload freed =>
    let (proc, sched) := getProc C.fields s.sched
    .ok { s.setCpu i { c with proc := proc, pc := .recheck, timeLeft := if freed then 0 else c.timeLeft } with
      sched := sched }
  | .recheck =>
    match c.proc with
    | none => .ok (s.setCpu i { c with pc := if s.done then .leaving else .toCall })
    | some _ => .ok (s.setCpu i { c with pc := .run, timeLeft := if c.timeLeft = 0 then C.timeSlot else c.timeLeft })
  | .run =>
    match c.proc with
    | none => .error (some .null)
    | some proc => .ok ((run C s proc).setCpu i { c with pc := .toCall, timeLeft := c.timeLeft - 1 })
  | .toCall => .ok (s.setCpu i { c with pc := .inSlot, calls := c.calls + 1 })
  | .inSlot => if Passes C s c.calls then .ok (s.setCpu i { c with pc := .top }) else .error none
  | .leaving => .ok (s.setCpu i { c with pc := .stopped })
  | .stopped => .error none

/-- The next step of `ld_routine`; `early` is the outcome of the test of `current_time()`. -/
def ldRoutine (s : OsSys P I) (early : Bool) : Except (Option Ub) (OsSys P I) :=
  match s.ld.pc, s.ld.rest with
  | .check, [] => .error (some .null)
  | .check, proc :: rest =>
    if early then .ok { s with ld := ⟨.early, proc :: rest, s.ld.calls + 1⟩ }
    else
      match addProc C.fields s.sched proc with
      | .ok sched => .ok { s with sched := sched, ld := ⟨.added, rest, s.ld.calls⟩ }
      | .error e => .error (some e)
  | .early, rest => if Passes C s s.ld.calls then .ok { s with ld := ⟨.check, rest, s.ld.calls⟩ } else .error none
  | .added, rest => .ok { s with ld := ⟨.inSlot, rest, s.ld.calls + 1⟩ }
  | .inSlot, rest => if Passes C s s.ld.calls then .ok { s with ld := .next rest s.ld.calls } else .error none
  | .finish, rest => .ok { s with ld := ⟨.leaving, rest, s.ld.calls⟩, done := true }
  | .leaving, rest => .ok { s with ld := ⟨.detached, rest, s.ld.calls⟩ }
  | .detached, _ => .error none

inductive OsAct
  | cpu (i : Nat)
  | ld (early : Bool)
  deriving DecidableEq

def osStep (s : OsSys P I) : OsAct → Except (Option Ub) (Unit × OsSys P I)
  | .cpu i =>
    if i < C.numCpus then
      match cpuRoutine C s i with
      | .ok s => .ok ((), s)
      | .error e => .error e
    else .error none
  | .ld early =>
    match ldRoutine C s early with
    | .ok s => .ok ((), s)
    | .error e => .error e

end Steps

abbrev OsHistory (P I : Type) := List (Entry (OsSys P I) OsAct Unit)

/-! ## What the steps do -/

variable {C : OsConfig P I} {s s' : OsSys P I} {i : Nat} {act : OsAct} {r : Unit}

section Moves
variable [DecidableEq P]

inductive CpuMove (C : OsConfig P I) (s : OsSys P I) (i : Nat) : OsSys P I → Prop
  | fetch {proc : Option P} {sched : SchedT P} (hpc : (s.cpu i).pc = .top) (hproc : (s.cpu i).proc = none)
      (hget : SchedOutcome C.fields s.sched .get proc sched) :
      CpuMove C s i
        { s.setCpu i { s.cpu i with proc := proc, pc := if proc.isSome then .recheck else .toCall } with
          sched := sched }
  | finish {proc : P} (hpc : (s.cpu i).pc = .top) (hproc : (s.cpu i).proc = some proc)
      (hend : s.procPc proc = (C.text proc).length) :
      CpuMove C s i
        { s.setCpu i { s.cpu i with proc := none, pc := .reload true } with freed := Function.update s.freed proc true }
  | put {proc : P} (hpc : (s.cpu i).pc = .top) (hproc : (s.cpu i).proc = some proc) (htime : (s.cpu i).timeLeft = 0)
      (hprio : C.fields.prio proc < MAX_PRIO) :
      CpuMove C s i
        { s.setCpu i { s.cpu i with proc := none, pc := .reload false } with sched := s.sched.enter C.fields proc }
  | keep {proc : P} (hpc : (s.cpu i).pc = .top) (hproc : (s.cpu i).proc = some proc) :
      CpuMove C s i (s.setCpu i { s.cpu i with pc := .recheck })
  | reload {freed : Bool} {proc : Option P} {sched : SchedT P} (hpc : (s.cpu i).pc = .reload freed)
      (hget : SchedOutcome C.fields s.sched .get proc sched) :
      CpuMove C s i
        { s.setCpu i
            { s.cpu i with proc := proc, pc := .recheck, timeLeft := if freed then 0 else (s.cpu i).timeLeft } with
          sched := sched }
  | leave (hpc : (s.cpu i).pc = .recheck) (hproc : (s.cpu i).proc = none) (hdone : s.done = true) :
      CpuMove C s i (s.setCpu i { s.cpu i with pc := .leaving })
  | skip (hpc : (s.cpu i).pc = .recheck) (hproc : (s.cpu i).proc = none) (hdone : s.done = false) :
      CpuMove C s i (s.setCpu i { s.cpu i with pc := .toCall })
  | dispatch {proc : P} (hpc : (s.cpu i).pc = .recheck) (hproc : (s.cpu i).proc = some proc) :
      CpuMove C s i
        (s.setCpu i
          { s.cpu i with pc := .run, timeLeft := if (s.cpu i).timeLeft = 0 then C.timeSlot else (s.cpu i).timeLeft })
  | run {proc : P} (hpc : (s.cpu i).pc = .run) (hproc : (s.cpu i).proc = some proc) :
      CpuMove C s i ((run C s proc).setCpu i { s.cpu i with pc := .toCall, timeLeft := (s.cpu i).timeLeft - 1 })
  | call (hpc : (s.cpu i).pc = .toCall) :
      CpuMove C s i (s.setCpu i { s.cpu i with pc := .inSlot, calls := (s.cpu i).calls + 1 })
  | pass (hpc : (s.cpu i).pc = .inSlot) (hpass : Passes C s (s.cpu i).calls) :
      CpuMove C s i (s.setCpu i { s.cpu i with pc := .top })
  | detach (hpc : (s.cpu i).pc = .leaving) : CpuMove C s i (s.setCpu i { s.cpu i with pc := .stopped })

inductive LdMove (C : OsConfig P I) (s : OsSys P I) : OsSys P I → Prop
  | early {proc : P} {rest : List P} (hpc : s.ld.pc = .check) (hrest : s.ld.rest = proc :: rest) :
      LdMove C s { s with ld := ⟨.early, proc :: rest, s.ld.calls + 1⟩ }
  | add {proc : P} {rest : List P} (hpc : s.ld.pc = .check) (hrest : s.ld.rest = proc :: rest)
      (hprio : C.fields.prio proc < MAX_PRIO) :
      LdMove C s { s with sched := s.sched.enter C.fields proc, ld := ⟨.added, rest, s.ld.calls⟩ }
  | again (hpc : s.ld.pc = .early) : LdMove C s { s with ld := ⟨.check, s.ld.rest, s.ld.calls⟩ }
  | call (hpc : s.ld.pc = .added) : LdMove C s { s with ld := ⟨.inSlot, s.ld.rest, s.ld.calls + 1⟩ }
  | next (hpc : s.ld.pc = .inSlot) (hpass : Passes C s s.ld.calls) :
      LdMove C s { s with ld := .next s.ld.rest s.ld.calls }
  | finish (hpc : s.ld.pc = .finish) : LdMove C s { s with ld := ⟨.leaving, s.ld.rest, s.ld.calls⟩, done := true }
  | detach (hpc : s.ld.pc = .leaving) : LdMove C s { s with ld := ⟨.detached, s.ld.rest, s.ld.calls⟩ }

theorem cpuRoutine_move (h : cpuRoutine C s i = .ok s') : CpuMove C s i s' := by
  unfold cpuRoutine at h
  dsimp only at h
  split at h
  · next hpc =>
    split at h
    · next hproc =>
      cases h
      exact .fetch hpc hproc (getProc_outcome _ _)
    · next proc hproc =>
      split at h
      · next hend =>
        cases h
        exact .finish hpc hproc hend
      · split at h
        · next htime =>
          split at h
          · next hput =>
            cases h
            obtain ⟨hprio, rfl⟩ := putProc_ok hput
            exact .put hpc hproc htime hprio
          · cases h
        · cases h
          exact .keep hpc hproc
  · next hpc =>
    cases h
    exact .reload hpc (getProc_outcome _ _)
  · next hpc =>
    split at h
    · next hproc =>
      cases h
      cases hdone : s.done
      · exact .skip hpc hproc hdone
      · exact .leave hpc hproc hdone
    · next hproc =>
      cases h
      exact .dispatch hpc hproc
  · next hpc =>
    split at h
    · cases h
    · next hproc =>
      cases h
      exact .run hpc hproc
  · next hpc =>
    cases h
    exact .call hpc
  · next hpc =>
    split at h
    · next hpass =>
      cases h
      exact .pass hpc hpass
    · cases h
  · next hpc =>
    cases h
    exact .detach hpc
  · cases h

omit [DecidableEq P] in
theorem ldRoutine_move {early : Bool} (h : ldRoutine C s early = .ok s') : LdMove C s s' := by
  unfold ldRoutine at h
  split at h
  · cases h
  · next hpc hrest =>
    split at h
    · cases h
      exact .early hpc hrest
    · split at h
      · next hadd =>
        cases h
        obtain ⟨hprio, rfl⟩ := addProc_ok hadd
        exact .add hpc hrest hprio
      · cases h
  · next hpc =>
    split at h
    · cases h
      exact .again hpc
    · cases h
  · next hpc =>
    cases h
    exact .call hpc
  · next hpc =>
    split at h
    · next hpass =>
      cases h
      exact .next hpc hpass
    · cases h
  · next hpc =>
    cases h
    exact .finish hpc
  · next hpc =>
    cases h
    exact .detach hpc
  · cases h

def OsMove (C : OsConfig P I) (s : OsSys P I) (act : OsAct) (s' : OsSys P I) : Prop :=
  match act with
  | .cpu i => i < C.numCpus ∧ CpuMove C s i s'
  | .ld _ => LdMove C s s'

/-- A step makes one of its moves. -/
theorem osStep_move (h : osStep C s act = .ok (r, s')) : OsMove C s act s' := by
  cases act with
  | cpu i =>
    simp only [osStep] at h
    split at h
    · next hi =>
      split at h
      · next hx =>
        cases h
        exact ⟨hi, cpuRoutine_move hx⟩
      · cases h
    · cases h
  | ld early =>
    simp only [osStep] at h
    split at h
    · next hx =>
      cases h
      exact ldRoutine_move hx
    · cases h

end Moves

/-! ## The parts of a state -/

@[simp] theorem OsSys.setCpu_self (s : OsSys P I) (i : Nat) (c : CpuSt P) : (s.setCpu i c).cpu i = c :=
  Function.update_self ..

theorem OsSys.setCpu_of_ne (s : OsSys P I) {i j : Nat} (h : j ≠ i) (c : CpuSt P) : (s.setCpu i c).cpu j = s.cpu j :=
  Function.update_of_ne h ..

section Run
variable [DecidableEq P]

theorem run_cpu (s : OsSys P I) (proc : P) : (run C s proc).cpu = s.cpu := by
  unfold run
  split <;> rfl

theorem run_ld (s : OsSys P I) (proc : P) : (run C s proc).ld = s.ld := by
  unfold run
  split <;> rfl

theorem run_sched (s : OsSys P I) (proc : P) : (run C s proc).sched = s.sched := by
  unfold run
  split <;> rfl

theorem run_done (s : OsSys P I) (proc : P) : (run C s proc).done = s.done := by
  unfold run
  split <;> rfl

theorem run_freed (s : OsSys P I) (proc : P) : (run C s proc).freed = s.freed := by
  unfold run
  split <;> rfl

end Run

section Frame
variable [DecidableEq P]

theorem CpuMove.other {j : Nat} (hmove : CpuMove C s i s') (hj : j ≠ i) : s'.cpu j = s.cpu j := by
  cases hmove with
  | run =>
    rw [OsSys.setCpu_of_ne _ hj, run_cpu]
  | _ => exact OsSys.setCpu_of_ne s hj _

/-- What holds of the CPU after its step and of the others before it, holds of all. -/
theorem CpuMove.forall_cpu (hmove : CpuMove C s i s') {p : Nat → CpuSt P → Prop} (hself : p i (s'.cpu i))
    (hother : ∀ j, p j (s.cpu j)) (j : Nat) : p j (s'.cpu j) := by
  by_cases hj : j = i
  · rw [hj]
    exact hself
  · rw [hmove.other hj]
    exact hother j

theorem CpuMove.ld (hmove : CpuMove C s i s') : s'.ld = s.ld := by
  cases hmove with
  | run => exact run_ld s _
  | _ => rfl

theorem CpuMove.done (hmove : CpuMove C s i s') : s'.done = s.done := by
  cases hmove with
  | run => exact run_done s _
  | _ => rfl

omit [DecidableEq P] in
theorem LdMove.cpu (hmove : LdMove C s s') : s'.cpu = s.cpu := by
  cases hmove <;> rfl

end Frame

/-- A CPU that goes on to `get_proc`, or has left its loop, holds no process, and one that calls `run` holds
one. -/
def CpuSt.Ok (c : CpuSt P) : Prop :=
  match c.pc with
  | .reload _ | .leaving | .stopped => c.proc = none
  | .run => c.proc ≠ none
  | _ => True

theorem CpuMove.ok [DecidableEq P] (hmove : CpuMove C s i s') (hok : (s.cpu i).Ok) : (s'.cpu i).Ok := by
  cases hmove with
  | @fetch proc =>
    rw [CpuSt.Ok, OsSys.setCpu_self]
    cases proc with
    | none => trivial
    | some => trivial
  | leave hpc hproc =>
    rw [CpuSt.Ok, OsSys.setCpu_self]
    exact hproc
  | dispatch hpc hproc =>
    rw [CpuSt.Ok, OsSys.setCpu_self]
    exact fun hnone => by cases hproc.symm.trans hnone
  | detach hpc =>
    rw [CpuSt.Ok, hpc] at hok
    rw [CpuSt.Ok, OsSys.setCpu_self]
    exact hok
  | _ => simp only [CpuSt.Ok, OsSys.setCpu_self]

theorem cpuOk_step [DecidableEq P] (hok : ∀ j, (s.cpu j).Ok) (hmove : OsMove C s act s') (j : Nat) : (s'.cpu j).Ok := by
  cases act with
  | cpu i => exact hmove.2.forall_cpu (p := fun _ c => c.Ok) (hmove.2.ok (hok i)) hok j
  | ld =>
    rw [LdMove.cpu hmove]
    exact hok j

theorem cpuOk_run [DecidableEq P] {h : OsHistory P I} (hrun : Run (osStep C) (.boot C) h s) (j : Nat) : (s.cpu j).Ok :=
  hrun.invariant (I := fun _ s => ∀ j, (s.cpu j).Ok) (fun _ => trivial)
    (fun _ _ _ _ _ _ hok hx => cpuOk_step hok (osStep_move hx)) j

end SimpleOs.Os
