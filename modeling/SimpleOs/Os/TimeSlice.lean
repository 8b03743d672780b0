import SimpleOs.Os.ExactlyOnce

/-!
# The time slices of one CPU

The loop of one CPU by itself: `get_proc` may return any process, or none, at each call, `done` may be set or not
at each test, and other threads may execute any process in between.

* `cpuLoop` : the steps of `cpu_routine` on such a CPU, with what each of them does;
* `slice` : the process dispatched and the calls of `run` since, until it is put back or finishes;
* `EntryOk`, `SlicesKept` : no process is run beyond its slice, and none is put back before its end;
* `LoopState` : what `time_left` has to do with the slice in the branches of the loop;
* `timeSlice_bound` : the slices are kept in every run;
* `cpu_loop_of_run` : every CPU of the simulator runs this loop.
-/

namespace SimpleOs.Os
open SimpleOs.Sched

variable {P I : Type}

structure CpuLoop (P : Type) where
  cpu : CpuSt P
  procPc : P → Nat

/-- The next step of the CPU, where `get_proc` returns `got` if it is called and `done` is found as given, or
a call of `run` by another thread. A `killall` that ends a process, by any thread, is as many calls of `run`. -/
inductive LoopAct (P : Type)
  | step (got : Option P) (done : Bool)
  | elsewhere (proc : P)
  deriving DecidableEq

inductive CpuEvent (P : Type)
  | get (proc : Option P)
  | finish (proc : P)
  | put (proc : P)
  | dispatch (proc : P)
  | run (proc : P)
  | other
  deriving DecidableEq

def CpuLoop.boot : CpuLoop P := ⟨⟨.top, none, 0, 0⟩, fun _ => 0⟩

section Steps
variable [DecidableEq P] (codeSize : P → Nat) (timeSlot : Int)

/-- `run` moves `pc` unless the code has ended. -/
def nextPc (procPc : P → Nat) (proc : P) : P → Nat :=
  if procPc proc < codeSize proc then Function.update procPc proc (procPc proc + 1) else procPc

def cpuLoopNext (t : CpuLoop P) (got : Option P) (done : Bool) : Except Disabled (CpuEvent P × CpuLoop P) :=
  let c := t.cpu
  match c.pc with
  | .top =>
    match c.proc with
    | none => .ok (.get got, { t with cpu := { c with proc := got, pc := if got.isSome then .recheck else .toCall } })
    | some proc =>
      if t.procPc proc = codeSize proc then
        .ok (.finish proc, { t with cpu := { c with proc := none, pc := .reload true } })
      else if c.timeLeft = 0 then .ok (.put proc, { t with cpu := { c with proc := none, pc := .reload false } })
      else .ok (.other, { t with cpu := { c with pc := .recheck } })
  | .reload freed =>
    .ok (.get got,
      { t with cpu := { c with proc := got, pc := .recheck, timeLeft := if freed then 0 else c.timeLeft } })
  | .recheck =>
    match c.proc with
    | none => .ok (.other, { t with cpu := { c with pc := if done then .leaving else .toCall } })
    | some proc =>
      if c.timeLeft = 0 then .ok (.dispatch proc, { t with cpu := { c with pc := .run, timeLeft := timeSlot } })
      else .ok (.other, { t with cpu := { c with pc := .run } })
  | .run =>
    match c.proc with
    | none => .error .disabled
    | some proc =>
      .ok (.run proc, ⟨{ c with pc := .toCall, timeLeft := c.timeLeft - 1 }, nextPc codeSize t.procPc proc⟩)
  | .toCall => .ok (.other, { t with cpu := { c with pc := .inSlot, calls := c.calls + 1 } })
  | .inSlot => .ok (.other, { t with cpu := { c with pc := .top } })
  | .leaving => .ok (.other, { t with cpu := { c with pc := .stopped } })
  | .stopped => .error .disabled

def cpuLoop (t : CpuLoop P) : LoopAct P → Except Disabled (CpuEvent P × CpuLoop P)
  | .step got done => cpuLoopNext codeSize timeSlot t got done
  | .elsewhere proc => .ok (.other, { t with procPc := nextPc codeSize t.procPc proc })

end Steps

abbrev LoopHistory (P : Type) := List (Entry (CpuLoop P) (LoopAct P) (CpuEvent P))

/-! ## Slices -/

/-- The process dispatched last and the calls of `run` since; none when it was put back or finished. -/
def slice : LoopHistory P → Option (P × Nat)
  | [] => none
  | e :: h =>
    match e.res with
    | .dispatch proc => some (proc, 0)
    | .run _ => (slice h).map fun x => (x.1, x.2 + 1)
    | .get _ | .finish _ | .put _ => none
    | .other => slice h

/-- A step after `h` keeps the slices: only the process dispatched last is run, for the `n`-th time when
`time_left` is `n` below `time_slot`, it is put back after `time_slot` of these runs and before its code has
ended, and it finishes within them. -/
def EntryOk (codeSize : P → Nat) (timeSlot : Int) (h : LoopHistory P) (e : Entry (CpuLoop P) (LoopAct P) (CpuEvent P)) :
    Prop :=
  match e.res with
  | .run proc => ∃ n : Nat, slice h = some (proc, n) ∧ n < timeSlot ∧ e.before.cpu.timeLeft = timeSlot - n
  | .put proc => (∃ n : Nat, slice h = some (proc, n) ∧ n = timeSlot) ∧ e.before.procPc proc < codeSize proc
  | .finish proc => (∃ n : Nat, slice h = some (proc, n) ∧ n ≤ timeSlot) ∧ e.before.procPc proc = codeSize proc
  | .dispatch _ => slice h = none
  | .get _ => slice h = none
  | .other => True

/-- Every slice is kept, from the first step on. -/
def SlicesKept (codeSize : P → Nat) (timeSlot : Int) : LoopHistory P → Prop
  | [] => True
  | e :: h => SlicesKept codeSize timeSlot h ∧ EntryOk codeSize timeSlot h e

/-! ## What the steps do -/

section Moves
variable [DecidableEq P] {codeSize : P → Nat} {timeSlot : Int} {t t' : CpuLoop P} {act : LoopAct P} {r : CpuEvent P}
  {h : LoopHistory P}

inductive LoopMove (codeSize : P → Nat) (timeSlot : Int) (t : CpuLoop P) : CpuEvent P → CpuLoop P → Prop
  | fetch {got : Option P} (hpc : t.cpu.pc = .top) (hproc : t.cpu.proc = none) :
      LoopMove codeSize timeSlot t (.get got)
        { t with cpu := { t.cpu with proc := got, pc := if got.isSome then .recheck else .toCall } }
  | finish {proc : P} (hpc : t.cpu.pc = .top) (hproc : t.cpu.proc = some proc) (hend : t.procPc proc = codeSize proc) :
      LoopMove codeSize timeSlot t (.finish proc) { t with cpu := { t.cpu with proc := none, pc := .reload true } }
  | put {proc : P} (hpc : t.cpu.pc = .top) (hproc : t.cpu.proc = some proc) (hend : t.procPc proc ≠ codeSize proc)
      (htime : t.cpu.timeLeft = 0) :
      LoopMove codeSize timeSlot t (.put proc) { t with cpu := { t.cpu with proc := none, pc := .reload false } }
  | keep {proc : P} (hpc : t.cpu.pc = .top) (hproc : t.cpu.proc = some proc) (htime : t.cpu.timeLeft ≠ 0) :
      LoopMove codeSize timeSlot t .other { t with cpu := { t.cpu with pc := .recheck } }
  | reload {freed : Bool} {got : Option P} (hpc : t.cpu.pc = .reload freed) :
      LoopMove codeSize timeSlot t (.get got)
        { t with cpu := { t.cpu with proc := got, pc := .recheck, timeLeft := if freed then 0 else t.cpu.timeLeft } }
  | skip {done : Bool} (hpc : t.cpu.pc = .recheck) (hproc : t.cpu.proc = none) :
      LoopMove codeSize timeSlot t .other { t with cpu := { t.cpu with pc := if done then .leaving else .toCall } }
  | dispatch {proc : P} (hpc : t.cpu.pc = .recheck) (hproc : t.cpu.proc = some proc) (htime : t.cpu.timeLeft = 0) :
      LoopMove codeSize timeSlot t (.dispatch proc) { t with cpu := { t.cpu with pc := .run, timeLeft := timeSlot } }
  | resume {proc : P} (hpc : t.cpu.pc = .recheck) (hproc : t.cpu.proc = some proc) (htime : t.cpu.timeLeft ≠ 0) :
      LoopMove codeSize timeSlot t .other { t with cpu := { t.cpu with pc := .run } }
  | run {proc : P} (hpc : t.cpu.pc = .run) (hproc : t.cpu.proc = some proc) :
      LoopMove codeSize timeSlot t (.run proc)
        ⟨{ t.cpu with pc := .toCall, timeLeft := t.cpu.timeLeft - 1 }, nextPc codeSize t.procPc proc⟩
  | call (hpc : t.cpu.pc = .toCall) :
      LoopMove codeSize timeSlot t .other { t with cpu := { t.cpu with pc := .inSlot, calls := t.cpu.calls + 1 } }
  | pass (hpc : t.cpu.pc = .inSlot) : LoopMove codeSize timeSlot t .other { t with cpu := { t.cpu with pc := .top } }
  | detach (hpc : t.cpu.pc = .leaving) :
      LoopMove codeSize timeSlot t .other { t with cpu := { t.cpu with pc := .stopped } }
  | elsewhere {proc : P} :
      LoopMove codeSize timeSlot t .other { t with procPc := nextPc codeSize t.procPc proc }

theorem cpuLoopNext_move {got : Option P} {done : Bool} (h : cpuLoopNext codeSize timeSlot t got done = .ok (r, t')) :
    LoopMove codeSize timeSlot t r t' := by
  unfold cpuLoopNext at h
  dsimp only at h
  split at h
  · next hpc =>
    split at h
    · next hproc =>
      cases h
      exact .fetch hpc hproc
    · next hproc =>
      split at h
      · next hend =>
        cases h
        exact .finish hpc hproc hend
      · next hend =>
        split at h
        · next htime =>
          cases h
          exact .put hpc hproc hend htime
        · next htime =>
          cases h
          exact .keep hpc hproc htime
  · next hpc =>
    cases h
    exact .reload hpc
  · next hpc =>
    split at h
    · next hproc =>
      cases h
      exact .skip hpc hproc
    · next hproc =>
      split at h
      · next htime =>
        cases h
        exact .dispatch hpc hproc htime
      · next htime =>
        cases h
        exact .resume hpc hproc htime
  · next hpc =>
    split at h
    · cases h
    · next hproc =>
      cases h
      exact .run hpc hproc
  · next hpc =>
    cases h
    exact .call hpc
  · next hpc =>
    cases h
    exact .pass hpc
  · next hpc =>
    cases h
    exact .detach hpc
  · cases h

/-- A step makes one of its moves. -/
theorem cpuLoop_move (h : cpuLoop codeSize timeSlot t act = .ok (r, t')) : LoopMove codeSize timeSlot t r t' := by
  cases act with
  | step got done => exact cpuLoopNext_move h
  | elsewhere proc =>
    cases h
    exact .elsewhere

theorem nextPc_le {procPc : P → Nat} (hle : ∀ p, procPc p ≤ codeSize p) (proc p : P) :
    nextPc codeSize procPc proc p ≤ codeSize p := by
  unfold nextPc
  split
  · next hlt =>
    by_cases hp : p = proc
    · subst hp
      rw [Function.update_self]
      exact hlt
    · rw [Function.update_of_ne hp]
      exact hle p
  · exact hle p

theorem LoopMove.procPc_le (hmove : LoopMove codeSize timeSlot t r t') (hle : ∀ p, t.procPc p ≤ codeSize p) (p : P) :
    t'.procPc p ≤ codeSize p := by
  cases hmove with
  | run | elsewhere => exact nextPc_le hle _ p
  | _ => exact hle p

/-! ## `time_left` -/

/-- What `time_left` is: 0 without a process, unless the last one has just been freed; 0 with a process that
was not dispatched yet; what is left of the slice of a process that was, which is not over at the second test
of `proc` or before `run`. -/
inductive LoopState (timeSlot : Int) (h : LoopHistory P) (c : CpuSt P) : Prop
  | idle (hproc : c.proc = none) (hslice : slice h = none) (htime : c.pc ≠ .reload true → c.timeLeft = 0)
  | fresh {proc : P} (hproc : c.proc = some proc) (hpc : c.pc = .recheck) (hslice : slice h = none)
      (htime : c.timeLeft = 0)
  | active {proc : P} {n : Nat} (hproc : c.proc = some proc) (hslice : slice h = some (proc, n))
      (htime : c.timeLeft = timeSlot - n) (hn : n ≤ timeSlot) (hlt : c.pc = .recheck ∨ c.pc = .run → n < timeSlot)

structure LoopOk (codeSize : P → Nat) (timeSlot : Int) (h : LoopHistory P) (t : CpuLoop P) : Prop where
  cpu : t.cpu.Ok
  state : LoopState timeSlot h t.cpu
  size : ∀ p, t.procPc p ≤ codeSize p

omit [DecidableEq P] in
theorem loopOk_boot : LoopOk codeSize timeSlot [] (CpuLoop.boot : CpuLoop P) where
  cpu := trivial
  state := .idle rfl rfl fun _ => rfl
  size := fun _ => Nat.zero_le _

omit [DecidableEq P] in
theorem LoopState.of_none {c : CpuSt P} (hs : LoopState timeSlot h c) (hproc : c.proc = none) :
    slice h = none ∧ (c.pc ≠ .reload true → c.timeLeft = 0) := by
  cases hs with
  | idle _ hslice htime => exact ⟨hslice, htime⟩
  | fresh hsome => cases hsome.symm.trans hproc
  | active hsome => cases hsome.symm.trans hproc

omit [DecidableEq P] in
theorem LoopState.of_some {c : CpuSt P} {proc : P} (hs : LoopState timeSlot h c) (hproc : c.proc = some proc)
    (hpc : c.pc ≠ .recheck) :
    ∃ n : Nat, slice h = some (proc, n) ∧ c.timeLeft = timeSlot - n ∧ n ≤ timeSlot ∧ (c.pc = .run → n < timeSlot) := by
  cases hs with
  | idle hnone => cases hnone.symm.trans hproc
  | fresh _ hrecheck => exact absurd hrecheck hpc
  | @active proc' n hsome hslice htime hn hlt =>
    cases hsome.symm.trans hproc
    exact ⟨n, hslice, htime, hn, fun hrun => hlt (.inr hrun)⟩

theorem LoopMove.entryOk (hmove : LoopMove codeSize timeSlot t r t') (hok : LoopOk codeSize timeSlot h t) :
    EntryOk codeSize timeSlot h ⟨t, act, r⟩ := by
  have hcpu := hok.cpu
  cases hmove with
  | fetch hpc hproc => exact (hok.state.of_none hproc).1
  | @finish proc hpc hproc hend =>
    obtain ⟨n, hslice, -, hn, -⟩ := hok.state.of_some hproc (by simp [hpc])
    exact ⟨⟨n, hslice, hn⟩, hend⟩
  | @put proc hpc hproc hend htime =>
    obtain ⟨n, hslice, hleft, -, -⟩ := hok.state.of_some hproc (by simp [hpc])
    exact ⟨⟨n, hslice, by omega⟩, Nat.lt_of_le_of_ne (hok.size proc) hend⟩
  | reload hpc =>
    rw [CpuSt.Ok, hpc] at hcpu
    exact (hok.state.of_none hcpu).1
  | dispatch hpc hproc htime =>
    cases hok.state with
    | idle hnone => cases hnone.symm.trans hproc
    | fresh _ _ hslice => exact hslice
    | active _ _ hleft _ hlt =>
      -- the slice of a process at the second test is not over
      have hn := hlt (.inl hpc)
      omega
  | run hpc hproc =>
    obtain ⟨n, hslice, hleft, -, hlt⟩ := hok.state.of_some hproc (by simp [hpc])
    exact ⟨n, hslice, hlt hpc, hleft⟩
  | _ => trivial

omit [DecidableEq P] in
/-- The slice goes on while nothing happens to the process, and is not over where `time_left` was seen not to be 0. -/
theorem LoopState.keep {c : CpuSt P} {act : LoopAct P} (pc : CpuPc) (calls : Nat) (hs : LoopState timeSlot h c)
    (hfrom : c.pc ≠ .recheck ∨ c.timeLeft ≠ 0 ∨ c.proc = none) (hreload : c.pc ≠ .reload true)
    (hto : pc = .recheck ∨ pc = .run → c.timeLeft ≠ 0) :
    LoopState timeSlot (⟨t, act, .other⟩ :: h) { c with pc := pc, calls := calls } := by
  cases hs with
  | idle hproc hslice htime => exact .idle hproc hslice fun _ => htime hreload
  | fresh hproc hpc hslice htime =>
    rcases hfrom with hne | hne | hnone
    · exact absurd hpc hne
    · exact absurd htime hne
    · cases hproc.symm.trans hnone
  | @active proc n hproc hslice htime hn hlt =>
    refine .active hproc hslice htime hn fun hpc => ?_
    have hne := hto hpc
    rw [htime] at hne
    omega

theorem LoopMove.cpu_ok (hmove : LoopMove codeSize timeSlot t r t') (hcpu : t.cpu.Ok) : t'.cpu.Ok := by
  cases hmove with
  | @fetch got =>
    cases got with
    | none => trivial
    | some => trivial
  | finish => rfl
  | put => rfl
  | @skip done hpc hproc =>
    cases done with
    | false => trivial
    | true => exact hproc
  | dispatch _ hproc => exact fun hnone => by cases hproc.symm.trans hnone
  | resume _ hproc => exact fun hnone => by cases hproc.symm.trans hnone
  | detach hpc =>
    rw [CpuSt.Ok, hpc] at hcpu
    exact hcpu
  | elsewhere => exact hcpu
  | _ => trivial

/-- What `time_left` is after a step. -/
theorem LoopMove.state (hslot : 1 ≤ timeSlot) (hmove : LoopMove codeSize timeSlot t r t')
    (hok : LoopOk codeSize timeSlot h t) : LoopState timeSlot (⟨t, act, r⟩ :: h) t'.cpu := by
  cases hmove with
  | @fetch got hpc hproc =>
    have htime := (hok.state.of_none hproc).2 (by simp [hpc])
    cases got with
    | none => exact .idle rfl rfl fun _ => htime
    | some proc => exact .fresh rfl rfl rfl htime
  | finish => exact .idle rfl rfl fun hpc => absurd rfl hpc
  | put _ _ _ htime => exact .idle rfl rfl fun _ => htime
  | keep hpc _ htime => exact hok.state.keep .recheck t.cpu.calls (.inl (by simp [hpc])) (by simp [hpc]) fun _ => htime
  | @reload freed got hpc =>
    have hcpu := hok.cpu
    rw [CpuSt.Ok, hpc] at hcpu
    have htime : (if freed then 0 else t.cpu.timeLeft) = 0 := by
      cases freed with
      | true => rfl
      | false => exact (hok.state.of_none hcpu).2 (by simp [hpc])
    cases got with
    | none => exact .idle rfl rfl fun _ => htime
    | some proc => exact .fresh rfl rfl rfl htime
  | @skip done hpc hproc =>
    refine hok.state.keep _ t.cpu.calls (.inr (.inr hproc)) (by simp [hpc]) fun hto => ?_
    cases done <;> rcases hto with hto | hto <;> cases hto
  | dispatch _ hproc => exact .active hproc rfl (by simp) (by omega) fun _ => by omega
  | resume hpc _ htime =>
    exact hok.state.keep .run t.cpu.calls (.inr (.inl htime)) (by simp [hpc]) fun _ => htime
  | @run proc hpc hproc =>
    obtain ⟨n, hslice, hleft, -, hlt⟩ := hok.state.of_some hproc (by simp [hpc])
    have hn := hlt hpc
    refine .active (n := n + 1) hproc (by simp [slice, hslice]) ?_ ?_ ?_
    · show t.cpu.timeLeft - 1 = timeSlot - ((n + 1 : Nat) : Int)
      omega
    · omega
    · rintro (hto | hto) <;> cases hto
  | call hpc =>
    refine hok.state.keep .inSlot (t.cpu.calls + 1) (.inl (by simp [hpc])) (by simp [hpc]) ?_
    rintro (hto | hto) <;> cases hto
  | pass hpc =>
    refine hok.state.keep .top t.cpu.calls (.inl (by simp [hpc])) (by simp [hpc]) ?_
    rintro (hto | hto) <;> cases hto
  | detach hpc =>
    refine hok.state.keep .stopped t.cpu.calls (.inl (by simp [hpc])) (by simp [hpc]) ?_
    rintro (hto | hto) <;> cases hto
  | elsewhere =>
    cases hok.state with
    | idle hproc hslice htime => exact .idle hproc hslice htime
    | fresh hproc hpc hslice htime => exact .fresh hproc hpc hslice htime
    | active hproc hslice htime hn hlt => exact .active hproc hslice htime hn hlt

theorem loopOk_run (hslot : 1 ≤ timeSlot) (hrun : Run (cpuLoop codeSize timeSlot) .boot h t) :
    LoopOk codeSize timeSlot h t :=
  hrun.invariant loopOk_boot fun _ _ _ _ _ _ hok hx =>
    have hmove := cpuLoop_move hx
    ⟨hmove.cpu_ok hok.cpu, hmove.state hslot hok, hmove.procPc_le hok.size⟩

/-- Time slice bound: whatever `get_proc` returns and whatever else happens, each process the CPU runs was
dispatched before with a full slice and is run at most `time_slot` times in it, and the CPU puts a process back
only after `time_slot` of these runs, with code left to execute. -/
theorem timeSlice_bound (hslot : 1 ≤ timeSlot) (hrun : Run (cpuLoop codeSize timeSlot) .boot h t) :
    SlicesKept codeSize timeSlot h ∧ ∀ proc n, slice h = some (proc, n) → (n : Int) ≤ timeSlot := by
  constructor
  · induction hrun with
    | start => trivial
    | next hrun hx ih => exact ⟨ih, (cpuLoop_move hx).entryOk (loopOk_run hslot hrun)⟩
  · intro proc n hslice
    cases (loopOk_run hslot hrun).state with
    | idle _ hnone => cases hnone.symm.trans hslice
    | fresh _ _ hnone => cases hnone.symm.trans hslice
    | active _ hsome _ hn =>
      cases hsome.symm.trans hslice
      exact hn

/-- Two processes on a CPU with two instructions a slice: the first is put back after its slice, the second
finishes in the middle of its slice. -/
theorem timeSlice_bound_twoProcs :
    ∃ (h : LoopHistory Nat) (t : CpuLoop Nat), t.cpu.proc = none ∧
      h.filterMap (fun e => if e.res = .other then none else some e.res) =
        [.finish 1, .run 1, .dispatch 1, .get (some 1), .put 0, .run 0, .run 0, .dispatch 0, .get (some 0)] ∧
      SlicesKept (fun proc => if proc = 0 then 3 else 1) 2 h ∧ ∀ proc n, slice h = some (proc, n) → (n : Int) ≤ 2 := by
  obtain ⟨h, t, hrun, hact, htest⟩ :=
    exists_run_of_replay (cpuLoop (fun proc => if proc = 0 then 3 else 1) 2) (.boot : CpuLoop Nat)
      ((List.replicate 16 (.step (some 1) true)) ++ [.step (some 0) false])
      (fun h t => t.cpu.proc = none ∧ h.filterMap (fun e => if e.res = .other then none else some e.res) =
        [.finish 1, .run 1, .dispatch 1, .get (some 1), .put 0, .run 0, .run 0, .dispatch 0, .get (some 0)])
      (by decide)
  have ⟨hproc, hseen⟩ := of_decide_eq_true htest
  exact ⟨h, t, hproc, hseen, timeSlice_bound (by decide) hrun⟩

end Moves

/-! ## The CPUs of the simulator -/

section Simulator
variable {C : OsConfig P I} {s s' : OsSys P I} {i : Nat} {act : OsAct} {h : OsHistory P I}

def OsConfig.codeSize (C : OsConfig P I) (proc : P) : Nat := (C.text proc).length

/-- What CPU `i` sees of the simulator. -/
def OsSys.loop (s : OsSys P I) (i : Nat) : CpuLoop P := ⟨s.cpu i, s.procPc⟩

def ownStates (k : LoopHistory P) : List (CpuSt P) :=
  k.filterMap fun e => match e.act with
    | .step _ _ => some e.before.cpu
    | .elsewhere _ => none

/-- What CPU `i` of the simulator was before each of its steps. -/
def cpuStates (i : Nat) (h : OsHistory P I) : List (CpuSt P) :=
  h.filterMap fun e => if e.act = .cpu i then some (e.before.cpu i) else none

variable [DecidableEq P]

theorem run_procPc (s : OsSys P I) (proc : P) : (run C s proc).procPc = nextPc C.codeSize s.procPc proc := by
  unfold run nextPc OsConfig.codeSize
  split
  · next hnone =>
    rw [if_neg (Nat.not_lt.mpr (List.getElem?_eq_none_iff.mp hnone))]
  · next hsome =>
    rw [if_pos (List.getElem?_eq_some_iff.mp hsome).1]

theorem cpuLoopNext_of_cpuRoutine (h : cpuRoutine C s i = .ok s') :
    ∃ got done r, cpuLoopNext C.codeSize C.timeSlot (s.loop i) got done = .ok (r, s'.loop i) := by
  unfold cpuRoutine at h
  dsimp only at h
  split at h
  · next hpc =>
    split at h
    · next hproc =>
      cases h
      exact ⟨(getProc C.fields s.sched).1, s.done, .get (getProc C.fields s.sched).1, by
        simp [cpuLoopNext, OsSys.loop, OsSys.setCpu, hpc, hproc]⟩
    · next proc hproc =>
      split at h
      · next hend =>
        cases h
        exact ⟨none, s.done, .finish proc, by
          simp [cpuLoopNext, OsSys.loop, OsSys.setCpu, OsConfig.codeSize, hpc, hproc, hend]⟩
      · next hend =>
        split at h
        · next htime =>
          split at h
          · next hput =>
            cases h
            exact ⟨none, s.done, .put proc, by
              simp [cpuLoopNext, OsSys.loop, OsSys.setCpu, OsConfig.codeSize, hpc, hproc, hend, htime]⟩
          · cases h
        · next htime =>
          cases h
          exact ⟨none, s.done, .other, by
            simp [cpuLoopNext, OsSys.loop, OsSys.setCpu, OsConfig.codeSize, hpc, hproc, hend, htime]⟩
  · next hpc =>
    cases h
    exact ⟨(getProc C.fields s.sched).1, s.done, .get (getProc C.fields s.sched).1, by
      simp [cpuLoopNext, OsSys.loop, OsSys.setCpu, hpc]⟩
  · next hpc =>
    split at h
    · next hproc =>
      cases h
      exact ⟨none, s.done, .other, by simp [cpuLoopNext, OsSys.loop, OsSys.setCpu, hpc, hproc]⟩
    · next proc hproc =>
      cases h
      by_cases htime : (s.cpu i).timeLeft = 0
      · exact ⟨none, s.done, .dispatch proc, by simp [cpuLoopNext, OsSys.loop, OsSys.setCpu, hpc, hproc, htime]⟩
      · exact ⟨none, s.done, .other, by simp [cpuLoopNext, OsSys.loop, OsSys.setCpu, hpc, hproc, htime]⟩
  · next hpc =>
    split at h
    · cases h
    · next proc hproc =>
      cases h
      exact ⟨none, s.done, .run proc, by
        simp [cpuLoopNext, OsSys.loop, OsSys.setCpu, hpc, hproc, run_procPc]⟩
  · next hpc =>
    cases h
    exact ⟨none, s.done, .other, by simp [cpuLoopNext, OsSys.loop, OsSys.setCpu, hpc]⟩
  · next hpc =>
    split at h
    · cases h
      exact ⟨none, s.done, .other, by simp [cpuLoopNext, OsSys.loop, OsSys.setCpu, hpc]⟩
    · cases h
  · next hpc =>
    cases h
    exact ⟨none, s.done, .other, by simp [cpuLoopNext, OsSys.loop, OsSys.setCpu, hpc]⟩
  · cases h

theorem cpuRoutine_of_osStep {r : Unit} (h : osStep C s (.cpu i) = .ok (r, s')) : cpuRoutine C s i = .ok s' := by
  unfold osStep at h
  dsimp only at h
  split at h
  · split at h
    · next hx =>
      cases h
      exact hx
    · cases h
  · cases h

theorem CpuMove.procPc (hmove : CpuMove C s i s') :
    s'.procPc = s.procPc ∨ ∃ proc, s'.procPc = nextPc C.codeSize s.procPc proc := by
  cases hmove with
  | @run proc => exact .inr ⟨proc, run_procPc s proc⟩
  | _ => exact .inl rfl

omit [DecidableEq P] in
theorem LdMove.procPc (hmove : LdMove C s s') : s'.procPc = s.procPc := by
  cases hmove <;> rfl

omit [DecidableEq P] in
theorem ownStates_step (t : CpuLoop P) (got : Option P) (done : Bool) (r : CpuEvent P) (k : LoopHistory P) :
    ownStates (⟨t, .step got done, r⟩ :: k) = t.cpu :: ownStates k := rfl

omit [DecidableEq P] in
theorem ownStates_elsewhere (t : CpuLoop P) (proc : P) (r : CpuEvent P) (k : LoopHistory P) :
    ownStates (⟨t, .elsewhere proc, r⟩ :: k) = ownStates k := rfl

omit [DecidableEq P] in
theorem cpuStates_self (s : OsSys P I) (r : Unit) (h : OsHistory P I) :
    cpuStates i (⟨s, .cpu i, r⟩ :: h) = s.cpu i :: cpuStates i h := by
  simp [cpuStates]

omit [DecidableEq P] in
theorem cpuStates_of_ne (s : OsSys P I) (r : Unit) (h : OsHistory P I) (hact : act ≠ .cpu i) :
    cpuStates i (⟨s, act, r⟩ :: h) = cpuStates i h := by
  simp [cpuStates, hact]

/-- Every CPU of the simulator runs this loop, in every run and with all of its steps. -/
theorem cpu_loop_of_run (hrun : Run (osStep C) (.boot C) h s) (i : Nat) :
    ∃ k, Run (cpuLoop C.codeSize C.timeSlot) .boot k (s.loop i) ∧ ownStates k = cpuStates i h := by
  induction hrun with
  | start => exact ⟨[], .start, rfl⟩
  | @next h s s' act r hrun hx ih =>
    obtain ⟨k, hk, hstates⟩ := ih
    cases act with
    | ld early =>
      have hmove : LdMove C s s' := osStep_move hx
      rw [cpuStates_of_ne s r h (by simp)]
      refine ⟨k, ?_, hstates⟩
      rw [OsSys.loop, hmove.cpu, hmove.procPc]
      exact hk
    | cpu j =>
      by_cases hj : j = i
      · subst hj
        rw [cpuStates_self]
        obtain ⟨got, done, event, hnext⟩ := cpuLoopNext_of_cpuRoutine (cpuRoutine_of_osStep hx)
        refine ⟨⟨s.loop j, .step got done, event⟩ :: k, .next hk hnext, ?_⟩
        rw [ownStates_step, hstates]
        rfl
      · have hmove : CpuMove C s j s' := (osStep_move hx).2
        have hcpu : s'.cpu i = s.cpu i := hmove.other (Ne.symm hj)
        rw [cpuStates_of_ne s r h (by simpa using hj)]
        rcases hmove.procPc with hsame | ⟨proc, hran⟩
        · refine ⟨k, ?_, hstates⟩
          rw [OsSys.loop, hcpu, hsame]
          exact hk
        · -- a call of `run` by CPU `j`
          refine ⟨⟨s.loop i, .elsewhere proc, .other⟩ :: k, .next hk ?_, by rw [ownStates_elsewhere, hstates]⟩
          rw [OsSys.loop, OsSys.loop, hcpu, hran]
          rfl

end Simulator

end SimpleOs.Os
