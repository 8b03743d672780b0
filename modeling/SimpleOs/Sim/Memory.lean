import SimpleOs.Sim.Refinement
import SimpleOs.Syscall.MemmapHonest

/-!
# What the programs do to the memory

Programs without `killall`.

* `memCallOf`, `Inst.memory` : the call of the memory that an instruction makes; `memLabel` : that of a step;
* `mem_step` : a step makes that call, or leaves the memory as it is; `mem_image` : the run of calls behind a run;
* `callsOf`, `calls_of_run` : a process makes the calls of the code executed for it, in order;
* `simulator_memory` : the memory is what the calls of the programs leave, in an order that keeps that of every program.
-/

namespace SimpleOs.Sim
open SimpleOs.Mm SimpleOs.Sched SimpleOs.Syscall SimpleOs.Timer SimpleOs.Os SimpleOs.Cpu

abbrev AnyCall := MemCall ⊕ ScRegs

def memCallOf : LibCall → Option AnyCall
  | .liballoc size regIndex => some (.inl (.alloc size.toNat regIndex.toNat))
  | .libfree regIndex => some (.inl (.free regIndex.toNat))
  | .libread source offset => some (.inl (.read source.toNat offset.toNat))
  | .libwrite data destination offset => some (.inl (.write data destination.toNat offset.toNat))
  | .libsyscall syscallIdx a1 a2 a3 => if syscallIdx = 17 then some (.inr ⟨a1.toNat, a2.toNat, a3.toNat⟩) else none

def memoryOf (ins : Inst) : Option AnyCall := ins.call.bind memCallOf

def nextInst (C : SimConfig) (s : SimSys) (i : Nat) : Option (Nat × Inst) :=
  if (s.os.cpu i).pc = .run then
    (s.os.cpu i).proc.bind fun proc => ((C.text proc)[s.os.procPc proc]?).map (proc, ·)
  else none

/-- The instruction that a step executes. -/
def instLabel (C : SimConfig) (s : SimSys) : SimAct → Option (Nat × Inst)
  | .cpu i => nextInst C s i
  | _ => none

def memLabel (C : SimConfig) (s : SimSys) (act : SimAct) : Option (Nat × AnyCall) :=
  (instLabel C s act).bind fun x => (memoryOf x.2).map (x.1, ·)

/-- What is of process `proc`. -/
def partOf {α : Type} (proc : Nat) (x : Nat × α) : Option α := if x.1 = proc then some x.2 else none

/-- The instructions a run executed for a process, newest first. -/
def instsOf (C : SimConfig) (proc : Nat) (h : SimHistory) : List Inst :=
  (h.filterMap fun e => instLabel C e.before e.act).filterMap (partOf proc)

/-- The calls a process made, newest first. -/
def callsOf (proc : Nat) (k : List (Entry MemSys (Nat × AnyCall) Unit)) : List AnyCall :=
  (k.map Entry.act).filterMap (partOf proc)

variable {C : SimConfig} {s s' : SimSys} {t : TimerSys} {i j : Nat} {act : SimAct} {r : Unit} {h : SimHistory}

/-! ## An instruction -/

def runMem (u : RunSys Nat) : MemSys := ⟨u.mm, u.dev⟩

/-- A call is a step of the memory, or leaves it as it is. -/
theorem perform_mem {T : PcbTable Nat} {u u' : RunSys Nat} {proc : Nat} {call : LibCall} {stat : Int}
    (hcall : call.kills = false) (hx : perform T u proc call = .ok (stat, u')) :
    (memCallOf call = none → runMem u' = runMem u) ∧
      ∀ c, memCallOf call = some c → anyCall (runMem u) (proc, c) = .ok ((), runMem u') := by
  cases call with
  | liballoc size regIndex =>
    obtain ⟨⟨ret, c⟩, hcall, hx⟩ := Exec.bind_ok.mp hx
    cases hx
    refine ⟨fun hnone => (nomatch hnone), fun c' hc' => ?_⟩
    cases hc'
    exact Exec.bind_ok.mpr ⟨_, Exec.bind_ok.mpr ⟨_, Exec.bind_ok.mpr ⟨_, hcall, rfl⟩, rfl⟩, rfl⟩
  | libfree regIndex =>
    obtain ⟨⟨ret, c⟩, hcall, hx⟩ := Exec.bind_ok.mp hx
    cases hx
    refine ⟨fun hnone => (nomatch hnone), fun c' hc' => ?_⟩
    cases hc'
    exact Exec.bind_ok.mpr ⟨_, Exec.bind_ok.mpr ⟨_, Exec.bind_ok.mpr ⟨_, hcall, rfl⟩, rfl⟩, rfl⟩
  | libread source offset =>
    obtain ⟨⟨ret, value, c⟩, hcall, hx⟩ := Exec.bind_ok.mp hx
    cases hx
    refine ⟨fun hnone => (nomatch hnone), fun c' hc' => ?_⟩
    cases hc'
    exact Exec.bind_ok.mpr ⟨_, Exec.bind_ok.mpr ⟨_, Exec.bind_ok.mpr ⟨_, hcall, rfl⟩, rfl⟩, rfl⟩
  | libwrite data destination offset =>
    obtain ⟨⟨ret, c⟩, hcall, hx⟩ := Exec.bind_ok.mp hx
    cases hx
    refine ⟨fun hnone => (nomatch hnone), fun c' hc' => ?_⟩
    cases hc'
    exact Exec.bind_ok.mpr ⟨_, Exec.bind_ok.mpr ⟨_, Exec.bind_ok.mpr ⟨_, hcall, rfl⟩, rfl⟩, rfl⟩
  | libsyscall syscallIdx a1 a2 a3 =>
    have hidx : syscallIdx ≠ 101 := by simpa [LibCall.kills] using hcall
    have hx : syscall T u proc syscallIdx ⟨a1.toNat, a2.toNat, a3.toNat⟩ = .ok (stat, u') := hx
    unfold syscall at hx
    simp only [memCallOf]
    by_cases hmap : syscallIdx = 17
    · rw [if_neg (by rw [hmap]; decide), if_pos hmap] at hx
      obtain ⟨⟨ret, regs, c⟩, hcall, hx⟩ := Exec.bind_ok.mp hx
      cases hx
      rw [if_pos hmap]
      refine ⟨fun hnone => (nomatch hnone), fun c' hc' => ?_⟩
      cases hc'
      exact Exec.bind_ok.mpr ⟨_, Exec.bind_ok.mpr ⟨_, hcall, rfl⟩, rfl⟩
    · rw [if_neg hmap]
      refine ⟨fun _ => ?_, fun c' hc' => (nomatch hc')⟩
      split at hx
      · cases hx
        rfl
      · cases hx
        rfl

theorem run_mem {T : PcbTable Nat} {u u' : RunSys Nat} {proc : Nat} {stat : Int} (hkill : KillsNone u.text)
    (hx : Cpu.run T u proc = .ok (stat, u')) :
    (((u.text proc)[u.pc proc]?).bind memoryOf = none → runMem u' = runMem u) ∧
      ∀ c, ((u.text proc)[u.pc proc]?).bind memoryOf = some c → anyCall (runMem u) (proc, c) = .ok ((), runMem u') := by
  unfold Cpu.run at hx
  cases hins : (u.text proc)[u.pc proc]? with
  | none =>
    rw [hins] at hx
    cases hx
    exact ⟨fun _ => rfl, fun c hc => (nomatch hc)⟩
  | some ins =>
    rw [hins] at hx
    dsimp only at hx
    rw [Option.bind_some]
    unfold memoryOf
    cases hcall : ins.call with
    | none =>
      rw [hcall] at hx
      cases hx
      exact ⟨fun _ => rfl, fun c hc => (nomatch hc)⟩
    | some call =>
      rw [hcall] at hx
      rw [Option.bind_some]
      have hmem : runMem { u with pc := Function.update u.pc proc (u.pc proc + 1) } = runMem u := rfl
      have hperform := perform_mem (hkill proc ins (List.mem_of_getElem? hins) call hcall) hx
      rwa [hmem] at hperform

/-! ## The steps -/

/-- What a step of a CPU does to the memory and to what was executed: it executes its next instruction, or nothing. -/
theorem CpuCase.next {s₁ : SimSys} (hc : Coupled C s) (hi : i < C.numCpus)
    (htimer : TimerCase C s.timer (s.cpuTimer C i) t) (hcase : CpuCase C { s with timer := t } i s₁) :
    (nextInst C s i = none ∧ s₁.mem = s.mem ∧ s₁.os.executed = s.os.executed) ∨
    ∃ proc stat u, (s.os.cpu i).pc = .run ∧ (s.os.cpu i).proc = some proc ∧
      nextInst C s i = ((C.text proc)[s.os.procPc proc]?).map (proc, ·) ∧
      Cpu.run C.table (s.runSys C) proc = .ok (stat, u) ∧ s₁.mem = runMem u ∧
      s₁.os.executed = Function.update s.os.executed proc
        (s.os.executed proc ++ ((C.text proc)[s.os.procPc proc]?).toList) := by
  cases hcase with
  | sleep hdev =>
    refine .inl ⟨?_, rfl, rfl⟩
    rcases cpu_timed (hc.cpu i hi) htimer with ⟨-, hpc, -⟩ | ⟨hawake, -⟩
    · rw [nextInst, hpc]
      rfl
    · exact absurd hdev hawake
  | @run proc stat u _ hpc hproc hrun =>
    have hpc : (s.os.cpu i).pc = .run := hpc
    have hproc : (s.os.cpu i).proc = some proc := hproc
    refine .inr ⟨proc, stat, u, hpc, hproc, ?_, hrun, rfl, rfl⟩
    rw [nextInst, if_pos hpc, hproc]
    rfl
  | thread _ hpc hos =>
    have hpc : (s.os.cpu i).pc ≠ .run := hpc
    refine .inl ⟨by rw [nextInst, if_neg hpc], rfl, ?_⟩
    cases (osStep_move hos).2 with
    | run hrun => exact absurd hrun hpc
    | _ => rfl

theorem LdCase.next {s₁ : SimSys} (hcase : LdCase C { s with timer := t } s₁) :
    s₁.mem = s.mem ∧ s₁.os.executed = s.os.executed := by
  cases hcase with
  | sleep => exact ⟨rfl, rfl⟩
  | thread _ hos =>
    refine ⟨rfl, ?_⟩
    have hmove : LdMove (C.os false) s.os _ := osStep_move hos
    cases hmove <;> rfl

/-- Execution: a step appends the instruction it executes to what was executed for its process. -/
theorem executed_append (hc : Coupled C s) (hx : simStep C s act = .ok (r, s')) (proc : Nat) :
    s'.os.executed proc = s.os.executed proc ++ ((instLabel C s act).bind (partOf proc)).toList := by
  cases simStep_move hx with
  | @cpu i t _ hi htimer hcase =>
    simp only [instLabel]
    rcases hcase.next hc hi htimer with ⟨hnone, -, hex⟩ | ⟨x, stat, u, -, -, hnext, -, -, hex⟩
    · rw [hnone, hex]
      exact (List.append_nil _).symm
    · rw [hnext, hex]
      by_cases hp : proc = x
      · rw [hp, Function.update_self]
        cases (C.text x)[s.os.procPc x]? with
        | none => rfl
        | some ins =>
          rw [Option.map_some, Option.bind_some, partOf, if_pos rfl]
      · rw [Function.update_of_ne hp]
        cases (C.text x)[s.os.procPc x]? with
        | none => exact (List.append_nil _).symm
        | some ins =>
          rw [Option.map_some, Option.bind_some, partOf, if_neg (Ne.symm hp)]
          exact (List.append_nil _).symm
  | ld _ hcase =>
    rw [hcase.next.2]
    exact (List.append_nil _).symm
  | timer => exact (List.append_nil _).symm
  | stop => exact (List.append_nil _).symm

theorem executed_eq (hrun : Run (simStep C) (.boot C) h s) (proc : Nat) :
    s.os.executed proc = (instsOf C proc h).reverse :=
  hrun.invariant (I := fun h s => s.os.executed proc = (instsOf C proc h).reverse) rfl
    fun h s a r s' hrun hex hx => by
      rw [executed_append (coupled_run hrun) hx proc, hex]
      unfold instsOf
      rw [List.filterMap_cons]
      cases instLabel C s a with
      | none => exact List.append_nil _
      | some x =>
        dsimp only
        rw [List.filterMap_cons, Option.bind_some]
        cases partOf proc x with
        | none => exact List.append_nil _
        | some ins => rw [List.reverse_cons]; rfl

/-- The memory: a step makes the call of its instruction, or leaves the memory as it is. -/
theorem mem_step (hc : Coupled C s) (hkill : KillsNone C.text) (hx : simStep C s act = .ok (r, s')) :
    (memLabel C s act = none → s'.mem = s.mem) ∧
      ∀ c, memLabel C s act = some c → anyCall s.mem c = .ok ((), s'.mem) := by
  cases simStep_move hx with
  | @cpu i t _ hi htimer hcase =>
    rcases hcase.next hc hi htimer with ⟨hnone, hmem, -⟩ | ⟨x, stat, u, -, -, hnext, hrun, hmem, -⟩
    · simp only [memLabel, instLabel, hnone]
      exact ⟨fun _ => hmem, fun c hc' => (nomatch hc')⟩
    · have hrunMem := run_mem hkill hrun
      have hlabel : memLabel C s (.cpu i) = (((C.text x)[s.os.procPc x]?).bind memoryOf).map (x, ·) := by
        simp only [memLabel, instLabel, hnext]
        cases (C.text x)[s.os.procPc x]? <;> rfl
      rw [hlabel, hmem]
      refine ⟨fun hnone => ?_, fun c hc' => ?_⟩
      · exact hrunMem.1 (Option.map_eq_none_iff.mp hnone)
      · obtain ⟨call, hcall, rfl⟩ := Option.map_eq_some_iff.mp hc'
        exact hrunMem.2 call hcall
  | ld _ hcase => exact ⟨fun _ => hcase.next.1, fun c hc' => (nomatch hc')⟩
  | timer => exact ⟨fun _ => rfl, fun c hc' => (nomatch hc')⟩
  | stop => exact ⟨fun _ => rfl, fun c hc' => (nomatch hc')⟩

/-! ## Runs -/

/-- The run of calls behind a run of the simulator. -/
theorem mem_image (hkill : KillsNone C.text) (hrun : Run (simStep C) (.boot C) h s) :
    ∃ k, Run anyCall (.boot C.memramsz C.memswpsz) k s.mem ∧
      List.Forall₂ (Shows SimSys.mem (memLabel C)) (visible (memLabel C) h) k :=
  hrun.project SimSys.mem (memLabel C)
    (fun _ _ _ _ _ hrun hx hl => (mem_step (coupled_run hrun) hkill hx).1 hl)
    fun _ _ _ _ _ b hrun hx hl => ⟨(), (mem_step (coupled_run hrun) hkill hx).2 b hl⟩

theorem calls_eq {k : List (Entry MemSys (Nat × AnyCall) Unit)} (proc : Nat)
    (hk : List.Forall₂ (Shows SimSys.mem (memLabel C)) (visible (memLabel C) h) k) :
    callsOf proc k = (instsOf C proc h).filterMap memoryOf := by
  rw [callsOf, filterMap_label hk]
  unfold instsOf memLabel
  rw [List.filterMap_filterMap, List.filterMap_filterMap, List.filterMap_filterMap]
  refine List.filterMap_congr fun e _ => ?_
  cases instLabel C e.before e.act with
  | none => rfl
  | some x =>
    obtain ⟨y, ins⟩ := x
    rw [Option.bind_some, Option.bind_some]
    unfold partOf
    by_cases hy : y = proc
    · cases hins : memoryOf ins <;> simp [hy, hins]
    · cases memoryOf ins <;> simp [hy]

theorem executed_sim (hkill : KillsNone C.text) (hrun : Run (simStep C) (.boot C) h s) (proc : Nat) :
    Executed (C.os true) s.os proc := by
  obtain ⟨k, hk, -⟩ := os_image hkill hrun
  exact executed_run hk proc

theorem calls_of_run (hkill : KillsNone C.text) (hrun : Run (simStep C) (.boot C) h s)
    {k : List (Entry MemSys (Nat × AnyCall) Unit)}
    (hk : List.Forall₂ (Shows SimSys.mem (memLabel C)) (visible (memLabel C) h) k) (proc : Nat) :
    callsOf proc k = (((C.text proc).take (s.os.procPc proc)).filterMap memoryOf).reverse := by
  have hinsts : instsOf C proc h = ((C.text proc).take (s.os.procPc proc)).reverse := by
    rw [← List.reverse_reverse (instsOf C proc h), ← executed_eq hrun proc]
    exact congrArg List.reverse (executed_sim hkill hrun proc).order
  rw [calls_eq proc hk, hinsts, List.filterMap_reverse]

/-- What the programs do to the memory: in every run the memory is what a sequence of calls leaves in which every
process makes the calls of its program up to `pc`, each once and in the order of the program, and all of them before
it is freed. -/
theorem simulator_memory (hkill : KillsNone C.text) (hrun : Run (simStep C) (.boot C) h s) :
    ∃ k, Run anyCall (.boot C.memramsz C.memswpsz) k s.mem ∧ ∀ proc,
      callsOf proc k = (((C.text proc).take (s.os.procPc proc)).filterMap memoryOf).reverse ∧
      (s.os.freed proc = true → callsOf proc k = ((C.text proc).filterMap memoryOf).reverse) := by
  obtain ⟨k, hk, hshows⟩ := mem_image hkill hrun
  refine ⟨k, hk, fun proc => ?_⟩
  have hcalls := calls_of_run hkill hrun hshows proc
  refine ⟨hcalls, fun hfreed => ?_⟩
  have hpc : s.os.procPc proc = (C.text proc).length := (executed_sim hkill hrun proc).freed hfreed
  rw [hcalls, hpc, List.take_length]

/-- The calls of the first program. -/
theorem simulator_memory_twoPrograms : ∃ (h : SimHistory) (s : SimSys), h.map Entry.act = twoProgramsRun ∧
    s.os.freed 0 = true ∧ ∃ k, Run anyCall (.boot 512 512) k s.mem ∧ ∀ proc,
      callsOf proc k = (((twoPrograms.text proc).take (s.os.procPc proc)).filterMap memoryOf).reverse ∧
      (s.os.freed proc = true → callsOf proc k = ((twoPrograms.text proc).filterMap memoryOf).reverse) := by
  obtain ⟨h, s, hrun, hact, hfreed⟩ := exists_run_of_replay (simStep twoPrograms) (.boot twoPrograms) twoProgramsRun
    (fun _ s => s.os.freed 0) (by decide +kernel)
  exact ⟨h, s, hact, hfreed, simulator_memory twoPrograms_killsNone hrun⟩

end SimpleOs.Sim
