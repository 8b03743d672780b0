import SimpleOs.Sim.Safety

/-!
# Start times

* `loadSlot` : the slot in which the loader adds a process, `earliest` : the first in which it could;
* `LdAt`, `ldAt_step`, `ldAt_run` : where the loader is in its list, in every state reached;
* `Adds` : a step adds a process; `start_times` : it does so in its slot, and is late for none;
* `not_before_start` : no instruction of a process is executed before.
-/

namespace SimpleOs.Sim
open SimpleOs.Mm SimpleOs.Sched SimpleOs.Syscall SimpleOs.Timer SimpleOs.Os SimpleOs.Cpu

/-- The slot of process `i` : its start time, or the slot after that of the process before it. -/
def loadSlot (start : Nat → Nat) : Nat → Nat
  | 0 => start 0
  | i + 1 => max (loadSlot start i + 1) (start (i + 1))

def earliest (start : Nat → Nat) : Nat → Nat
  | 0 => 0
  | i + 1 => loadSlot start i + 1

/-- The loader, with the processes from `j` on in its list, at `time`. -/
structure LdAtIndex (start : Nat → Nat) (n time : Nat) (ld : LdSt Nat) (j : Nat) : Prop where
  rest : ld.rest = List.range' j (n - j)
  le : j ≤ n
  before : ld.pc = .check ∨ ld.pc = .early → j < n ∧ earliest start j ≤ ld.calls ∧ ld.calls ≤ loadSlot start j
  added : ld.pc = .added → ld.calls + 1 = earliest start j
  after : ld.pc = .inSlot ∨ ld.pc = .finish ∨ ld.pc = .leaving ∨ ld.pc = .detached → ld.calls = earliest start j
  spent : ld.pc = .finish ∨ ld.pc = .leaving ∨ ld.pc = .detached → j = n
  past : ld.pc = .detached → earliest start j ≤ time

variable {start : Nat → Nat} {C : SimConfig} {s s' : SimSys} {t : TimerSys} {i j n time : Nat} {act : SimAct} {r : Unit}
  {h : SimHistory} {ld : LdSt Nat}

theorem loadSlot_eq (start : Nat → Nat) (j : Nat) : loadSlot start j = max (earliest start j) (start j) := by
  cases j with
  | zero => exact (Nat.zero_max _).symm
  | succ j => rfl

theorem earliest_le (start : Nat → Nat) (j : Nat) : earliest start j ≤ loadSlot start j := by
  rw [loadSlot_eq]
  exact Nat.le_max_left ..

theorem loadSlot_lt (start : Nat → Nat) {i j : Nat} (hij : i < j) : loadSlot start i < loadSlot start j := by
  induction hij with
  | refl => exact Nat.lt_of_lt_of_le (Nat.lt_succ_self _) (Nat.le_max_left ..)
  | step _ ih => exact ih.trans (Nat.lt_of_lt_of_le (Nat.lt_succ_self _) (Nat.le_max_left ..))

theorem loadSlot_mono (start : Nat → Nat) {i j : Nat} (hij : i ≤ j) : loadSlot start i ≤ loadSlot start j := by
  rcases Nat.lt_or_eq_of_le hij with hlt | rfl
  · exact (loadSlot_lt start hlt).le
  · exact Nat.le_refl _

theorem start_le_loadSlot (start : Nat → Nat) (j : Nat) : start j ≤ loadSlot start j := by
  rw [loadSlot_eq]
  exact Nat.le_max_right ..

/-! ## The loader -/

def LdAt (start : Nat → Nat) (n time : Nat) (ld : LdSt Nat) : Prop := ∃ j, LdAtIndex start n time ld j

theorem LdAt.mono {time' : Nat} (hat : LdAt start n time ld) (hle : time ≤ time') : LdAt start n time' ld := by
  obtain ⟨j, hat⟩ := hat
  exact ⟨j, hat.rest, hat.le, hat.before, hat.added, hat.after, hat.spent, fun hpc => (hat.past hpc).trans hle⟩

theorem ldAt_next {calls : Nat} (hj : j ≤ n) (hcalls : calls = earliest start j) :
    LdAt start n time (.next (List.range' j (n - j)) calls) := by
  refine ⟨j, ?_⟩
  unfold LdSt.next
  rcases Nat.lt_or_eq_of_le hj with hlt | rfl
  · have hne : (List.range' j (n - j)).isEmpty = false := by
      rw [List.isEmpty_eq_false_iff, Ne, List.range'_eq_nil_iff]
      omega
    rw [hne]
    refine ⟨rfl, hj, fun _ => ⟨hlt, hcalls.ge, hcalls.le.trans (earliest_le start j)⟩, ?_, ?_, ?_, ?_⟩
    · simp
    · simp
    · simp
    · simp
  · have hnil : List.range' j (j - j) = [] := by rw [Nat.sub_self, List.range'_zero]
    rw [hnil]
    refine ⟨hnil.symm, Nat.le_refl _, ?_, ?_, fun _ => hcalls, fun _ => rfl, ?_⟩
    · simp
    · simp
    · simp

theorem ldAt_boot (C : SimConfig) : LdAt C.startTime C.numProcesses 0 (OsSys.boot (C.os false)).ld := by
  have hrange : (C.os false).load = List.range' 0 (C.numProcesses - 0) := List.range_eq_range'
  have hnext : LdAt C.startTime C.numProcesses 0 (.next (List.range' 0 (C.numProcesses - 0)) 0) :=
    ldAt_next (Nat.zero_le _) rfl
  rw [← hrange] at hnext
  exact hnext

theorem LdAtIndex.head (hat : LdAtIndex start n time ld j) {proc : Nat} {rest : List Nat}
    (hrest : ld.rest = proc :: rest) :
    proc = j ∧ j < n ∧ rest = List.range' (j + 1) (n - (j + 1)) := by
  have hlt : j < n := by
    by_contra hge
    have hnil : n - j = 0 := by omega
    rw [hat.rest, hnil] at hrest
    cases hrest
  have hsucc : n - j = n - (j + 1) + 1 := by omega
  rw [hat.rest, hsucc, List.range'_succ] at hrest
  cases hrest
  exact ⟨rfl, hlt, rfl⟩

/-- The test of the start time : the loader waits one more slot, or adds the process in its slot. -/
theorem check_at (hat : LdAtIndex C.startTime C.numProcesses s.timer.time s.os.ld j) (hpc : s.os.ld.pc = .check)
    (hcalls : s.os.ld.calls = s.timer.time) {proc : Nat} {rest : List Nat} (hrest : s.os.ld.rest = proc :: rest) :
    proc = j ∧ (s.early C = true → s.timer.time < C.startTime j) ∧
      (s.early C = false → s.timer.time = loadSlot C.startTime j) := by
  obtain ⟨rfl, hlt, -⟩ := hat.head hrest
  obtain ⟨-, hge, hle⟩ := hat.before (.inl hpc)
  rw [SimSys.early, hrest]
  refine ⟨rfl, fun hearly => of_decide_eq_true hearly, fun hlate => ?_⟩
  have hstart := of_decide_eq_false hlate
  rw [loadSlot_eq] at hle ⊢
  omega

/-- The loader after a step of its own. -/
theorem ldStep_at {os : OsSys Nat Inst} (hat : LdAtIndex C.startTime C.numProcesses s.timer.time s.os.ld j)
    (hout : ldPlace s.os.ld.pc = .outside → s.os.ld.calls = s.timer.time)
    (hx : osStep (C.os false) s.os (.ld (s.early C)) = .ok (r, os)) :
    LdAt C.startTime C.numProcesses s.timer.time os.ld := by
  by_cases hcheck : s.os.ld.pc = .check
  · have hcalls := hout (by rw [hcheck]; rfl)
    obtain ⟨proc, rest, hrest, hcase⟩ := ldStep_check hcheck hx
    obtain ⟨rfl, hlt, htail⟩ := hat.head hrest
    obtain ⟨-, hearly, hlate⟩ := check_at hat hcheck hcalls hrest
    obtain ⟨-, hge, -⟩ := hat.before (.inl hcheck)
    rcases hcase with ⟨he, rfl⟩ | ⟨he, rfl⟩
    · have hstart := hearly he
      have hle := start_le_loadSlot C.startTime proc
      refine ⟨proc, hrest ▸ hat.rest, hat.le, fun _ => ⟨hlt, ?_, ?_⟩, ?_, ?_, ?_, ?_⟩
      · exact hge.trans (Nat.le_succ _)
      · show s.os.ld.calls + 1 ≤ loadSlot C.startTime proc
        omega
      all_goals simp
    · refine ⟨proc + 1, htail, hlt, ?_, fun _ => ?_, ?_, ?_, ?_⟩
      · simp
      · show s.os.ld.calls + 1 = loadSlot C.startTime proc + 1
        rw [hcalls, hlate he]
      all_goals simp
  · have hmove : LdMove (C.os false) s.os os := osStep_move hx
    cases hmove with
    | early hpc => exact absurd hpc hcheck
    | add hpc => exact absurd hpc hcheck
    | again hpc =>
      refine ⟨j, hat.rest, hat.le, fun _ => hat.before (.inr hpc), ?_, ?_, ?_, ?_⟩
      all_goals simp
    | call hpc =>
      refine ⟨j, hat.rest, hat.le, ?_, ?_, fun _ => hat.added hpc, ?_, ?_⟩
      all_goals simp
    | next hpc =>
      rw [hat.rest]
      exact ldAt_next hat.le (hat.after (.inl hpc))
    | finish hpc =>
      refine ⟨j, hat.rest, hat.le, ?_, ?_, fun _ => hat.after (by simp [hpc]), fun _ => hat.spent (by simp [hpc]), ?_⟩
      all_goals simp
    | detach hpc =>
      have hcalls := hat.after (by simp [hpc])
      refine ⟨j, hat.rest, hat.le, ?_, ?_, fun _ => hcalls, fun _ => hat.spent (by simp [hpc]), fun _ => ?_⟩
      · simp
      · simp
      · rw [← hcalls, hout (by rw [hpc]; rfl)]

theorem time_mono (hx : simStep C s act = .ok (r, s')) : s.timer.time ≤ s'.timer.time := by
  cases simStep_move hx with
  | cpu _ htimer hcase =>
    rw [hcase.frame.1]
    exact (cpuTimer_time htimer).ge
  | ld htimer hcase =>
    rw [hcase.frame.1]
    exact (ldTimer_time htimer).ge
  | timer ht =>
    cases timerStep_move ht with
    | tick => exact Nat.le_succ _
    | _ => exact Nat.le_refl _
  | stop _ ht =>
    cases timerStep_move ht
    exact Nat.le_refl _

theorem ldAt_step (hc : Coupled C s) (hat : LdAt C.startTime C.numProcesses s.timer.time s.os.ld)
    (hx : simStep C s act = .ok (r, s')) : LdAt C.startTime C.numProcesses s'.timer.time s'.os.ld := by
  have hle := time_mono hx
  cases simStep_move hx with
  | cpu _ htimer hcase =>
    rw [hcase.frame.2.2]
    exact hat.mono hle
  | @ld t _ htimer hcase =>
    cases hcase with
    | sleep => exact hat.mono hle
    | thread _ hos =>
      obtain ⟨j, hat⟩ := hat
      have hearly := early_timed htimer
      rw [hearly] at hos
      exact (ldStep_at hat hc.time_of_ld hos).mono hle
  | timer => exact hat.mono hle
  | stop => exact hat.mono hle

theorem ldAt_run (hrun : Run (simStep C) (.boot C) h s) : LdAt C.startTime C.numProcesses s.timer.time s.os.ld :=
  hrun.invariant (I := fun _ s => LdAt C.startTime C.numProcesses s.timer.time s.os.ld) (ldAt_boot C)
    fun _ _ _ _ _ hrun hat hx => ldAt_step (coupled_run hrun) hat hx

/-! ## The slots of the processes -/

/-- Where the processes are that the loader has not added, and those it has. -/
theorem slot_of_rest (hc : Coupled C s) (hat : LdAt C.startTime C.numProcesses s.timer.time s.os.ld) {k : Nat}
    (hk : k < C.numProcesses) : (k ∈ s.os.ld.rest → s.timer.time ≤ loadSlot C.startTime k) ∧
      (k ∉ s.os.ld.rest → loadSlot C.startTime k ≤ s.timer.time) := by
  obtain ⟨j, hat⟩ := hat
  have hmem : k ∈ s.os.ld.rest ↔ j ≤ k := by
    rw [hat.rest, List.mem_range'_1]
    omega
  have hearliest := earliest_le C.startTime j
  have hout : s.os.ld.pc = .added → s.os.ld.calls = s.timer.time := fun hpc => hc.time_of_ld (by rw [hpc]; rfl)
  have hcalls := hc.ld_calls
  have hbefore := hat.before
  have hadded := hat.added
  have hafter := hat.after
  have hover := hat.spent
  have hpast := hat.past
  rw [hmem]
  refine ⟨fun hle => (?_ : _ ≤ loadSlot C.startTime j).trans (loadSlot_mono _ hle), fun hlt => ?_⟩
  · cases hpc : s.os.ld.pc with
    | check | early | added | inSlot =>
      simp only [hpc, reduceCtorEq, ne_eq, not_false_eq_true, forall_const, true_or, or_true, or_self]
        at hcalls hbefore hadded hafter
      omega
    | finish | leaving | detached =>
      simp only [hpc, reduceCtorEq, forall_const, true_or, or_true, false_or] at hover
      omega
  · obtain ⟨m, rfl⟩ : ∃ m, j = m + 1 := ⟨j - 1, by omega⟩
    have hslot := loadSlot_mono C.startTime (Nat.le_of_lt_succ (Nat.not_le.mp hlt))
    have hnext : earliest C.startTime (m + 1) = loadSlot C.startTime m + 1 := rfl
    cases hpc : s.os.ld.pc with
    | added =>
      have htime := hout hpc
      have hadd := hadded hpc
      omega
    | detached =>
      have hdet := hpast hpc
      omega
    | check | early | inSlot | finish | leaving =>
      simp only [hpc, reduceCtorEq, ne_eq, not_false_eq_true, forall_const, true_or, or_true, or_self]
        at hcalls hbefore hafter
      omega

/-- A step in which the loader adds process `k`. -/
def Adds (C : SimConfig) (e : Entry SimSys SimAct Unit) (k : Nat) : Prop :=
  e.act = .ld ∧ e.before.os.ld.pc = .check ∧ e.before.os.ld.rest.head? = some k ∧ e.before.early C = false

theorem adds_at (hc : Coupled C s) (hat : LdAt C.startTime C.numProcesses s.timer.time s.os.ld) {k : Nat}
    (hadds : Adds C ⟨s, act, r⟩ k) : s.timer.time = loadSlot C.startTime k := by
  obtain ⟨-, hpc, hhead, hearly⟩ := hadds
  obtain ⟨j, hat⟩ := hat
  obtain ⟨rest, hrest⟩ := List.head?_eq_some_iff.mp hhead
  obtain ⟨rfl, -, hlate⟩ := check_at hat hpc (hc.time_of_ld (by rw [show s.os.ld.pc = .check from hpc]; rfl)) hrest
  exact hlate hearly

/-- Start times: in every run the loader adds a process in its slot, the first from its start time on in which it
has added the process before it and let a slot pass, and it is late for none. -/
theorem start_times (hrun : Run (simStep C) (.boot C) h s) :
    (∀ e ∈ h, ∀ k, Adds C e k → e.before.timer.time = loadSlot C.startTime k) ∧
    ∀ k < C.numProcesses, (k ∈ s.os.ld.rest → s.timer.time ≤ loadSlot C.startTime k) ∧
      (k ∉ s.os.ld.rest → loadSlot C.startTime k ≤ s.timer.time) := by
  refine ⟨?_, fun k hk => slot_of_rest (coupled_run hrun) (ldAt_run hrun) hk⟩
  induction hrun with
  | start => exact fun e he => absurd he List.not_mem_nil
  | @next h s s' a r hrun hx ih =>
    intro e he k hadds
    rcases List.mem_cons.mp he with rfl | he
    · exact adds_at (coupled_run hrun) (ldAt_run hrun) hadds
    · exact ih e he k hadds

/-- The second program is added in slot 2. -/
theorem start_times_twoPrograms : ∃ (h : SimHistory) (s : SimSys), h.map Entry.act = twoProgramsRun ∧
    (∀ e ∈ h, ∀ k, Adds twoPrograms e k → e.before.timer.time = loadSlot (2 * ·) k) ∧
    ∀ k < 2, (k ∈ s.os.ld.rest → s.timer.time ≤ loadSlot (2 * ·) k) ∧
      (k ∉ s.os.ld.rest → loadSlot (2 * ·) k ≤ s.timer.time) := by
  obtain ⟨h, s, hrun, hact, -⟩ := exists_run_of_replay (simStep twoPrograms) (.boot twoPrograms) twoProgramsRun
    (fun _ _ => true) (by decide +kernel)
  exact ⟨h, s, hact, start_times hrun⟩

theorem slot_of_cpu (hc : Coupled C s) (hs : Safe C s) (hat : LdAt C.startTime C.numProcesses s.timer.time s.os.ld)
    {k : Nat} (hcpu : (s.os.cpu i).proc = some k) : loadSlot C.startTime k ≤ s.timer.time := by
  obtain ⟨own, ho⟩ := hs.owned
  refine (slot_of_rest hc hat (hs.within.cpu i k hcpu)).2 fun hrest => ?_
  cases (ho.rest k hrest).symm.trans (ho.cpu i k hcpu)

/-- No instruction of a process is executed before its slot, nor before its start time, whatever the programs do. -/
theorem not_before_start (hram : C.memramsz < 2 ^ 31) (hswp : C.memswpsz < 2 ^ 31)
    (hrun : Run (simStep C) (.boot C) h s) :
    ∀ e ∈ h, ∀ k ins, instLabel C e.before e.act = some (k, ins) →
      loadSlot C.startTime k ≤ e.before.timer.time ∧ C.startTime k ≤ e.before.timer.time := by
  induction hrun with
  | start => exact fun e he => absurd he List.not_mem_nil
  | @next h s s' a r hrun hx ih =>
    intro e he k ins hins
    rcases List.mem_cons.mp he with rfl | he
    · have hslot : loadSlot C.startTime k ≤ s.timer.time := by
        cases a with
        | cpu i =>
          simp only [instLabel, nextInst] at hins
          split at hins
          · obtain ⟨x, hproc, hins⟩ := Option.bind_eq_some_iff.mp hins
            obtain ⟨y, -, hxy⟩ := Option.map_eq_some_iff.mp hins
            cases hxy
            exact slot_of_cpu (coupled_run hrun) (safe_run hram hswp hrun) (ldAt_run hrun) hproc
          · cases hins
        | _ => cases hins
      exact ⟨hslot, (start_le_loadSlot _ k).trans hslot⟩
    · exact ih e he k ins hins

theorem not_before_start_twoPrograms : ∃ (h : SimHistory) (s : SimSys), h.map Entry.act = twoProgramsRun ∧
    s.os.executed 1 = [⟨.calc, 0, 0, 0, 0⟩] ∧ ∀ e ∈ h, ∀ k ins, instLabel twoPrograms e.before e.act = some (k, ins) →
      loadSlot (2 * ·) k ≤ e.before.timer.time ∧ 2 * k ≤ e.before.timer.time := by
  obtain ⟨h, s, hrun, hact, hex⟩ := exists_run_of_replay (simStep twoPrograms) (.boot twoPrograms) twoProgramsRun
    (fun _ s => decide (s.os.executed 1 = [⟨.calc, 0, 0, 0, 0⟩])) (by decide +kernel)
  exact ⟨h, s, hact, of_decide_eq_true hex, not_before_start (by decide) (by decide) hrun⟩

end SimpleOs.Sim
