import Mathlib.Algebra.Order.BigOperators.Group.Finset
import SimpleOs.Os.Completion
import SimpleOs.Sim.Progress
import SimpleOs.Sim.StartTime
import SimpleOs.Timer.Rank

/-!
# All programs are executed

Programs without `killall`, on at least one CPU, with room for them in the levels.

* `SimSys.rank`, `simStep_rank` : every step brings the simulator further;
* `stepBound`, `length_le` : so `_time` bounds the steps of a run;
* `doneBy`, `completed_at` : the slot by which all programs have been executed;
* `simulator_completes` : a run that has come past this slot, or is longer than it allows, or has ended, has executed
  all programs.
-/

namespace SimpleOs.Sim
open SimpleOs.Mm SimpleOs.Sched SimpleOs.Syscall SimpleOs.Timer SimpleOs.Os SimpleOs.Cpu

variable {C : SimConfig} {s s' : SimSys} {t t' : TimerSys} {i j : Nat} {act : SimAct} {r : Unit} {h : SimHistory}

/-! ## How far the threads are -/

/-- How far a CPU is in its slot, from its call of `next_slot` on. -/
def cpuRank (d : Device) : CpuPc → Nat
  | .inSlot => waitRank d
  | .top => 3
  | .reload _ => 4
  | .recheck => 5
  | .run | .leaving => 6
  | .toCall | .stopped => 7

def ldRank (d : Device) : LdPc → Nat
  | .early | .inSlot => waitRank d
  | .check | .finish => 3
  | .added | .leaving => 4
  | .detached => 5

def SimSys.cpuTerm (C : SimConfig) (s : SimSys) (i : Nat) : Nat :=
  8 * (s.os.cpu i).calls + cpuRank (s.timer.dev (C.cpuDev i)) (s.os.cpu i).pc

def SimSys.ldTerm (s : SimSys) : Nat := 8 * s.os.ld.calls + ldRank (s.timer.dev LD_DEV) s.os.ld.pc

/-- How far all threads are, the timer and `main`. -/
def SimSys.rank (C : SimConfig) (s : SimSys) : Nat :=
  ∑ i ∈ Finset.range C.numCpus, s.cpuTerm C i + s.ldTerm + s.timer.rank C.devices + if s.timer.stop then 1 else 0

theorem cpuRank_le (d : Device) (pc : CpuPc) : cpuRank d pc ≤ 7 := by
  have hle := waitRank_le d
  cases pc with
  | inSlot => exact hle.trans (by decide)
  | _ => simp [cpuRank]

theorem ldRank_le (d : Device) (pc : LdPc) : ldRank d pc ≤ 5 := by
  have hle := waitRank_le d
  cases pc with
  | early => exact hle.trans (by decide)
  | inSlot => exact hle.trans (by decide)
  | _ => simp [ldRank]

theorem cpuMove_rank {D : OsConfig Nat Inst} {os os' : OsSys Nat Inst} (hmove : CpuMove D os i os') (d d' : Device) :
    8 * (os.cpu i).calls + cpuRank d (os.cpu i).pc < 8 * (os'.cpu i).calls + cpuRank d' (os'.cpu i).pc := by
  have hle := waitRank_le d
  cases hmove with
  | @fetch proc sched hpc =>
    rw [hpc, OsSys.setCpu_self]
    cases proc with
    | none => simp [cpuRank]
    | some => simp [cpuRank]
  | pass hpc =>
    rw [hpc, OsSys.setCpu_self]
    simp only [cpuRank]
    omega
  | call hpc =>
    rw [hpc, OsSys.setCpu_self]
    simp only [cpuRank]
    omega
  | finish hpc | put hpc | keep hpc | reload hpc | leave hpc | skip hpc | dispatch hpc | run hpc | detach hpc =>
    rw [hpc, OsSys.setCpu_self]
    simp [cpuRank]

theorem ldMove_rank {D : OsConfig Nat Inst} {os os' : OsSys Nat Inst} (hmove : LdMove D os os') (d d' : Device) :
    8 * os.ld.calls + ldRank d os.ld.pc < 8 * os'.ld.calls + ldRank d' os'.ld.pc := by
  have hle := waitRank_le d
  cases hmove with
  | next hpc =>
    rw [hpc]
    unfold LdSt.next
    dsimp only
    split
    · simp only [ldRank]
      omega
    · simp only [ldRank]
      omega
  | early hpc | add hpc | again hpc | call hpc | finish hpc | detach hpc =>
    rw [hpc]
    simp only [ldRank]
    omega

/-! ## The steps -/

theorem TimerCase.dev {b : Option TimerAct} (htimer : TimerCase C t b t')
    (hb : ∀ a ∈ b, ∃ k, actDev a = some k ∧ k ≠ j) :
    t'.dev j = t.dev j := by
  cases b with
  | none =>
    cases htimer
    rfl
  | some a =>
    obtain ⟨k, hk, hne⟩ := hb a rfl
    cases timerStep_move htimer with
    | enter | wait | detach =>
      cases hk
      exact TimerSys.setDev_dev_of_ne _ (Ne.symm hne) _
    | _ => cases hk

theorem TimerCase.rank {b : Option TimerAct} (htimer : TimerCase C t b t') (hb : ∀ a ∈ b, ∃ k, actDev a = some k) :
    t.rank C.devices ≤ t'.rank C.devices ∧ t'.stop = t.stop := by
  cases b with
  | none =>
    cases htimer
    exact ⟨Nat.le_refl _, rfl⟩
  | some a =>
    obtain ⟨k, hk⟩ := hb a rfl
    exact ⟨(device_rank (fun he => by rw [he] at hk; cases hk) htimer).2,
      stop_eq (fun he => by rw [he] at hk; cases hk) htimer⟩

theorem waitRank_asleep {n : Nat} (hx : timerStep n t (.wait j) = .ok (r, t')) (hasleep : (t'.dev j).pc = .asleep) :
    waitRank (t.dev j) < waitRank (t'.dev j) := by
  have hdone := (asleep_iff_done hx).mp hasleep
  cases timerStep_move hx with
  | wait hi hpc =>
    have hbefore : waitRank (t.dev j) = 0 := by
      unfold waitRank
      rw [hpc, hdone]
      rfl
    rw [hbefore]
    unfold waitRank
    rw [if_pos hasleep]
    exact Nat.zero_lt_one

/-- A step of a CPU brings it further. -/
theorem cpuTerm_lt (hc : Coupled C s) (hi : i < C.numCpus) (htimer : TimerCase C s.timer (s.cpuTimer C i) t)
    (hcase : CpuCase C { s with timer := t } i s') : s.cpuTerm C i < s'.cpuTerm C i := by
  unfold SimSys.cpuTerm
  cases hcase with
  | sleep hdev =>
    rcases cpu_timed (hc.cpu i hi) htimer with ⟨hasleep, hpc, -⟩ | ⟨hawake, -⟩
    · unfold SimSys.cpuTimer at htimer
      rw [hpc] at htimer
      have hlt := waitRank_asleep htimer hasleep
      rw [hpc]
      exact Nat.add_lt_add_left hlt _
    · exact absurd hdev hawake
  | @run proc stat u _ hpc =>
    have hpc : (s.os.cpu i).pc = .run := hpc
    show _ < 8 * ((s.os.setCpu i _).cpu i).calls + cpuRank _ ((s.os.setCpu i _).cpu i).pc
    rw [OsSys.setCpu_self, hpc]
    exact Nat.lt_succ_self _
  | thread _ _ hos => exact cpuMove_rank (osStep_move hos).2 _ _

theorem ldTerm_lt (hc : Coupled C s) (htimer : TimerCase C s.timer (s.ldTimer C) t)
    (hcase : LdCase C { s with timer := t } s') : s.ldTerm < s'.ldTerm := by
  unfold SimSys.ldTerm
  cases hcase with
  | sleep hdev =>
    rcases ld_timed hc.ld htimer with ⟨hasleep, hpc, -⟩ | ⟨hawake, -⟩
    · unfold SimSys.ldTimer at htimer
      cases hld : s.os.ld.pc with
      | early =>
        rw [hld] at htimer
        exact Nat.add_lt_add_left (waitRank_asleep htimer hasleep) _
      | inSlot =>
        rw [hld] at htimer
        exact Nat.add_lt_add_left (waitRank_asleep htimer hasleep) _
      | _ =>
        rw [hld] at hpc
        cases hpc
    · exact absurd hdev hawake
  | thread _ hos =>
    have hmove : LdMove (C.os false) s.os _ := osStep_move hos
    exact ldMove_rank hmove _ _

/-- Every step brings the simulator further. -/
theorem simStep_rank (hc : Coupled C s) (hx : simStep C s act = .ok (r, s')) : s.rank C < s'.rank C := by
  unfold SimSys.rank
  cases simStep_move hx with
  | @cpu i t _ hi htimer hcase =>
    obtain ⟨hframe, hother, hld⟩ := hcase.frame
    have hdev : ∀ a ∈ s.cpuTimer C i, actDev a = some (C.cpuDev i) := fun a ha => cpuTimer_dev ha
    obtain ⟨hrank, hstop⟩ := htimer.rank fun a ha => ⟨_, hdev a ha⟩
    have hlt := cpuTerm_lt hc hi htimer hcase
    have hsum : ∑ j ∈ Finset.range C.numCpus, s.cpuTerm C j < ∑ j ∈ Finset.range C.numCpus, s'.cpuTerm C j := by
      refine Finset.sum_lt_sum (fun j hj => ?_) ⟨i, Finset.mem_range.mpr hi, hlt⟩
      by_cases hji : j = i
      · rw [hji]
        exact hlt.le
      · have hne : C.cpuDev i ≠ C.cpuDev j := fun he => hji (cpuDev_inj (Finset.mem_range.mp hj) hi he.symm)
        have hsame : t.dev (C.cpuDev j) = s.timer.dev (C.cpuDev j) := htimer.dev fun a ha => ⟨_, hdev a ha, hne⟩
        unfold SimSys.cpuTerm
        rw [hother j hji, hframe, hsame]
    have hldTerm : s'.ldTerm = s.ldTerm := by
      have hsame : t.dev LD_DEV = s.timer.dev LD_DEV := htimer.dev fun a ha => ⟨_, hdev a ha, cpuDev_ne_ld hi⟩
      unfold SimSys.ldTerm
      rw [hld, hframe, hsame]
    rw [hldTerm, hframe]
    dsimp only
    rw [hstop]
    omega
  | @ld t _ htimer hcase =>
    obtain ⟨hframe, hcpu⟩ := hcase.frame
    have hdev : ∀ a ∈ s.ldTimer C, actDev a = some LD_DEV := fun a ha => ldTimer_dev ha
    obtain ⟨hrank, hstop⟩ := htimer.rank fun a ha => ⟨_, hdev a ha⟩
    have hlt := ldTerm_lt hc htimer hcase
    have hsum : ∑ j ∈ Finset.range C.numCpus, s'.cpuTerm C j = ∑ j ∈ Finset.range C.numCpus, s.cpuTerm C j := by
      refine Finset.sum_congr rfl fun j hj => ?_
      have hsame : t.dev (C.cpuDev j) = s.timer.dev (C.cpuDev j) :=
        htimer.dev fun a ha => ⟨_, hdev a ha, (cpuDev_ne_ld (Finset.mem_range.mp hj)).symm⟩
      unfold SimSys.cpuTerm
      rw [hcpu, hframe, hsame]
    rw [hsum, hframe]
    dsimp only
    rw [hstop]
    omega
  | @timer t ht =>
    have hrank := timer_rank hc.timer ht
    have hstop := stop_eq (by simp) ht
    have hsum : ∑ j ∈ Finset.range C.numCpus, s.cpuTerm C j ≤
        ∑ j ∈ Finset.range C.numCpus, SimSys.cpuTerm C { s with timer := t } j := by
      refine Finset.sum_le_sum fun j _ => Nat.add_le_add_left ?_ _
      have hwait := waitRank_timer ht (C.cpuDev j)
      dsimp only
      cases (s.os.cpu j).pc with
      | inSlot => exact hwait
      | _ => exact Nat.le_refl _
    have hld : s.ldTerm ≤ SimSys.ldTerm { s with timer := t } := by
      refine Nat.add_le_add_left ?_ _
      have hwait := waitRank_timer ht LD_DEV
      dsimp only
      cases s.os.ld.pc with
      | early => exact hwait
      | inSlot => exact hwait
      | _ => exact Nat.le_refl _
    dsimp only
    rw [hstop]
    omega
  | @stop t hstop ht =>
    cases timerStep_move ht
    rw [hstop]
    exact Nat.lt_succ_self _

/-- The steps of a run up to `time`. -/
def stepBound (C : SimConfig) (time : Nat) : Nat :=
  C.numCpus * (8 * time + 15) + (8 * time + 13) + roundSize C.devices * (time + 1) + 1

/-- `_time` bounds the steps of a run. -/
theorem length_le (hrun : Run (simStep C) (.boot C) h s) : h.length ≤ stepBound C s.timer.time := by
  have hc := coupled_run hrun
  have hlen := hrun.length_le (μ := SimSys.rank C) fun _ _ _ _ _ hrun hx => simStep_rank (coupled_run hrun) hx
  obtain ⟨k, hk, -⟩ := timer_image hrun
  have hcpu : ∑ i ∈ Finset.range C.numCpus, s.cpuTerm C i ≤ C.numCpus * (8 * s.timer.time + 15) := by
    have hsum := Finset.sum_le_card_nsmul (Finset.range C.numCpus) (s.cpuTerm C) (8 * s.timer.time + 15) fun i hi => by
      have hi := Finset.mem_range.mp hi
      have hent := entered_le hk (cpuDev_lt hi)
      have hrank := cpuRank_le (s.timer.dev (C.cpuDev i)) (s.os.cpu i).pc
      rw [(hc.cpu i hi).entered] at hent
      unfold SimSys.cpuTerm
      omega
    rw [Finset.card_range] at hsum
    exact hsum
  have hld : s.ldTerm ≤ 8 * s.timer.time + 13 := by
    have hent := entered_le hk (ld_lt C)
    have hrank := ldRank_le (s.timer.dev LD_DEV) s.os.ld.pc
    rw [hc.ld.entered] at hent
    unfold SimSys.ldTerm
    omega
  have htimer := rank_lt hc.timer
  have hstop : (if s.timer.stop then 1 else 0) ≤ 1 := by split <;> decide
  have hrank : s.rank C ≤ stepBound C s.timer.time := by
    unfold SimSys.rank stepBound
    omega
  omega

/-! ## The slot by which all programs have been executed -/

/-- The slot after the last process was added, and as many more as the processes need turns. -/
def doneBy (C : SimConfig) : Nat := earliest C.startTime C.numProcesses + work (C.os true)

theorem loaded_of_late (hc : Coupled C s) (hat : LdAt C.startTime C.numProcesses s.timer.time s.os.ld)
    (hlate : earliest C.startTime C.numProcesses < s.timer.time) :
    s.os.ld.Loaded ∧ s.os.ld.calls ≤ earliest C.startTime C.numProcesses := by
  have hslot := fun k (hk : k < C.numProcesses) => (slot_of_rest hc hat hk).1
  obtain ⟨j, hat⟩ := hat
  have hj : j = C.numProcesses := by
    by_contra hne
    have hlt : j < C.numProcesses := lt_of_le_of_ne hat.le hne
    have hin : j ∈ s.os.ld.rest := by
      rw [hat.rest, List.mem_range'_1]
      omega
    obtain ⟨m, hm⟩ : ∃ m, C.numProcesses = m + 1 := ⟨C.numProcesses - 1, by omega⟩
    have hlast : earliest C.startTime C.numProcesses = loadSlot C.startTime m + 1 := by rw [hm]; rfl
    have hle := loadSlot_mono C.startTime (i := j) (j := m) (by omega)
    have htime := hslot j hlt hin
    omega
  subst hj
  have hrest : s.os.ld.rest = [] := by rw [hat.rest, Nat.sub_self, List.range'_zero]
  have hadded : s.os.ld.pc ≠ .added := fun hpc => by
    have hcalls := hc.time_of_ld (by rw [hpc]; rfl)
    have hnext := hat.added hpc
    omega
  refine ⟨⟨hrest, hadded⟩, ?_⟩
  have hafter := hat.after
  have hbefore := hat.before
  cases hpc : s.os.ld.pc with
  | check => exact absurd (hbefore (.inl hpc)).1 (Nat.lt_irrefl _)
  | early => exact absurd (hbefore (.inr hpc)).1 (Nat.lt_irrefl _)
  | added => exact absurd hpc hadded
  | inSlot | finish | leaving | detached => exact (hafter (by simp [hpc])).le

/-- Past that slot all programs have been executed. -/
theorem completed_at (hkill : KillsNone C.text) (hn : 0 < C.numCpus) (hfit : Fits (C.os true))
    (hrun : Run (simStep C) (.boot C) h s) (hlate : doneBy C < s.timer.time) :
    ∀ x < C.numProcesses, s.os.freed x = true ∧ s.os.executed x = C.text x := by
  have hc := coupled_run hrun
  obtain ⟨k, hk, -⟩ := os_image hkill hrun
  unfold doneBy at hlate
  obtain ⟨hload, hcalls⟩ := loaded_of_late hc (ldAt_run hrun) (by omega)
  refine fun x hx => completes (T := s.timer.time) rfl hn hfit hk hload (fun i hi hpc => ?_) (by omega)
    (List.mem_range.mpr hx)
  rcases hc.cpu_calls hi hpc with heq | heq
  · exact heq.ge
  · omega

theorem completed_of_ended (hkill : KillsNone C.text) (hn : 0 < C.numCpus) (hfit : Fits (C.os true))
    (hrun : Run (simStep C) (.boot C) h s) (hend : AllEnded C s) :
    ∀ x < C.numProcesses, s.os.freed x = true ∧ s.os.executed x = C.text x := by
  obtain ⟨k, hk, -⟩ := os_image hkill hrun
  have hload : s.os.ld.Loaded := (paced_run rfl hk).loaded (by rw [hend.ld]; rfl)
  exact fun x hx => completes (T := s.os.ld.calls + work (C.os true) + 1) rfl hn hfit hk hload
    (fun i hi hpc => absurd (hend.cpu i hi) hpc) (Nat.lt_succ_self _) (List.mem_range.mpr hx)

/-- A run that is longer than runs up to slot `doneBy` can be has come past this slot. -/
theorem late_of_long (hrun : Run (simStep C) (.boot C) h s) (hlong : stepBound C (doneBy C) < h.length) :
    doneBy C < s.timer.time := by
  by_contra hle
  have hle : s.timer.time ≤ doneBy C := Nat.le_of_not_lt hle
  have hlen := length_le hrun
  have hmono : stepBound C s.timer.time ≤ stepBound C (doneBy C) := by
    unfold stepBound
    gcongr
  omega

/-- All programs are executed, by slot `doneBy`: in every run that has come past this slot, or is longer than
runs up to this slot can be, or in which all threads have ended, every process was freed after its whole program
was executed. -/
theorem simulator_completes (hkill : KillsNone C.text) (hn : 0 < C.numCpus) (hfit : Fits (C.os true))
    (hrun : Run (simStep C) (.boot C) h s)
    (hend : doneBy C < s.timer.time ∨ stepBound C (doneBy C) < h.length ∨ AllEnded C s) :
    ∀ x < C.numProcesses, s.os.freed x = true ∧ s.os.executed x = C.text x := by
  rcases hend with hlate | hlong | hend
  · exact completed_at hkill hn hfit hrun hlate
  · exact completed_at hkill hn hfit hrun (late_of_long hrun hlong)
  · exact completed_of_ended hkill hn hfit hrun hend

theorem simulator_completes_twoPrograms : ∃ (h : SimHistory) (s : SimSys), h.map Entry.act = twoProgramsRun ∧
    ∀ x < 2, s.os.freed x = true ∧ s.os.executed x = twoPrograms.text x := by
  obtain ⟨h, s, hrun, hact, hp⟩ := exists_run_of_replay (simStep twoPrograms) (.boot twoPrograms) twoProgramsRun
    (fun _ s => decide ((∀ i : Nat, i < 1 → (s.os.cpu i).pc = .stopped) ∧ s.os.ld.pc = .detached ∧
      s.timer.pc = .stopped))
    (by decide +kernel)
  obtain ⟨hcpu, hld, htimer⟩ := of_decide_eq_true hp
  have hfit : Fits (twoPrograms.os true) := fun l =>
    (List.length_filter_le _ _).trans (by decide : (List.range 2).length ≤ MAX_QUEUE_SIZE)
  exact ⟨h, s, hact, simulator_completes twoPrograms_killsNone Nat.one_pos hfit hrun (.inr (.inr ⟨hcpu, hld, htimer⟩))⟩

end SimpleOs.Sim
