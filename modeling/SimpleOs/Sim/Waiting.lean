import SimpleOs.Os.Waiting
import SimpleOs.Sim.Refinement
import SimpleOs.Timer.Rank

/-!
# Waiting, in slots of the timer

* `awake` : the CPUs whose threads have not ended; `awake_slots` : each of them passes every slot;
* `simulator_waiting` : how many slots a process waits in its level.
-/

namespace SimpleOs.Sim
open SimpleOs.Mm SimpleOs.Sched SimpleOs.Syscall SimpleOs.Timer SimpleOs.Os SimpleOs.Cpu

variable {C : SimConfig} {s₀ s : SimSys} {h k : SimHistory} {x : Nat}

/-- The CPUs whose threads have not ended. -/
def awake (C : SimConfig) (s : SimSys) : Nat :=
  ((Finset.range C.numCpus).filter fun i => (s.os.cpu i).pc ≠ .stopped).card

/-- A process enters the scheduler in a step that goes before `x` whenever it enters. -/
def stepOvertakes (C : SimConfig) (x : Nat) (s : SimSys) (act : SimAct) : Bool :=
  (osLabel C s act).any (overtakes (C.os true) x s.os)

/-- Every CPU that has not ended passes every slot. -/
theorem awake_slots (hrun₀ : Run (simStep C) (.boot C) h s₀) (hrun : Run (simStep C) s₀ k s)
    (hmono : ∀ i, (s₀.os.cpu i).calls ≤ (s.os.cpu i).calls) :
    (awake C s * (s.timer.time - s₀.timer.time - 1) : Int) ≤
      ∑ i ∈ Finset.range C.numCpus, ((s.os.cpu i).calls - (s₀.os.cpu i).calls : Int) := by
  have hc₀ := coupled_run hrun₀
  have hc := coupled_run (hrun₀.append hrun)
  obtain ⟨k₀, hk₀, -⟩ := timer_image hrun₀
  unfold awake
  rw [Finset.card_filter, Nat.cast_sum, Finset.sum_mul]
  refine Finset.sum_le_sum fun i hi => ?_
  have hi := Finset.mem_range.mp hi
  have hle := hmono i
  by_cases hpc : (s.os.cpu i).pc = .stopped
  · rw [if_neg (not_not_intro hpc), Nat.cast_zero, Int.zero_mul]
    omega
  · rw [if_pos hpc, Nat.cast_one, Int.one_mul]
    have hent := entered_le hk₀ (cpuDev_lt hi)
    rw [(hc₀.cpu i hi).entered] at hent
    rcases hc.cpu_calls hi hpc with heq | heq <;> omega

/-- No process waits long while the timer goes on: from one state of a run to a later one, through which it
stays in its level, all CPUs that have not ended pass at most `time_slot` slots for each process that goes
before it in the first, for each that overtakes it, and for each CPU. -/
theorem simulator_waiting {l₁ l₂ : List Nat} (hkill : KillsNone C.text) (hslot : 1 ≤ C.timeSlot)
    (hrun₀ : Run (simStep C) (.boot C) h s₀) (hx : s₀.os.sched.level (C.prio x) = l₁ ++ x :: l₂)
    (hrun : Run (simStep C) s₀ k s) (hwait : ∀ e ∈ k, Waits (C.os true) e.before.os x)
    (hwaits : Waits (C.os true) s.os x) :
    (awake C s * (s.timer.time - s₀.timer.time - 1) : Int) ≤
      C.timeSlot * (aheadOf (C.os true).fields s₀.os.sched l₁ x l₂ +
        (k.countP fun e => stepOvertakes C x e.before e.act) + C.numCpus) := by
  obtain ⟨k₀, hk₀, -⟩ := os_image hkill hrun₀
  obtain ⟨k', hk', hshows⟩ := hrun.project SimSys.os (osLabel C) (fun _ _ _ _ _ _ hx hl => os_silent hx hl)
    fun _ _ _ _ _ _ hrun hx hl => ⟨(), os_visible (coupled_run (hrun₀.append hrun)) hkill hx hl⟩
  have hwait' : ∀ e' ∈ k', Waits (C.os true) e'.before x := by
    intro e' he'
    obtain ⟨e, he, hbefore, -⟩ := shows_mem hshows he'
    rw [hbefore]
    exact hwait e he
  have hcount := countP_shows hshows (overtakes (C.os true) x)
  have hslots := slots_le hslot hk₀ hx hk' hwait' hwaits
  rw [hcount] at hslots
  exact (awake_slots hrun₀ hrun (calls_le_run hk')).trans hslots

/-- The first program waits in its level while the second runs. -/
theorem simulator_waiting_twoPrograms : ∃ (h k : SimHistory) (s₀ s : SimSys) (l₁ l₂ : List Nat),
    Run (simStep twoPrograms) (.boot twoPrograms) h s₀ ∧ Run (simStep twoPrograms) s₀ k s ∧ k.length = 13 ∧
    (awake twoPrograms s * (s.timer.time - s₀.timer.time - 1) : Int) ≤
      twoPrograms.timeSlot * (aheadOf (twoPrograms.os true).fields s₀.os.sched l₁ 0 l₂ +
        (k.countP fun e => stepOvertakes twoPrograms 0 e.before e.act) + twoPrograms.numCpus) := by
  obtain ⟨h, s, hrun, -, hp⟩ := exists_run_of_replay (simStep twoPrograms) (.boot twoPrograms)
    (twoProgramsRun.drop (twoProgramsRun.length - 49))
    (fun h s => decide ((∀ e ∈ h.take 13, 0 ∈ e.before.os.sched.level 0) ∧ 0 ∈ s.os.sched.level 0 ∧
      (h.take 13).length = 13)) (by decide +kernel)
  obtain ⟨hwait, hwaits, hlen⟩ := of_decide_eq_true hp
  rw [← List.take_append_drop 13 h] at hrun
  obtain ⟨s₀, hrun₀, hrun⟩ := hrun.split
  have hmem : 0 ∈ s₀.os.sched.level 0 := by
    rcases hrun.first with rfl | ⟨e, he, rfl⟩
    · exact hwaits
    · exact hwait e he
  obtain ⟨l₁, l₂, hx⟩ : ∃ l₁ l₂, s₀.os.sched.level (twoPrograms.prio 0) = l₁ ++ 0 :: l₂ := List.append_of_mem hmem
  exact ⟨_, _, s₀, s, l₁, l₂, hrun₀, hrun, hlen,
    simulator_waiting twoPrograms_killsNone (by decide) hrun₀ hx hrun hwait hwaits⟩

end SimpleOs.Sim
