import SimpleOs.Mm.ReadYourWrites
import SimpleOs.Sim.Memory

/-!
# What the programs read

Programs without `killall` and `memmap`.

* `MemoryOnly` : such programs; `sysLabel`, `sys_image` : the calls of the memory library behind a run;
* `lastWriteIn` : the byte that a sequence of calls last wrote; `lastWrite_eq` : a process sees its own calls only;
* `simulator_reads` : a `READ` delivers what the program last wrote.
-/

namespace SimpleOs.Sim
open SimpleOs.Mm SimpleOs.Sched SimpleOs.Syscall SimpleOs.Timer SimpleOs.Os SimpleOs.Cpu CInt

/-- No instruction of a process is a `killall` or a `memmap`. -/
def MemoryOnly (text : Nat → List Inst) : Prop :=
  ∀ proc, ∀ ins ∈ text proc, ∀ call ∈ ins.call, call.kills = false ∧ ∀ regs, memCallOf call ≠ some (.inr regs)

def sysLabel (C : SimConfig) (s : SimSys) (act : SimAct) : Option (Nat × MemCall) :=
  (memLabel C s act).bind fun x => x.2.getLeft?.map (x.1, ·)

def libCalls (l : List Inst) : List MemCall := l.filterMap fun ins => (memoryOf ins).bind Sum.getLeft?

/-- The byte that calls, newest first, last wrote at `offset` of region `rgid` since the region was last allocated. -/
def lastWriteIn (rgid offset : Int) : List MemCall → Option BYTE
  | [] => none
  | .alloc _ regIndex :: l => if toInt regIndex = rgid then none else lastWriteIn rgid offset l
  | .write data destination off :: l =>
    if toInt destination = rgid ∧ toInt off = offset then some data else lastWriteIn rgid offset l
  | _ :: l => lastWriteIn rgid offset l

variable {C : SimConfig} {s s' : SimSys} {act : SimAct} {r : Unit} {h : SimHistory} {proc : Nat} {rgid offset : Int}

theorem MemoryOnly.killsNone {text : Nat → List Inst} (hmem : MemoryOnly text) : KillsNone text :=
  fun proc ins hins call hcall => (hmem proc ins hins call hcall).1

theorem nextInst_mem {i : Nat} {x : Nat × Inst} (hx : nextInst C s i = some x) :
    (C.text x.1)[s.os.procPc x.1]? = some x.2 := by
  unfold nextInst at hx
  split at hx
  · obtain ⟨proc, -, hx⟩ := Option.bind_eq_some_iff.mp hx
    obtain ⟨ins, hins, rfl⟩ := Option.map_eq_some_iff.mp hx
    exact hins
  · cases hx

theorem instLabel_mem {x : Nat × Inst} (hx : instLabel C s act = some x) :
    (C.text x.1)[s.os.procPc x.1]? = some x.2 := by
  unfold instLabel at hx
  split at hx
  · exact nextInst_mem hx
  · cases hx

theorem sysLabel_some {x : Nat × MemCall} (hx : sysLabel C s act = some x) :
    memLabel C s act = some (x.1, .inl x.2) := by
  unfold sysLabel at hx
  obtain ⟨⟨p, c⟩, hm, hx⟩ := Option.bind_eq_some_iff.mp hx
  obtain ⟨call, hcall, rfl⟩ := Option.map_eq_some_iff.mp hx
  rw [hm]
  cases c with
  | inl c =>
    cases hcall
    rfl
  | inr regs => cases hcall

/-- In these programs a step without such a call makes none of the memory at all. -/
theorem sysLabel_none (hmem : MemoryOnly C.text) (hx : sysLabel C s act = none) : memLabel C s act = none := by
  cases hm : memLabel C s act with
  | none => rfl
  | some x =>
    obtain ⟨p, c⟩ := x
    cases c with
    | inl c =>
      rw [sysLabel, hm] at hx
      cases hx
    | inr regs =>
      obtain ⟨⟨q, ins⟩, hinst, hins⟩ := Option.bind_eq_some_iff.mp hm
      obtain ⟨c, hc, hpair⟩ := Option.map_eq_some_iff.mp hins
      cases hpair
      obtain ⟨call, hcall, hregs⟩ := Option.bind_eq_some_iff.mp hc
      exact absurd hregs ((hmem _ ins (List.mem_of_getElem? (instLabel_mem hinst)) call hcall).2 regs)

/-- The calls of the memory library behind a run of the simulator. -/
theorem sys_image (hmem : MemoryOnly C.text) (hrun : Run (simStep C) (.boot C) h s) :
    ∃ k, Run sysCall (.boot C.memramsz C.memswpsz) k s.mem ∧
      List.Forall₂ (Shows SimSys.mem (sysLabel C)) (visible (sysLabel C) h) k :=
  hrun.project SimSys.mem (sysLabel C)
    (fun _ _ _ _ _ hrun hx hl => (mem_step (coupled_run hrun) hmem.killsNone hx).1 (sysLabel_none hmem hl))
    fun _ _ _ _ _ b hrun hx hl => by
      have hany := (mem_step (coupled_run hrun) hmem.killsNone hx).2 _ (sysLabel_some hl)
      obtain ⟨⟨r, m⟩, hcall, hret⟩ := Exec.bind_ok.mp hany
      cases hret
      exact ⟨r, hcall⟩

/-! ## The last write -/

theorem lastWrite_eq (proc : Nat) (rgid offset : Int) (k : History) :
    lastWrite proc rgid offset k = lastWriteIn rgid offset ((k.map Entry.act).filterMap (partOf proc)) := by
  induction k with
  | nil => rfl
  | cons e k ih =>
    obtain ⟨before, ⟨p, call⟩, res⟩ := e
    rw [lastWrite, List.map_cons, List.filterMap_cons]
    unfold partOf
    by_cases hp : p = proc
    · rw [if_pos hp]
      simp only [if_pos hp]
      cases call with
      | alloc size regIndex =>
        simp only [lastWriteIn]
        rw [ih]
        rfl
      | write data destination off =>
        simp only [lastWriteIn]
        rw [ih]
        rfl
      | free => exact ih
      | read => exact ih
    · rw [if_neg hp]
      simp only [if_neg hp]
      exact ih

theorem sys_calls (hmem : MemoryOnly C.text) (hrun : Run (simStep C) (.boot C) h s) {k : History}
    (hk : List.Forall₂ (Shows SimSys.mem (sysLabel C)) (visible (sysLabel C) h) k) (proc : Nat) :
    (k.map Entry.act).filterMap (partOf proc) = (libCalls ((C.text proc).take (s.os.procPc proc))).reverse := by
  have hinsts : instsOf C proc h = ((C.text proc).take (s.os.procPc proc)).reverse := by
    rw [← List.reverse_reverse (instsOf C proc h), ← executed_eq hrun proc]
    exact congrArg List.reverse (executed_sim hmem.killsNone hrun proc).order
  rw [libCalls, ← List.filterMap_reverse, ← hinsts, filterMap_label hk]
  unfold instsOf sysLabel memLabel
  rw [List.filterMap_filterMap, List.filterMap_filterMap, List.filterMap_filterMap]
  refine List.filterMap_congr fun e _ => ?_
  cases instLabel C e.before e.act with
  | none => rfl
  | some x =>
    obtain ⟨y, ins⟩ := x
    simp only [Option.bind_some]
    unfold partOf
    by_cases hy : y = proc
    · rcases hins : memoryOf ins with _ | _ | _ <;> simp [hy, hins]
    · rcases memoryOf ins with _ | _ | _ <;> simp [hy]

/-- Reads: in every run whose calls all keep what was written, a `READ` that keeps it too delivers the byte that the
code of its process before it last wrote there since it allocated the region. -/
theorem simulator_reads {source off : Nat} {b : BYTE} (hmem : MemoryOnly C.text) (hram : C.memramsz < 2 ^ 31)
    (hswp : C.memswpsz < 2 ^ 31) (hrun : Run (simStep C) (.boot C) h s)
    (hkeeps : ∀ e ∈ h, ∀ x, sysLabel C e.before e.act = some x → e.before.mem.KeepsWrites x.1 x.2)
    (hread : s.mem.KeepsWrites proc (.read source off))
    (hlast : lastWriteIn (toInt source) (toInt off) (libCalls ((C.text proc).take (s.os.procPc proc))).reverse =
      some b) :
    s.mem.Delivers proc source off b := by
  obtain ⟨k, hk, hshows⟩ := sys_image hmem hrun
  have hC : ∀ e ∈ k, e.before.KeepsWrites e.act.1 e.act.2 := by
    intro e he
    obtain ⟨e', he', hbefore, hact⟩ := shows_mem hshows he
    rw [hbefore]
    exact hkeeps e' he' e.act hact
  have hI := hk.guarded (C := fun s act => s.KeepsWrites act.1 act.2) (boot_writesInv hram hswp)
    (fun _ _ _ _ _ hI hk hx => writesInv_step hI hk hx) hC
  refine delivers_of_stored hI hread ?_
  rw [lastWrite_eq, sys_calls hmem hrun hshows proc]
  exact hlast

theorem twoPrograms_memoryOnly : MemoryOnly twoPrograms.text := by
  intro i ins hins call hcall
  refine ⟨twoPrograms_killsNone i ins hins call hcall, fun regs => ?_⟩
  have hins : ins ∈ (twoProgramsCode i).text := hins
  unfold twoProgramsCode at hins
  split at hins
  · simp only [List.mem_cons, List.not_mem_nil, or_false] at hins
    rcases hins with rfl | rfl | rfl <;> cases hcall <;> simp [memCallOf]
  · obtain rfl := List.mem_singleton.mp hins
    cases hcall

/-- The first program reads what it wrote. -/
theorem simulator_reads_twoPrograms : ∃ (h : SimHistory) (s : SimSys), h.map Entry.act = twoProgramsRun.drop 24 ∧
    s.os.procPc 0 = 2 ∧ s.mem.Delivers 0 0 5 7 := by
  obtain ⟨h, s, hrun, hact, hp⟩ :=
    exists_run_of_replay (simStep twoPrograms) (.boot twoPrograms) (twoProgramsRun.drop 24)
    (fun h s => decide ((∀ e ∈ h, ∀ x ∈ sysLabel twoPrograms e.before e.act, e.before.mem.KeepsWrites x.1 x.2) ∧
      s.mem.KeepsWrites 0 (.read 0 5) ∧ s.os.procPc 0 = 2)) (by decide +kernel)
  obtain ⟨hkeeps, hread, hpc⟩ := of_decide_eq_true hp
  refine ⟨h, s, hact, hpc, simulator_reads twoPrograms_memoryOnly (by decide) (by decide) hrun hkeeps hread ?_⟩
  rw [hpc]
  decide

end SimpleOs.Sim
