import SimpleOs.Os.Origin
import SimpleOs.Sim.Memory
import SimpleOs.Syscall.KillallFrame

/-!
# Safety

All programs, with `memmap` and `killall`.

* `perform_kept`, `run_kept` : what an instruction can change;
* `owned_kept`, `within_kept`, `begun_run` : an instruction keeps owners and origins, and executes programs in order;
* `Safe`, `safe_step`, `safe_run` : the invariant;
* `simulator_safe` : no process is on two CPUs, no freed process is scheduled again, programs are executed in order,
  and the memory is sound.
-/

namespace SimpleOs.Sim
open SimpleOs.Mm SimpleOs.Sched SimpleOs.Syscall SimpleOs.Timer SimpleOs.Os SimpleOs.Cpu

variable {C : SimConfig} {s s' : SimSys} {t : TimerSys} {i j proc x : Nat} {act : SimAct} {r : Unit} {h : SimHistory}

/-! ## An instruction -/

section Instruction
variable {T : PcbTable Nat} {u u' : RunSys Nat} {stat : Int}

theorem syscall_kept {syscallIdx : Word} {regs : ScRegs} (hx : syscall T u proc syscallIdx regs = .ok (stat, u')) :
    ∃ out, KillKept (u.table T) out u.toKillSys u'.toKillSys := by
  unfold syscall at hx
  split at hx
  · cases hx
    exact ⟨[], killKept_refl _ _⟩
  · split at hx
    · obtain ⟨⟨ret, regs', c⟩, hmap, hx⟩ := Exec.bind_ok.mp hx
      cases hx
      refine ⟨[], killKept_caller _ proc fun hs => ?_⟩
      obtain ⟨a, hm⟩ := hs.1 proc
      exact memmap_keeps (c := u.caller proc) hm hs.2 hmap
    · split at hx
      · obtain ⟨⟨killedCount, k⟩, hkill, hx⟩ := Exec.bind_ok.mp hx
        cases hx
        exact sysKillall_kept hkill
      · cases hx
        exact ⟨[], killKept_refl _ _⟩

/-- What a call can change. -/
theorem perform_kept {call : LibCall} (hx : perform T u proc call = .ok (stat, u')) :
    ∃ out, KillKept (u.table T) out u.toKillSys u'.toKillSys := by
  have hcall {m : MemCall} {ret : MemResult} {c : Caller} (hm : memCall (u.caller proc) m = .ok (ret, c)) :
      ∃ out, KillKept (u.table T) out u.toKillSys (u.setCaller proc c).toKillSys :=
    ⟨[], killKept_caller _ proc fun hs => memCall_sound (c := u.caller proc) (hs.1 proc) hs.2 hm⟩
  cases call with
  | liballoc size regIndex =>
    obtain ⟨⟨ret, c⟩, hlib, hx⟩ := Exec.bind_ok.mp hx
    cases hx
    exact hcall (m := .alloc size.toNat regIndex.toNat) (Exec.bind_ok.mpr ⟨_, hlib, rfl⟩)
  | libfree regIndex =>
    obtain ⟨⟨ret, c⟩, hlib, hx⟩ := Exec.bind_ok.mp hx
    cases hx
    exact hcall (m := .free regIndex.toNat) (Exec.bind_ok.mpr ⟨_, hlib, rfl⟩)
  | libread source offset =>
    obtain ⟨⟨ret, value, c⟩, hlib, hx⟩ := Exec.bind_ok.mp hx
    cases hx
    exact hcall (m := .read source.toNat offset.toNat) (Exec.bind_ok.mpr ⟨_, hlib, rfl⟩)
  | libwrite data destination offset =>
    obtain ⟨⟨ret, c⟩, hlib, hx⟩ := Exec.bind_ok.mp hx
    cases hx
    exact hcall (m := .write data destination.toNat offset.toNat) (Exec.bind_ok.mpr ⟨_, hlib, rfl⟩)
  | libsyscall => exact syscall_kept hx

/-- `pc` of the processes after `proc` has executed its next instruction. -/
def nextPc (u : RunSys Nat) (proc : Nat) : Nat → Nat :=
  if u.pc proc < (u.text proc).length then Function.update u.pc proc (u.pc proc + 1) else u.pc

theorem nextPc_apply (u : RunSys Nat) (proc x : Nat) : nextPc u proc x =
    if x = proc then if u.pc x < (u.text x).length then u.pc x + 1 else u.pc x else u.pc x := by
  unfold nextPc
  by_cases hx : x = proc
  · subst hx
    rw [if_pos rfl]
    split
    · exact Function.update_self ..
    · rfl
  · rw [if_neg hx]
    split
    · exact Function.update_of_ne hx ..
    · rfl

/-- What an instruction can change, but for its own step of `pc`. -/
theorem run_kept (hx : Cpu.run T u proc = .ok (stat, u')) :
    ∃ out, KillKept (u.table T) out { u.toKillSys with pc := nextPc u proc } u'.toKillSys := by
  unfold Cpu.run at hx
  cases hins : (u.text proc)[u.pc proc]? with
  | none =>
    rw [hins] at hx
    cases hx
    have hpc : nextPc u proc = u.pc := if_neg (Nat.not_lt.mpr (List.getElem?_eq_none_iff.mp hins))
    rw [hpc]
    exact ⟨[], killKept_refl _ _⟩
  | some ins =>
    rw [hins] at hx
    have hpc : nextPc u proc = Function.update u.pc proc (u.pc proc + 1) :=
      if_pos (List.getElem?_eq_some_iff.mp hins).1
    rw [hpc]
    dsimp only at hx
    cases hcall : ins.call with
    | none =>
      rw [hcall] at hx
      cases hx
      exact ⟨[], killKept_refl _ _⟩
    | some call =>
      rw [hcall] at hx
      exact perform_kept hx

end Instruction

/-! ## An instruction of a CPU -/

variable {own : Nat → Owner} {Q : Nat → Prop} {u : RunSys Nat} {stat : Int} {out : List Nat}

theorem ran_proc (s : SimSys) (i proc : Nat) (u : RunSys Nat) (j : Nat) :
    ((s.ran C i proc u).os.cpu j).proc = (s.os.cpu j).proc := by
  by_cases hj : j = i
  · rw [hj]
    show ((s.os.setCpu i { s.os.cpu i with pc := .toCall, timeLeft := (s.os.cpu i).timeLeft - 1 }).cpu i).proc = _
    rw [OsSys.setCpu_self]
  · exact congrArg CpuSt.proc (OsSys.setCpu_of_ne s.os hj _)

/-- Owners: the processes that are killed are freed. -/
theorem owned_kept {T : PcbTable Nat} {k : KillSys Nat} (ho : Os.Owned own (C.os false) s.os)
    (hsched : k.sched = s.os.sched) (hfreed : k.freed = s.os.freed) (hk : KillKept T out k u.toKillSys) :
    Os.Owned (fun x => if x ∈ out then .freed else own x) (C.os false) (s.ran C i proc u).os := by
  have hready : ∀ x ∈ out, own x = .ready := fun x hx => ho.level 0 x (hsched ▸ hk.mem_out hx)
  have hother : ∀ x, own x ≠ .ready → (if x ∈ out then .freed else own x) = own x := fun x hx =>
    if_neg fun hin => hx (hready x hin)
  have hin : ∀ {l x}, x ∈ u.sched.level l → x ∈ s.os.sched.level l := fun hx => hsched ▸ hk.mem_level hx
  have hsplit : (out ++ u.sched.level 0).Nodup := hk.level0.symm.nodup (hsched ▸ ho.once 0)
  refine ⟨⟨fun l x hx => ho.ok.prio l x (hin hx), fun l => ?_⟩, fun l => ?_, fun l x hx => ?_, fun j x hx => ?_,
    fun x hx => ?_, ho.restOnce, fun x hx => ?_⟩
  · show u.sched.slot l = _
    rw [hk.slot, hsched]
    exact ho.ok.slot l
  · show (u.sched.level l).Nodup
    by_cases hl : l = 0
    · rw [hl]
      exact (List.nodup_append.mp hsplit).2.1
    · rw [hk.level l hl, hsched]
      exact ho.once l
  · have hx : x ∈ u.sched.level l := hx
    rw [if_neg fun hout => ?_]
    · exact ho.level l x (hin hx)
    · have hl : l = 0 := (ho.ok.prio l x (hin hx)).symm.trans (ho.ok.prio 0 x (hsched ▸ hk.mem_out hout))
      rw [hl] at hx
      exact (List.nodup_append.mp hsplit).2.2 x hout x hx rfl
  · have hcpu := ho.cpu j x ((ran_proc s i proc u j).symm.trans hx)
    rw [hother x (by rw [hcpu]; simp)]
    exact hcpu
  · have hrest := ho.rest x hx
    rw [hother x (by rw [hrest]; simp)]
    exact hrest
  · rcases (hk.freed x).mp hx with hx | hx
    · have hown := ho.freed x (hfreed ▸ hx)
      rw [hother x (by rw [hown]; simp)]
      exact hown
    · exact if_pos hx

theorem within_kept {T : PcbTable Nat} {k : KillSys Nat} (hw : Within Q s.os) (hsched : k.sched = s.os.sched)
    (hk : KillKept T out k u.toKillSys) : Within Q (s.ran C i proc u).os where
  level := fun l x hx => hw.level l x (hsched ▸ hk.mem_level hx)
  cpu := fun j x hx => hw.cpu j x ((ran_proc s i proc u j).symm.trans hx)
  rest := hw.rest

theorem ran_ok (hok : ∀ j, (s.os.cpu j).Ok) (j : Nat) : ((s.ran C i proc u).os.cpu j).Ok := by
  by_cases hj : j = i
  · have hcpu : (s.ran C i proc u).os.cpu j =
        { s.os.cpu i with pc := .toCall, timeLeft := (s.os.cpu i).timeLeft - 1 } := by
      rw [hj]
      exact OsSys.setCpu_self s.os i _
    rw [hcpu]
    trivial
  · have hcpu : (s.ran C i proc u).os.cpu j = s.os.cpu j := OsSys.setCpu_of_ne s.os hj _
    rw [hcpu]
    exact hok j

/-- What was executed is the beginning of the program, and `pc` is behind it, or at the end of the program
(`killall`). -/
def Begun (text : List Inst) (pc : Nat) (executed : List Inst) : Prop :=
  ∃ k ≤ text.length, executed = text.take k ∧ (pc = k ∨ pc = text.length)

theorem Begun.ended {text executed : List Inst} {pc : Nat} (hb : Begun text pc executed) :
    Begun text text.length executed := by
  obtain ⟨k, hk, hex, -⟩ := hb
  exact ⟨k, hk, hex, .inr rfl⟩

theorem Begun.next {text executed : List Inst} {pc : Nat} (hb : Begun text pc executed) :
    Begun text (if pc < text.length then pc + 1 else pc) (executed ++ text[pc]?.toList) := by
  obtain ⟨k, hk, hex, hpc⟩ := hb
  by_cases hlt : pc < text.length
  · rw [if_pos hlt]
    obtain rfl : pc = k := hpc.resolve_right (Nat.ne_of_lt hlt)
    refine ⟨pc + 1, hlt, ?_, .inl rfl⟩
    rw [hex, List.take_add_one]
  · rw [if_neg hlt, List.getElem?_eq_none_iff.mpr (Nat.not_lt.mp hlt), Option.toList_none, List.append_nil]
    exact ⟨k, hk, hex, hpc⟩

/-- Execution : an instruction that kills moves `pc` of others to the end. -/
theorem begun_kept (hb : ∀ x, Begun (C.text x) (s.os.procPc x) (s.os.executed x))
    (hk : KillKept ((s.runSys C).table C.table) out
      { (s.runSys C).toKillSys with pc := nextPc (s.runSys C) proc } u.toKillSys) (x : Nat) :
    Begun (C.text x) ((s.ran C i proc u).os.procPc x) ((s.ran C i proc u).os.executed x) := by
  have hnext : Begun (C.text x) (nextPc (s.runSys C) proc x) ((s.ran C i proc u).os.executed x) := by
    show Begun (C.text x) (nextPc (s.runSys C) proc x) (Function.update s.os.executed proc
      (s.os.executed proc ++ ((C.text proc)[s.os.procPc proc]?).toList) x)
    have hpc : nextPc (s.runSys C) proc x =
        if x = proc then if s.os.procPc x < (C.text x).length then s.os.procPc x + 1 else s.os.procPc x
        else s.os.procPc x := nextPc_apply (s.runSys C) proc x
    rw [hpc]
    by_cases hx : x = proc
    · rw [if_pos hx, hx, Function.update_self]
      exact (hb proc).next
    · rw [if_neg hx, Function.update_of_ne hx]
      exact hb x
  rcases hk.pc x with hpc | hpc
  · have hpc : (s.ran C i proc u).os.procPc x = nextPc (s.runSys C) proc x := hpc
    rw [hpc]
    exact hnext
  · have hpc : (s.ran C i proc u).os.procPc x = (C.text x).length := hpc
    rw [hpc]
    exact hnext.ended

/-! ## The invariant -/

structure Safe (C : SimConfig) (s : SimSys) : Prop where
  owned : ∃ own, Os.Owned own (C.os false) s.os
  ok : ∀ i, (s.os.cpu i).Ok
  within : Within (· < C.numProcesses) s.os
  begun : ∀ x, Begun (C.text x) (s.os.procPc x) (s.os.executed x)
  single : ∀ x, ∃ a, (s.mem.mm x).Single a
  devOk : DevOk s.mem.dev

theorem safe_boot (hram : C.memramsz < 2 ^ 31) (hswp : C.memswpsz < 2 ^ 31) : Safe C (.boot C) where
  owned := ⟨_, owned_boot (C.os false)⟩
  ok := fun _ => trivial
  within := by
    refine ⟨fun _ _ hx => absurd hx List.not_mem_nil, fun _ _ hx => (nomatch hx), fun x hx => ?_⟩
    exact List.mem_range.mp hx
  begun := fun _ => ⟨0, Nat.zero_le _, rfl, .inl rfl⟩
  single := (boot_ok hram hswp).single
  devOk := (boot_ok hram hswp).devOk

theorem Safe.thread (hs : Safe C s) {a : OsAct} {os : OsSys Nat Inst} (hmove : OsMove (C.os false) s.os a os)
    (hpc : os.procPc = s.os.procPc) (hex : os.executed = s.os.executed) {timer : TimerSys} :
    Safe C { os := os, timer := timer, mem := s.mem } where
  owned := owned_step hs.owned.choose_spec hs.ok hmove
  ok := cpuOk_step hs.ok hmove
  within := within_step hs.within hmove
  begun := by
    dsimp only
    rw [hpc, hex]
    exact hs.begun
  single := hs.single
  devOk := hs.devOk

theorem Safe.timed (hs : Safe C s) (t : TimerSys) : Safe C { s with timer := t } :=
  ⟨hs.owned, hs.ok, hs.within, hs.begun, hs.single, hs.devOk⟩

theorem Safe.ran (hs : Safe C s) (hx : Cpu.run C.table (s.runSys C) proc = .ok (stat, u)) :
    Safe C (s.ran C i proc u) := by
  obtain ⟨out, hk⟩ := run_kept hx
  obtain ⟨own, ho⟩ := hs.owned
  obtain ⟨hsingle, hdev⟩ := hk.sound ⟨hs.single, hs.devOk⟩
  exact ⟨⟨_, owned_kept ho rfl rfl hk⟩, ran_ok hs.ok, within_kept hs.within rfl hk, begun_kept hs.begun hk, hsingle,
    hdev⟩

theorem safe_step (hs : Safe C s) (hx : simStep C s act = .ok (r, s')) : Safe C s' := by
  cases simStep_move hx with
  | @cpu i t _ hi htimer hcase =>
    cases hcase with
    | sleep => exact hs.timed t
    | run _ _ _ hrun => exact (hs.timed t).ran hrun
    | thread _ hpc hos =>
      have hmove := osStep_move hos
      refine (hs.timed t).thread hmove ?_ ?_
      · cases hmove.2 with
        | run hrun => exact absurd hrun hpc
        | _ => rfl
      · cases hmove.2 with
        | run hrun => exact absurd hrun hpc
        | _ => rfl
  | @ld t _ htimer hcase =>
    cases hcase with
    | sleep => exact hs.timed t
    | thread _ hos =>
      have hmove : LdMove (C.os false) s.os _ := osStep_move hos
      refine (hs.timed t).thread (osStep_move hos) ?_ ?_
      · cases hmove <;> rfl
      · cases hmove <;> rfl
  | timer => exact hs.timed _
  | stop => exact hs.timed _

theorem safe_run (hram : C.memramsz < 2 ^ 31) (hswp : C.memswpsz < 2 ^ 31) (hrun : Run (simStep C) (.boot C) h s) :
    Safe C s :=
  hrun.invariant (I := fun _ s => Safe C s) (safe_boot hram hswp) fun _ _ _ _ _ _ hs hx => safe_step hs hx

end SimpleOs.Sim
