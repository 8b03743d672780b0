import SimpleOs.Cpu.Loader
import SimpleOs.Syscall.Killall
import SimpleOs.Syscall.Memmap
import SimpleOs.Os.Routines
import SimpleOs.Lib.Run

/-!
# Executing an instruction (`run` of `cpu.c`, `libstd.c`, `syscall.c`)

* `RunSys` : what instructions read and write, with the registers and the code of the processes;
* `LibCall`, `Inst.call` : the call an instruction makes, with the arguments it passes;
* `syscall`, `perform`, `run` : the call performed;
* `CallMove`, `perform_move` : what a call can change;
* `run_frame` : no instruction changes a register or the code; `run_frame_run` : nor does a run;
* `run_pc`, `run_pc_run` : to the threads of the simulator, `run` without `killall` is a step of `pc`.
-/

namespace SimpleOs.Cpu
open SimpleOs.Mm SimpleOs.Sched SimpleOs.Syscall

variable {P : Type}

structure RunSys (P : Type) extends KillSys P where
  regs : P → Fin 10 → Word
  /-- `code->text`, of length `code->size` -/
  text : P → List Inst

def RunSys.table (s : RunSys P) (T : PcbTable P) : PcbTable P := { T with codeSize := fun proc => (s.text proc).length }

inductive LibCall
  | liballoc (size regIndex : Word)
  | libfree (regIndex : Word)
  | libread (source offset : Word)
  | libwrite (data : BYTE) (destination offset : Word)
  | libsyscall (syscallIdx a1 a2 a3 : Word)
  deriving DecidableEq

/-- What `run` passes on. The last argument of `libread` is the address of a local variable. -/
def Inst.call (ins : Inst) : Option LibCall :=
  match ins.opcode with
  | .calc => none
  | .alloc => some (.liballoc ins.arg0 ins.arg1)
  | .free => some (.libfree ins.arg0)
  | .read => some (.libread ins.arg0 ins.arg1)
  | .write => some (.libwrite (ins.arg0.setWidth 8) ins.arg1 ins.arg2)
  | .syscall => some (.libsyscall ins.arg0 ins.arg1 ins.arg2 ins.arg3)

section Steps
variable [DecidableEq P] (T : PcbTable P)

def RunSys.setCaller (s : RunSys P) (proc : P) (c : Caller) : RunSys P :=
  { s with mm := Function.update s.mm proc c.mm, dev := c.dev }

/-- `syscall` : 0 lists the calls, and other numbers without an entry do nothing. -/
def syscall (s : RunSys P) (caller : P) (nr : Word) (regs : ScRegs) : Exec (Int × RunSys P) :=
  if nr = 0 then .ok (0, s)
  else if nr = 17 then do
    let (ret, _, c) ← sysMemmap (s.caller caller) regs
    return (ret, s.setCaller caller c)
  else if nr = 101 then do
    let (killedCount, k) ← sysKillall (s.table T) s.toKillSys caller regs.a1
    return (killedCount, { s with toKillSys := k })
  else .ok (0, s)

/-- The call of an instruction. What `libread` delivers goes to `arg_2` of the copy of the instruction that `run`
made. -/
def perform (s : RunSys P) (proc : P) : LibCall → Exec (Int × RunSys P)
  | .liballoc size regIndex => do
    let (stat, c) ← Mm.liballoc (s.caller proc) size.toNat regIndex.toNat
    return (stat, s.setCaller proc c)
  | .libfree regIndex => do
    let (stat, c) ← Mm.libfree (s.caller proc) regIndex.toNat
    return (stat, s.setCaller proc c)
  | .libread source offset => do
    let (stat, _, c) ← Mm.libread (s.caller proc) source.toNat offset.toNat
    return (stat, s.setCaller proc c)
  | .libwrite data destination offset => do
    let (stat, c) ← Mm.libwrite (s.caller proc) data destination.toNat offset.toNat
    return (stat, s.setCaller proc c)
  | .libsyscall syscallIdx a1 a2 a3 => syscall T s proc syscallIdx ⟨a1.toNat, a2.toNat, a3.toNat⟩

/-- `run` : status and state. `calc` returns 0. -/
def run (s : RunSys P) (proc : P) : Exec (Int × RunSys P) :=
  match (s.text proc)[s.pc proc]? with
  | none => .ok (1, s)
  | some ins =>
    let s := { s with pc := Function.update s.pc proc (s.pc proc + 1) }
    match ins.call with
    | none => .ok (0, s)
    | some call => perform T s proc call

end Steps

def LibCall.kills : LibCall → Bool
  | .libsyscall syscallIdx .. => syscallIdx == 101
  | _ => false

abbrev RunHistory (P : Type) := List (Entry (RunSys P) P Int)

/-! ## What no instruction changes -/

variable [DecidableEq P] {T : PcbTable P} {s s' : RunSys P} {proc : P} {stat : Int} {h : RunHistory P}

/-- What a call changes: the address space of its process and the devices, or all that `killall` works on. -/
inductive CallMove (s : RunSys P) (proc : P) (call : LibCall) : RunSys P → Prop
  | none : CallMove s proc call s
  | caller (c : Caller) : CallMove s proc call (s.setCaller proc c)
  | kill (hkills : call.kills = true) (k : KillSys P) : CallMove s proc call { s with toKillSys := k }

theorem syscall_move {syscallIdx a1 a2 a3 : Word} {regs : ScRegs}
    (hx : syscall T s proc syscallIdx regs = .ok (stat, s')) :
    CallMove s proc (.libsyscall syscallIdx a1 a2 a3) s' := by
  unfold syscall at hx
  split at hx
  · cases hx
    exact .none
  · split at hx
    · obtain ⟨⟨ret, regs', c⟩, -, hx⟩ := Exec.bind_ok.mp hx
      cases hx
      exact .caller c
    · split at hx
      · next hkill =>
        obtain ⟨⟨killedCount, k⟩, -, hx⟩ := Exec.bind_ok.mp hx
        cases hx
        have hkills : (LibCall.libsyscall syscallIdx a1 a2 a3).kills = true := beq_iff_eq.mpr hkill
        exact .kill hkills k
      · cases hx
        exact .none

theorem perform_move {call : LibCall} (hx : perform T s proc call = .ok (stat, s')) : CallMove s proc call s' := by
  cases call with
  | libsyscall => exact syscall_move hx
  | _ =>
    obtain ⟨_, -, hx⟩ := Exec.bind_ok.mp hx
    cases hx
    exact .caller _

theorem CallMove.frame {call : LibCall} (h : CallMove s proc call s') : s'.regs = s.regs ∧ s'.text = s.text := by
  cases h <;> exact ⟨rfl, rfl⟩

theorem CallMove.pc {call : LibCall} (h : CallMove s proc call s') (hcall : call.kills = false) : s'.pc = s.pc := by
  cases h with
  | kill hkills =>
    rw [hcall] at hkills
    cases hkills
  | _ => rfl

/-- No instruction changes a register or the code. -/
theorem run_frame (hx : run T s proc = .ok (stat, s')) : s'.regs = s.regs ∧ s'.text = s.text := by
  unfold run at hx
  split at hx
  · cases hx
    exact ⟨rfl, rfl⟩
  · dsimp only at hx
    split at hx
    · cases hx
      exact ⟨rfl, rfl⟩
    · have hframe := (perform_move hx).frame
      exact hframe

theorem run_frame_run (hrun : Run (run T) s h s') : s'.regs = s.regs ∧ s'.text = s.text :=
  hrun.invariant (I := fun _ t => t.regs = s.regs ∧ t.text = s.text) ⟨rfl, rfl⟩
    fun _ _ _ _ _ _ hI hx => ⟨(run_frame hx).1.trans hI.1, (run_frame hx).2.trans hI.2⟩

/-! ## The simulator -/

/-- No instruction of a process is a `killall`. -/
def KillsNone (text : P → List Inst) : Prop := ∀ proc, ∀ ins ∈ text proc, ∀ call ∈ ins.call, call.kills = false

variable {C : Os.OsConfig P Inst} {t : Os.OsSys P Inst}

/-- `run` moves `pc` as it does in the simulator. -/
theorem run_pc (htext : C.text = s.text) (hpc : t.procPc = s.pc) (hkill : KillsNone s.text)
    (hx : run T s proc = .ok (stat, s')) : (Os.run C t proc).procPc = s'.pc := by
  unfold Os.run
  rw [htext, hpc]
  unfold run at hx
  cases hins : (s.text proc)[s.pc proc]? with
  | none =>
    rw [hins] at hx
    cases hx
    exact hpc
  | some ins =>
    rw [hins] at hx
    dsimp only at hx ⊢
    cases hcall : ins.call with
    | none =>
      rw [hcall] at hx
      cases hx
      rfl
    | some call =>
      rw [hcall] at hx
      exact ((perform_move hx).pc (hkill proc ins (List.mem_of_getElem? hins) call hcall)).symm

theorem run_pc_run (htext : C.text = s.text) (hpc : t.procPc = s.pc) (hkill : KillsNone s.text)
    (hrun : Run (run T) s h s') : (h.foldr (fun e t => Os.run C t e.act) t).procPc = s'.pc := by
  induction hrun with
  | start => exact hpc
  | next hrun hx ih =>
    have hframe := (run_frame_run hrun).2
    exact run_pc (htext.trans hframe.symm) ih (hframe ▸ hkill) hx

end SimpleOs.Cpu
