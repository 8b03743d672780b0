import SimpleOs.Cpu.Run
import SimpleOs.Syscall.NameExtraction

/-!
# Where `READ` leaves its value

* `ReadsInto` : the instruction of a process is a `READ`; `ReadDelivers` : its value is in the destination register
  and stays there;
* `read_delivers_iff` : it is there exactly when it was there before;
* `read_lost` : a value that is lost.
-/

namespace SimpleOs.Cpu
open SimpleOs.Mm SimpleOs.Sched SimpleOs.Syscall

variable {P : Type}

/-- The next instruction of the process is a `READ` with this destination. -/
def ReadsInto (s : RunSys P) (proc : P) (ins : Inst) (destination : Fin 10) : Prop :=
  (s.text proc)[s.pc proc]? = some ins ∧ ins.opcode = .read ∧ ins.arg2.toNat = destination

/-- Its `libread` succeeds with this value. -/
structure ReadSucceeds (s : RunSys P) (proc : P) (destination : Fin 10) (data : Word) : Prop where
  libread : ∃ ins c, ReadsInto s proc ins destination ∧
    Mm.libread (s.caller proc) ins.arg0.toNat ins.arg1.toNat = .ok (0, some data, c)

section Property
variable [DecidableEq P]

/-- However the processes go on, the register holds the value until another `READ` into it. -/
def Holds (T : PcbTable P) (s : RunSys P) (proc : P) (destination : Fin 10) (data : Word) : Prop :=
  ∀ h s', Run (run T) s h s' → (∀ e ∈ h, e.act = proc → ∀ ins, ¬ ReadsInto e.before proc ins destination) →
    s'.regs proc destination = data

/-- The value is delivered, as `read` does for the memory without pages: to the destination register and nowhere
else, where it stays. -/
def ReadDelivers (T : PcbTable P) (s : RunSys P) (proc : P) (destination : Fin 10) (data : Word) : Prop :=
  ∃ stat s', run T s proc = .ok (stat, s') ∧
    s'.regs = Function.update s.regs proc (Function.update (s.regs proc) destination data) ∧ s'.text = s.text ∧
    Holds T s' proc destination data

end Property

variable [DecidableEq P] {T : PcbTable P} {s : RunSys P} {proc : P} {destination : Fin 10} {data : Word}

theorem run_of_readSucceeds (hread : ReadSucceeds s proc destination data) : ∃ s', run T s proc = .ok (0, s') := by
  obtain ⟨ins, c, ⟨hins, hop, -⟩, hlib⟩ := hread
  have hcall : ins.call = some (.libread ins.arg0 ins.arg1) := by
    rw [Inst.call, hop]
  unfold run
  rw [hins]
  dsimp only
  rw [hcall]
  exact ⟨_, Exec.bind_ok.mpr ⟨_, hlib, rfl⟩⟩

theorem ReadDelivers.held (h : ReadDelivers T s proc destination data) : s.regs proc destination = data := by
  obtain ⟨stat, s', hx, hregs, -, -⟩ := h
  rw [(run_frame hx).1] at hregs
  rw [hregs, Function.update_self, Function.update_self]

/-- A `READ` delivers its value if and only if the destination register held it before. -/
theorem read_delivers_iff (hread : ReadSucceeds s proc destination data) :
    ReadDelivers T s proc destination data ↔ s.regs proc destination = data := by
  constructor
  · exact ReadDelivers.held
  · intro hheld
    obtain ⟨s', hx⟩ := run_of_readSucceeds (T := T) hread
    obtain ⟨hregs, htext⟩ := run_frame hx
    refine ⟨0, s', hx, ?_, htext, fun h t hrun _ => ?_⟩
    · rw [hregs, ← hheld, Function.update_eq_self, Function.update_eq_self]
    · rw [(run_frame_run hrun).1, hregs]
      exact hheld

/-- Process 0 is about to read the first byte of its region 0 to register 3. -/
def reading (held : Word) : RunSys Nat where
  toKillSys := unterminated
  regs := fun _ _ => held
  text := fun _ => [⟨.read, 0, 0, 3, 0⟩]

theorem reading_succeeds (held : Word) : ReadSucceeds (reading held) 0 3 (letter.signExtend 32) :=
  ⟨_, _, ⟨rfl, rfl, rfl⟩, holding_read (fun _ => letter) (by decide)⟩

/-- A value that the register held stays there. -/
theorem read_delivers_held : ReadDelivers (twoPrograms fun _ => 0) (reading 112) 0 3 (letter.signExtend 32) :=
  (read_delivers_iff (reading_succeeds 112)).mpr (by decide)

/-- The byte that is read is lost when the register held something else. -/
theorem read_lost : ReadSucceeds (reading 0) 0 3 (letter.signExtend 32) ∧
    ¬ ReadDelivers (twoPrograms fun _ => 0) (reading 0) 0 3 (letter.signExtend 32) := by
  refine ⟨reading_succeeds 0, fun h => ?_⟩
  exact absurd h.held (by decide)

end SimpleOs.Cpu
