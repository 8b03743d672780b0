import SimpleOs.Cpu.Run

/-!
# What a loaded program depends on

* `passed` : the call of an instruction of a loaded program; `run_eq_passed` : `run` performs it;
* `DependsOnFile` : the calls are the same for all contents of the memory that `load` allocates;
* `ArgsGiven` : the file gives the count and every argument that is passed on, or nothing is passed on;
* `dependsOnFile_iff` : the calls depend on the file only exactly then;
* `listsyscall_args` : a program that passes on old contents.
-/

namespace SimpleOs.Cpu
open SimpleOs.Mm SimpleOs.Sched SimpleOs.Syscall SimpleOs.Scanf

/-- The call of instruction `i`, when `run` comes to it. -/
def passed (proc : Pcb) (i : Nat) : Option LibCall := proc.code.text[i]?.bind Inst.call

/-- The program depends on its file only: what `run` passes on is the same for every two contents of the
memory returned by `malloc`. -/
def DependsOnFile (availPid : Word) (path : List BYTE) (s : List Char) : Prop :=
  ∀ old old' proc proc' next next', load availPid path (some s) old = .ok (proc, next) →
    load availPid path (some s) old' = .ok (proc', next') → ∀ i, passed proc i = passed proc' i

/-- The number of arguments that `run` passes on. -/
def InsOpcode.passes : InsOpcode → Nat
  | .calc => 0
  | .alloc => 2
  | .free => 1
  | .read => 2
  | .write => 3
  | .syscall => 4

/-- All of them are read. -/
def Scanned.Complete (x : Scanned) : Prop := x.opcode.passes ≤ x.vals.length

/-- The header gives the count and the instructions within it give what they pass on; or the header does not, and
all instructions that can be loaded are `calc`. -/
def ArgsGiven (s : List Char) : Prop :=
  match (header s).1[1]? with
  | some size => ∀ l, scanCode size.toNat (header s).2 = .ok l → ∀ x ∈ l, x.Complete
  | none => ∀ size : Word, ∀ l, scanCode size.toNat (header s).2 = .ok l → ∀ x ∈ l, x.opcode = .calc

variable {availPid next : Word} {path : List BYTE} {s : List Char} {old : OldMem} {proc : Pcb} {x : Scanned}
  {ins ins' : Inst} {l : List Scanned}

/-! ## One instruction -/

theorem getElem?_getD_congr {α : Type} {l : List α} {k : Nat} (h : k < l.length) (a b : α) :
    l[k]?.getD a = l[k]?.getD b := by
  rw [List.getElem?_eq_getElem h, Option.getD_some, Option.getD_some]

theorem call_assign_of_complete (hx : x.Complete) (ins ins' : Inst) : (ins.assign x).call = (ins'.assign x).call := by
  obtain ⟨opcode, vals⟩ := x
  unfold Scanned.Complete at hx
  have hval (k : Nat) (hk : k < opcode.passes) (a b : Word) : vals[k]?.getD a = vals[k]?.getD b :=
    getElem?_getD_congr (Nat.lt_of_lt_of_le hk hx) a b
  cases opcode with
  | alloc =>
    simp only [Inst.call, Inst.assign]
    rw [hval 0 (by decide) ins.arg0 ins'.arg0, hval 1 (by decide) ins.arg1 ins'.arg1]
  | free =>
    simp only [Inst.call, Inst.assign]
    rw [hval 0 (by decide) ins.arg0 ins'.arg0]
  | read =>
    simp only [Inst.call, Inst.assign]
    rw [hval 0 (by decide) ins.arg0 ins'.arg0, hval 1 (by decide) ins.arg1 ins'.arg1]
  | write =>
    simp only [Inst.call, Inst.assign]
    rw [hval 0 (by decide) ins.arg0 ins'.arg0, hval 1 (by decide) ins.arg1 ins'.arg1,
      hval 2 (by decide) ins.arg2 ins'.arg2]
  | syscall =>
    simp only [Inst.call, Inst.assign]
    rw [hval 0 (by decide) ins.arg0 ins'.arg0, hval 1 (by decide) ins.arg1 ins'.arg1,
      hval 2 (by decide) ins.arg2 ins'.arg2, hval 3 (by decide) ins.arg3 ins'.arg3]
  | _ => rfl

/-- An instruction that held `a` in all its arguments. -/
def heldInst (a : Word) : Inst := ⟨.calc, a, a, a, a⟩

theorem call_assign_of_not_complete (hx : ¬ x.Complete) :
    ((heldInst 0).assign x).call ≠ ((heldInst 1).assign x).call := by
  obtain ⟨opcode, vals⟩ := x
  have hlt : vals.length < opcode.passes := Nat.lt_of_not_le hx
  have hnone : vals[opcode.passes - 1]? = none := List.getElem?_eq_none (by omega)
  intro heq
  cases opcode with
  | alloc | free | read | write | syscall =>
    simp only [InsOpcode.passes, Nat.reduceSub] at hnone
    simp [Inst.call, Inst.assign, heldInst, hnone] at heq
  | _ => exact Nat.not_lt_zero _ hlt

theorem call_eq_none_iff : ins.call = none ↔ ins.opcode = .calc := by
  obtain ⟨opcode, a, b, c, d⟩ := ins
  cases opcode <;> simp [Inst.call]

/-! ## The program -/

theorem passed_of_load (h : load availPid path (some s) old = .ok (proc, next)) :
    ∃ l, scanCode (codeSize s old).toNat (header s).2 = .ok l ∧
      ∀ i, passed proc i = l[i]?.bind fun x => ((old.text i).assign x).call := by
  obtain ⟨l, hl, -, rfl⟩ := load_ok_iff.mp h
  refine ⟨l, hl, fun i => ?_⟩
  show (fillCode old.text 0 l)[i]?.bind Inst.call = _
  rw [fillCode_getElem?, Nat.zero_add]
  cases l[i]? <;> rfl

theorem run_eq_passed {P : Type} [DecidableEq P] {T : PcbTable P} {t : RunSys P} {p : P}
    (htext : t.text p = proc.code.text) (hlt : t.pc p < proc.code.text.length) :
    run T t p = (passed proc (t.pc p)).elim (.ok (0, { t with pc := Function.update t.pc p (t.pc p + 1) }))
      (perform T { t with pc := Function.update t.pc p (t.pc p + 1) } p) := by
  unfold run passed
  rw [htext, List.getElem?_eq_getElem hlt]
  cases hcall : proc.code.text[t.pc p].call <;> simp only [Option.bind_some, hcall, Option.elim_none, Option.elim_some]

/-- The program loaded into memory of which every argument held `a` and the count `size`. -/
theorem load_held (availPid : Word) (path : List BYTE) (a size : Word)
    (hsize : ∀ given, (header s).1[1]? = some given → given = size) (hl : scanCode size.toNat (header s).2 = .ok l) :
    ∃ proc, load availPid path (some s) ⟨0, size, fun _ => heldInst a⟩ = .ok (proc, availPid + 1) ∧
      ∀ i, passed proc i = l[i]?.bind fun x => ((heldInst a).assign x).call := by
  have hcode : codeSize s ⟨0, size, fun _ => heldInst a⟩ = size := by
    unfold codeSize
    cases hg : (header s).1[1]? with
    | none => rfl
    | some given => exact hsize given hg
  have hload : load availPid path (some s) ⟨0, size, fun _ => heldInst a⟩ = .ok (_, availPid + 1) :=
    load_ok_iff.mpr ⟨l, by rw [hcode]; exact hl, rfl, rfl⟩
  refine ⟨_, hload, ?_⟩
  obtain ⟨l', hl', hpassed⟩ := passed_of_load hload
  rw [hcode, hl] at hl'
  cases hl'
  exact hpassed

theorem argsGiven_of_dependsOnFile (h : DependsOnFile availPid path s) : ArgsGiven s := by
  unfold ArgsGiven
  split
  · next size hsize =>
    intro l hl x hx
    by_contra hnot
    have hgiven : ∀ given, (header s).1[1]? = some given → given = size := fun given hg => by
      cases hg.symm.trans hsize
      rfl
    obtain ⟨i, hi⟩ := List.getElem?_of_mem hx
    obtain ⟨proc₀, hload₀, h₀⟩ := load_held availPid path 0 size hgiven hl
    obtain ⟨proc₁, hload₁, h₁⟩ := load_held availPid path 1 size hgiven hl
    have heq := h _ _ _ _ _ _ hload₀ hload₁ i
    rw [h₀, h₁, hi] at heq
    exact call_assign_of_not_complete hnot heq
  · next hnone =>
    intro size l hl x hx
    by_contra hnot
    have hgiven (size : Word) : ∀ given, (header s).1[1]? = some given → given = size := fun given hg => by
      cases hg.symm.trans hnone
    obtain ⟨i, hi⟩ := List.getElem?_of_mem hx
    -- with the count 0 there is no instruction
    have hl₀ : scanCode (0 : Word).toNat (header s).2 = .ok [] := rfl
    obtain ⟨proc₀, hload₀, h₀⟩ := load_held availPid path 0 0 (hgiven 0) hl₀
    obtain ⟨proc₁, hload₁, h₁⟩ := load_held availPid path 0 size (hgiven size) hl
    have heq := h _ _ _ _ _ _ hload₁ hload₀ i
    rw [h₀, h₁, hi] at heq
    exact hnot (call_eq_none_iff.mp heq)

/-- What `run` passes on depends on the file only if and only if the file gives it: the count, and every
argument within it that is passed on. -/
theorem dependsOnFile_iff : DependsOnFile availPid path s ↔ ArgsGiven s := by
  constructor
  · exact argsGiven_of_dependsOnFile
  · intro h old old' proc proc' next next' hload hload' i
    unfold ArgsGiven at h
    obtain ⟨l, hl, hpassed⟩ := passed_of_load hload
    obtain ⟨l', hl', hpassed'⟩ := passed_of_load hload'
    rw [hpassed, hpassed']
    split at h
    · next size hsize =>
      have hcode (old : OldMem) : codeSize s old = size := by
        rw [codeSize, hsize, Option.getD_some]
      rw [hcode] at hl hl'
      cases hl.symm.trans hl'
      cases hi : l[i]? with
      | none => rfl
      | some x => exact call_assign_of_complete (h l hl x (List.mem_of_getElem? hi)) _ _
    · have hcalc {old : OldMem} {l : List Scanned} (hl : scanCode (codeSize s old).toNat (header s).2 = .ok l) :
          (l[i]?.bind fun x => ((old.text i).assign x).call) = none := by
        cases hi : l[i]? with
        | none => rfl
        | some x => exact call_eq_none_iff.mpr (h _ l hl x (List.mem_of_getElem? hi))
      rw [hcalc hl, hcalc hl']

def listsyscallFile : List Char := "20 1\nsyscall 0 \n".toList

theorem listsyscall_scanned : (header listsyscallFile).1[1]? = some 1 ∧
    scanCode (1 : Word).toNat (header listsyscallFile).2 = .ok [⟨.syscall, [0]⟩] := by
  constructor <;> rfl

/-- Three arguments of the call are old contents of the memory. -/
theorem listsyscall_args : ¬ DependsOnFile 1 [] listsyscallFile := by
  obtain ⟨hsize, hcode⟩ := listsyscall_scanned
  intro h
  have hgiven := argsGiven_of_dependsOnFile h
  rw [ArgsGiven, hsize] at hgiven
  have hcomplete : 4 ≤ 1 := hgiven _ hcode _ List.mem_cons_self
  omega

end SimpleOs.Cpu
