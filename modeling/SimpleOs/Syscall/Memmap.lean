import SimpleOs.Mm.Libmem

/-!
# `memmap` (`sys_mem.c`)

* `ScRegs` : the registers of a system call that it uses;
* `mmSwapPage` : `__mm_swap_page`; `sysMemmap` : `__sys_memmap`;
* `sysMemmap_cases` : the operation behind a call that returns.
-/

namespace SimpleOs.Syscall
open SimpleOs.Mm CInt

def SYSMEM_MAP_OP : Nat := 1
def SYSMEM_INC_OP : Nat := 2
def SYSMEM_SWP_OP : Nat := 3
def SYSMEM_IO_READ : Nat := 4
def SYSMEM_IO_WRITE : Nat := 5

/-- The registers of `sc_regs` that `__sys_memmap` reads and writes. -/
structure ScRegs where
  a1 : Nat
  a2 : Nat
  a3 : Nat
  deriving DecidableEq, Repr

def mmSwapPage (caller : Caller) (vicfpn swpfpn : Nat) : Exec (Int × Caller) := do
  let (_, dev) ← swapCpPage caller.dev .mram vicfpn .activeMswp swpfpn
  return (0, { caller with dev := dev })

/-- `__sys_memmap` : status, registers and caller. No status of an operation is looked at. -/
def sysMemmap (caller : Caller) (regs : ScRegs) : Exec (Int × ScRegs × Caller) := do
  let memop := toInt regs.a1
  if memop = SYSMEM_MAP_OP then return (0, regs, caller)
  else if memop = SYSMEM_INC_OP then
    let (_, caller) ← incVmaLimit caller (toInt regs.a2) (toInt regs.a3)
    return (0, regs, caller)
  else if memop = SYSMEM_SWP_OP then
    let (_, caller) ← mmSwapPage caller regs.a2 regs.a3
    return (0, regs, caller)
  else if memop = SYSMEM_IO_READ then
    let (_, value, mp) ← memphyRead (caller.dev .mram) (toInt regs.a2)
    match value with
    | none => .error .uninit
    | some value => return (0, { regs with a3 := (value.signExtend 32).toNat }, caller.setDev .mram mp)
  else if memop = SYSMEM_IO_WRITE then
    let (_, mp) ← memphyWrite (caller.dev .mram) (toInt regs.a2) (BitVec.ofNat 8 regs.a3)
    return (0, regs, caller.setDev .mram mp)
  else return (0, regs, caller)

theorem sysMemmap_inc (caller : Caller) (a3 : Nat) :
    sysMemmap caller ⟨SYSMEM_INC_OP, 0, a3⟩ =
      incVmaLimit caller 0 (toInt a3) >>= fun x => .ok (0, ⟨SYSMEM_INC_OP, 0, a3⟩, x.2) := by
  have hinc : toInt SYSMEM_INC_OP = SYSMEM_INC_OP := by decide
  have hmap : ¬ ((SYSMEM_INC_OP : Nat) : Int) = SYSMEM_MAP_OP := by decide
  have hzero : toInt (0 : Nat) = 0 := by decide
  simp only [sysMemmap, hinc, hmap, if_false, if_true, hzero, Exec.pure_eq_ok]

theorem op_codes : ((SYSMEM_MAP_OP : Nat) : Int) = 1 ∧ ((SYSMEM_INC_OP : Nat) : Int) = 2 ∧
    ((SYSMEM_SWP_OP : Nat) : Int) = 3 ∧ ((SYSMEM_IO_READ : Nat) : Int) = 4 ∧ ((SYSMEM_IO_WRITE : Nat) : Int) = 5 := by
  decide

inductive MemmapCase (caller : Caller) (regs : ScRegs) : ScRegs → Caller → Prop
  | none (hop : toInt regs.a1 < 2 ∨ 5 < toInt regs.a1) : MemmapCase caller regs regs caller
  | inc {stat : Int} {c : Caller} (hop : toInt regs.a1 = SYSMEM_INC_OP)
      (hx : incVmaLimit caller (toInt regs.a2) (toInt regs.a3) = .ok (stat, c)) : MemmapCase caller regs regs c
  | swap {stat : Int} {c : Caller} (hop : toInt regs.a1 = SYSMEM_SWP_OP)
      (hx : mmSwapPage caller regs.a2 regs.a3 = .ok (stat, c)) : MemmapCase caller regs regs c
  | read {stat : Int} {value : BYTE} {mp : MemphyStruct} (hop : toInt regs.a1 = SYSMEM_IO_READ)
      (hx : memphyRead (caller.dev .mram) (toInt regs.a2) = .ok (stat, some value, mp)) :
      MemmapCase caller regs { regs with a3 := (value.signExtend 32).toNat } (caller.setDev .mram mp)
  | write {stat : Int} {mp : MemphyStruct} (hop : toInt regs.a1 = SYSMEM_IO_WRITE)
      (hx : memphyWrite (caller.dev .mram) (toInt regs.a2) (BitVec.ofNat 8 regs.a3) = .ok (stat, mp)) :
      MemmapCase caller regs regs (caller.setDev .mram mp)

/-- The call returns 0 whenever it returns. -/
theorem sysMemmap_cases {caller c : Caller} {regs regs' : ScRegs} {ret : Int}
    (h : sysMemmap caller regs = .ok (ret, regs', c)) : ret = 0 ∧ MemmapCase caller regs regs' c := by
  obtain ⟨hmap, hinc, hswp, hread, hwrite⟩ := op_codes
  unfold sysMemmap at h
  dsimp only at h
  split at h
  · next hop =>
    cases h
    exact ⟨rfl, .none (by omega)⟩
  · split at h
    · next hop =>
      obtain ⟨x, hx, h⟩ := Exec.bind_ok.mp h
      cases h
      exact ⟨rfl, .inc hop hx⟩
    · split at h
      · next hop =>
        obtain ⟨x, hx, h⟩ := Exec.bind_ok.mp h
        cases h
        exact ⟨rfl, .swap hop hx⟩
      · split at h
        · next hop =>
          obtain ⟨⟨stat, value, mp⟩, hx, h⟩ := Exec.bind_ok.mp h
          cases value with
          | none => cases h
          | some value =>
            cases h
            exact ⟨rfl, .read hop hx⟩
        · split at h
          · next hop =>
            obtain ⟨x, hx, h⟩ := Exec.bind_ok.mp h
            cases h
            exact ⟨rfl, .write hop hx⟩
          · cases h
            exact ⟨rfl, .none (by omega)⟩

end SimpleOs.Syscall
