import SimpleOs.Lib.CInt
import SimpleOs.Mm.Memphy

/-!
# Address spaces (`os-mm.h`, `init_mm`)

* `VmRgStruct`, `VmAreaStruct`, `MmStruct` : regions, areas and the address space of a process. A
  linked list is the list of its nodes, a pointer to an area its position in `mmap`;
* `Caller` : what the memory calls use of a `pcb_t`: the address space and the two devices;
* `initMm` : a new address space; `RawMm` is what the memory held before.
-/

namespace SimpleOs.Mm

def PAGING_MAX_SYMTBL_SZ : Nat := 30

structure VmRgStruct where
  vmaid : Nat
  rgStart : Nat
  rgEnd : Nat
  deriving DecidableEq, Repr

structure VmAreaStruct where
  vmId : Nat
  vmStart : Nat
  vmEnd : Nat
  sbrk : Nat
  vmFreergList : List VmRgStruct
  deriving DecidableEq, Repr

structure MmStruct where
  pgd : Nat → Word
  mmap : List VmAreaStruct
  symrgtbl : Nat → VmRgStruct
  fifoPgn : List Nat

/-- The devices a process reaches through its `pcb_t`. -/
inductive Dev
  | mram
  | activeMswp
  deriving DecidableEq, Repr

structure Caller where
  mm : MmStruct
  dev : Dev → MemphyStruct

/-- Contents of the memory an address space is set up in. -/
structure RawMm where
  pgd : Nat → Word
  symrgtbl : Nat → VmRgStruct
  fifoPgn : List Nat
  /-- the list the unset `vm_freerg_list` of the new area points to -/
  vmFreergList : List VmRgStruct
  /-- the unset `vmaid` of the first region -/
  vmaid : Nat

def RawMm.zeroed : RawMm where
  pgd := fun _ => 0
  symrgtbl := fun _ => ⟨0, 0, 0⟩
  fifoPgn := []
  vmFreergList := []
  vmaid := 0

/-- `init_vm_rg` : the `vmaid` field keeps what the memory held. -/
def initVmRg (vmaid rgStart rgEnd : Nat) : VmRgStruct := ⟨vmaid, rgStart, rgEnd⟩

def enlistVmRgNode (rglist : List VmRgStruct) (rgnode : VmRgStruct) : List VmRgStruct := rgnode :: rglist

def initMm (raw : RawMm) : MmStruct :=
  let vma0 : VmAreaStruct :=
    { vmId := 0, vmStart := 0, vmEnd := 0, sbrk := 0, vmFreergList := raw.vmFreergList }
  let firstRg := initVmRg raw.vmaid vma0.vmStart vma0.vmEnd
  let vma0 := { vma0 with vmFreergList := enlistVmRgNode vma0.vmFreergList firstRg }
  { pgd := raw.pgd, mmap := [vma0], symrgtbl := raw.symrgtbl, fifoPgn := raw.fifoPgn }

/-! ## Field updates -/

/-- The area at position `i` of `mmap`; following the pointer of a missing area is undefined. -/
def MmStruct.area (mm : MmStruct) (i : Nat) : Exec VmAreaStruct :=
  match mm.mmap[i]? with
  | some a => .ok a
  | none => .error .null

def MmStruct.setArea (mm : MmStruct) (i : Nat) (a : VmAreaStruct) : MmStruct :=
  { mm with mmap := mm.mmap.set i a }

def MmStruct.getRg (mm : MmStruct) (rgid : Int) : Exec VmRgStruct :=
  if 0 ≤ rgid ∧ rgid < PAGING_MAX_SYMTBL_SZ then .ok (mm.symrgtbl rgid.toNat) else .error (.symrgtbl rgid)

def MmStruct.setRg (mm : MmStruct) (rgid : Int) (rg : VmRgStruct) : Exec MmStruct :=
  if 0 ≤ rgid ∧ rgid < PAGING_MAX_SYMTBL_SZ then
    .ok { mm with symrgtbl := Function.update mm.symrgtbl rgid.toNat rg }
  else .error (.symrgtbl rgid)

def MmStruct.getPte (mm : MmStruct) (pgn : Nat) : Exec Word :=
  if pgn < PAGING_MAX_PGN then .ok (mm.pgd pgn) else .error (.pgd pgn)

def MmStruct.setPte (mm : MmStruct) (pgn : Nat) (pte : Word) : Exec MmStruct :=
  if pgn < PAGING_MAX_PGN then .ok { mm with pgd := Function.update mm.pgd pgn pte }
  else .error (.pgd pgn)

def Caller.setDev (c : Caller) (d : Dev) (mp : MemphyStruct) : Caller :=
  { c with dev := Function.update c.dev d mp }

@[simp] theorem Caller.setDev_mm (c : Caller) (d : Dev) (mp : MemphyStruct) : (c.setDev d mp).mm = c.mm := rfl

@[simp] theorem Caller.setDev_dev_self (c : Caller) (d : Dev) (mp : MemphyStruct) :
    (c.setDev d mp).dev d = mp := Function.update_self ..

@[simp] theorem Caller.setDev_self (c : Caller) (d : Dev) : c.setDev d (c.dev d) = c := by
  rw [Caller.setDev, Function.update_eq_self]

theorem Caller.setDev_dev_of_ne (c : Caller) {d d' : Dev} (h : d' ≠ d) (mp : MemphyStruct) :
    (c.setDev d mp).dev d' = c.dev d' := Function.update_of_ne h ..

@[simp] theorem Caller.setDev_mram_swp (c : Caller) (mp : MemphyStruct) :
    (c.setDev .mram mp).dev .activeMswp = c.dev .activeMswp := c.setDev_dev_of_ne (by decide) mp

@[simp] theorem Caller.setDev_swp_mram (c : Caller) (mp : MemphyStruct) :
    (c.setDev .activeMswp mp).dev .mram = c.dev .mram := c.setDev_dev_of_ne (by decide) mp

end SimpleOs.Mm
