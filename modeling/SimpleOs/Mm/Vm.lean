import SimpleOs.Mm.Paging

/-!
# Virtual memory areas (`mm-vm.c`)

* `getVmaByNum` : the area of an id, as a position in `mmap`;
* `getVmAreaNodeAtBrk`, `validateOverlapVmArea`, `incVmaLimit` : growing an area at its break.
-/

namespace SimpleOs.Mm
open CInt

/-- `PAGING_PAGE_ALIGNSZ(sz)` of an `int` -/
def pagingPageAlignsz (sz : Int) : Int := alignUp sz PAGING_PAGESZ

/-- The loop of `get_vma_by_num` at position `i`; past the last area it reads `vm_id` of a null
pointer. -/
def getVmaByNumLoop (vmaid : Int) : Nat → List VmAreaStruct → Exec (Option Nat)
  | _, [] => .error .null
  | i, pvma :: vmNext => if toInt pvma.vmId < vmaid then getVmaByNumLoop vmaid (i + 1) vmNext else .ok (some i)

def getVmaByNum (mm : MmStruct) (vmaid : Int) : Exec (Option Nat) :=
  if mm.mmap = [] then .ok none else getVmaByNumLoop vmaid 0 mm.mmap

/-- The area `get_vma_by_num` returns, dereferenced. -/
def derefVma (mm : MmStruct) : Option Nat → Exec VmAreaStruct
  | some i => mm.area i
  | none => .error .null

/-- `get_vm_area_node_at_brk` : the region at the break (`none` for `NULL`) and the caller. -/
def getVmAreaNodeAtBrk (caller : Caller) (vmaid : Int) (_size alignedsz : Int) :
    Exec (Option (Nat × Nat) × Caller) := do
  match ← getVmaByNum caller.mm vmaid with
  | none => return (none, caller)
  | some i =>
    let curVma ← caller.mm.area i
    let rgStart := curVma.sbrk
    let rgEnd := toULong (rgStart + toULong alignedsz)
    return (some (rgStart, rgEnd), { caller with mm := caller.mm.setArea i { curVma with sbrk := rgEnd } })

def overlapsVma (vma : VmAreaStruct) (vmastart vmaend : Nat) : Bool :=
  (vma.vmStart ≤ vmastart && vmastart ≤ vma.vmEnd) ||
  (vma.vmStart ≤ vmaend && vmaend ≤ vma.vmEnd) ||
  (vmastart ≤ vma.vmStart && vma.vmEnd ≤ vmaend) ||
  (vma.vmStart ≤ vmastart && vmaend ≤ vma.vmEnd)

def validateOverlapVmAreaLoop (vmastart vmaend : Nat) : List VmAreaStruct → Int
  | [] => 0
  | vma :: vmNext =>
    if vma.vmStart = vma.vmEnd then validateOverlapVmAreaLoop vmastart vmaend vmNext
    else if overlapsVma vma vmastart vmaend then -1
    else validateOverlapVmAreaLoop vmastart vmaend vmNext

/-- `validate_overlap_vm_area` : the `int` bounds are compared as `unsigned long`. -/
def validateOverlapVmArea (caller : Caller) (_vmaid vmastart vmaend : Int) : Int :=
  validateOverlapVmAreaLoop (toULong vmastart) (toULong vmaend) caller.mm.mmap

def incVmaLimit (caller : Caller) (vmaid incSz : Int) : Exec (Int × Caller) := do
  let incAmt := pagingPageAlignsz incSz
  let incnumpage := incAmt.tdiv PAGING_PAGESZ
  let (area, caller) ← getVmAreaNodeAtBrk caller vmaid incSz incAmt
  let curVma ← getVmaByNum caller.mm vmaid
  let vma ← derefVma caller.mm curVma
  let oldEnd := toInt vma.vmEnd
  match area with
  | none => return (-1, caller)
  | some (rgStart, rgEnd) =>
    if validateOverlapVmArea caller vmaid (toInt rgStart) (toInt rgEnd) < 0 then return (-1, caller)
    let caller := { caller with
      mm := caller.mm.setArea (curVma.getD 0) { vma with vmEnd := toULong (toInt (oldEnd + incAmt)) } }
    let (ret, _, caller) ← vmMapRam caller (toInt rgStart) (toInt rgEnd) oldEnd incnumpage
    if ret < 0 then return (-1, caller)
    return (0, caller)

end SimpleOs.Mm
