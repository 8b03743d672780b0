import SimpleOs.Mm.Vm

/-!
# The memory library (`libmem.c`)

* `Libmem.alloc`, `Libmem.free`, `Libmem.read`, `Libmem.write` : `__alloc`, `__free`, `__read`,
  `__write`, and over them `liballoc`, `libfree`, `libread`, `libwrite`;
* `getFreeVmrgArea` : the search of the free region list;
* `pgGetpage`, `findVictimPage`, `pgGetval`, `pgSetval` : access through the page table;
* `MemCall`, `memCall` : the four calls as actions of a process.
-/

namespace SimpleOs.Mm
open CInt

def enlistVmFreergList (mm : MmStruct) (rgElmt : VmRgStruct) : Exec (Int × MmStruct) := do
  let vma ← mm.area 0
  if rgElmt.rgStart ≥ rgElmt.rgEnd then return (-1, mm)
  return (0, mm.setArea 0 { vma with vmFreergList := rgElmt :: vma.vmFreergList })

/-! ## The search of the free region list -/

/-- What the search loop leaves: whether it returned from inside, `rg_start` and `rg_end` of `newrg`,
and the list from the cursor on. -/
abbrev FreeSearch := Bool × (Nat × Nat) × List VmRgStruct

/-- The search loop of `get_free_vmrg_area` with the cursor on a node that has no successor. After an
exact fit the node is an empty region and is looked at once more; an exact fit then recurs for ever. -/
def freeSearchLast (vmaid size : Int) (rgit : VmRgStruct) (newrg : Nat × Nat) : Exec FreeSearch :=
  if rgit.vmaid ≠ toULong vmaid then .ok (false, newrg, [rgit])
  else
    let rgEnd := toULong (rgit.rgStart + toULong size)
    if rgEnd ≤ rgit.rgEnd then
      if rgEnd < rgit.rgEnd then .ok (true, (rgit.rgStart, rgEnd), [{ rgit with rgStart := rgEnd }])
      else
        let dummy := { rgit with rgStart := rgit.rgEnd }
        let dummyEnd := toULong (dummy.rgStart + toULong size)
        if dummyEnd ≤ dummy.rgEnd then
          if dummyEnd < dummy.rgEnd then
            .ok (true, (dummy.rgStart, dummyEnd), [{ dummy with rgStart := dummyEnd }])
          else .error .loop
        else .ok (false, (rgit.rgStart, rgEnd), [dummy])
    else .ok (false, newrg, [rgit])

/-- The search loop of `get_free_vmrg_area`: the cursor is on `rgit`, `rgNext` follows it. -/
def freeSearch (vmaid size : Int) : VmRgStruct → List VmRgStruct → Nat × Nat → Exec FreeSearch
  | rgit, [], newrg => freeSearchLast vmaid size rgit newrg
  | rgit, next :: rgNext, newrg =>
    if rgit.vmaid ≠ toULong vmaid then .ok (false, newrg, rgit :: next :: rgNext)
    else
      let rgEnd := toULong (rgit.rgStart + toULong size)
      if rgEnd ≤ rgit.rgEnd then
        if rgEnd < rgit.rgEnd then
          .ok (true, (rgit.rgStart, rgEnd), { rgit with rgStart := rgEnd } :: next :: rgNext)
        else
          -- the node takes over its successor, and the cursor stays on it
          freeSearch vmaid size { rgit with rgStart := next.rgStart, rgEnd := next.rgEnd } rgNext
            (rgit.rgStart, rgEnd)
      else
        match freeSearch vmaid size next rgNext newrg with
        | .ok (found, newrg, l) => .ok (found, newrg, rgit :: l)
        | .error e => .error e

/-- `get_free_vmrg_area` on a free list: status, `newrg` (`none` when it was not probed) and list. -/
def freeSearchList (vmaid size : Int) : List VmRgStruct → Exec (Int × Option (Nat × Nat) × List VmRgStruct)
  | [] => .ok (-1, none, [])
  | rgit :: rgNext => do
    let (found, newrg, l) ← freeSearch vmaid size rgit rgNext (toULong (-1), toULong (-1))
    if found then return (0, some newrg, l)
    if newrg.1 = toULong (-1) then return (-1, some newrg, l)
    return (0, some newrg, l)

/-- `get_free_vmrg_area` : status, `rg_start` and `rg_end` of `newrg`, caller. -/
def getFreeVmrgArea (caller : Caller) (vmaid size : Int) : Exec (Int × Option (Nat × Nat) × Caller) := do
  let curVma ← getVmaByNum caller.mm vmaid
  let vma ← derefVma caller.mm curVma
  let (ret, newrg, l) ← freeSearchList vmaid size vma.vmFreergList
  return (ret, newrg, { caller with mm := caller.mm.setArea (curVma.getD 0) { vma with vmFreergList := l } })

/-! ## Allocation and release -/

/-- `gap_size` of `__alloc` on area 0 -/
def gapSize (vma : VmAreaStruct) (oldSbrk : Int) : Int := toInt (vma.vmEnd - toULong oldSbrk)

/-- `__alloc` on area 0 once the free list has no region: the heap part. -/
def Libmem.allocHeap (caller : Caller) (i : Nat) (vmaid rgid size incSz : Int) : Exec Caller := do
  let curVma ← caller.mm.area i
  let oldSbrk := toInt curVma.sbrk
  let rg : VmRgStruct := ⟨toULong vmaid, toULong oldSbrk, toULong (toInt (oldSbrk + size))⟩
  if gapSize curVma oldSbrk ≥ size then
    let mm := caller.mm.setArea i { curVma with sbrk := toULong (curVma.sbrk + toULong size) }
    let mm ← mm.setRg rgid rg
    return { caller with mm := mm }
  else
    let (_, caller) ← incVmaLimit caller vmaid incSz
    let mm ← caller.mm.setRg rgid rg
    let curVma ← mm.area i
    return { caller with mm := mm.setArea i { curVma with sbrk := toULong (curVma.sbrk + toULong size) } }

/-- `__alloc` on area 1 once the free list has no region: the part growing down. -/
def Libmem.allocDown (caller : Caller) (i : Nat) (vmaid rgid size incSz : Int) : Exec (Bool × Caller) := do
  let curVma ← caller.mm.area i
  let oldSbrk := toInt curVma.sbrk
  let rg : VmRgStruct := ⟨toULong vmaid, toULong (toInt (oldSbrk - size)), toULong oldSbrk⟩
  if toInt (toULong oldSbrk - curVma.vmEnd) ≥ size then
    let mm ← caller.mm.setRg rgid rg
    return (true, { caller with mm := mm })
  else
    let (_, caller) ← incVmaLimit caller vmaid incSz
    let mm ← caller.mm.setRg rgid rg
    let curVma ← mm.area i
    return (false,
      { caller with mm := mm.setArea i { curVma with sbrk := toULong (curVma.sbrk - toULong size) } })

/-- `__alloc` : status, `*alloc_addr` (`none` when indeterminate) and the caller. -/
def Libmem.alloc (caller : Caller) (vmaid rgid size : Int) : Exec (Int × Option Int × Caller) := do
  if rgid < 0 ∨ rgid > PAGING_MAX_SYMTBL_SZ then return (-1, none, caller)
  let (ret, rgnode, caller) ← getFreeVmrgArea caller vmaid size
  if ret = 0 then
    match rgnode with
    | none => .error .uninit
    | some (rgStart, rgEnd) =>
      let mm ← caller.mm.setRg rgid ⟨toULong vmaid, rgStart, rgEnd⟩
      return (0, some (toInt rgStart), { caller with mm := mm })
  else
    let curVma ← getVmaByNum caller.mm vmaid
    let incSz := pagingPageAlignsz size
    let _ ← derefVma caller.mm curVma
    let i := curVma.getD 0
    if vmaid = 0 then
      let caller ← Libmem.allocHeap caller i vmaid rgid size incSz
      return (0, rgnode.map (fun rg => toInt rg.1), caller)
    else if vmaid = 1 then
      let (gap, caller) ← Libmem.allocDown caller i vmaid rgid size incSz
      return (0, rgnode.map (fun rg => toInt (if gap then rg.2 else rg.1)), caller)
    else return (-1, none, caller)

def Libmem.free (caller : Caller) (_vmaid rgid : Int) : Exec (Int × Caller) := do
  if rgid < 0 ∨ rgid > PAGING_MAX_SYMTBL_SZ then return (-1, caller)
  let curRg ← caller.mm.getRg rgid
  let mm ← caller.mm.setRg rgid { curRg with rgStart := toULong (-1), rgEnd := toULong (-1) }
  let (flag, mm) ← enlistVmFreergList mm curRg
  if flag ≠ 0 then return (-1, { caller with mm := mm })
  return (0, { caller with mm := mm })

def liballoc (proc : Caller) (size regIndex : Nat) : Exec (Int × Caller) := do
  let (ret, _, proc) ← Libmem.alloc proc 0 (toInt regIndex) (toInt size)
  return (ret, proc)

def libfree (proc : Caller) (regIndex : Nat) : Exec (Int × Caller) := Libmem.free proc 0 (toInt regIndex)

/-! ## Access through the page table -/

/-- The walk of `find_victim_page` over a list of one node and more: the list without its last node,
and that node. -/
def findVictimPageLoop : Nat → List Nat → List Nat × Nat
  | pg, [] => ([], pg)
  | prev, pg :: pgNext =>
    let (l, pgn) := findVictimPageLoop pg pgNext
    (prev :: l, pgn)

/-- `find_victim_page` : status, `*retpgn` and the address space. -/
def findVictimPage (mm : MmStruct) : Int × Int × MmStruct :=
  match mm.fifoPgn with
  | [] => (-1, -1, mm)
  | pg :: pgNext =>
    let (l, pgn) := findVictimPageLoop pg pgNext
    (0, pgn, { mm with fifoPgn := l })

/-- The part of `pg_getpage` that makes an absent page resident: status and caller. -/
def pgSwapIn (caller : Caller) (pgn : Nat) (pte : Word) : Exec (Int × Caller) := do
  let tgtfpn := pagingPteSwp pte
  let (ret, vicpgn, mm) := findVictimPage caller.mm
  if ret ≠ 0 then return (-1, { caller with mm := mm })
  let vicpte ← mm.getPte vicpgn.toNat
  let vicframeNum := pagingFpn vicpte
  -- the status of `MEMPHY_get_freefp` is not looked at
  let (_, swpfpn, mswp) := memphyGetFreefp (caller.dev .activeMswp)
  match swpfpn with
  | none => .error .uninit
  | some swpfpn =>
    let dev := Function.update caller.dev .activeMswp mswp
    let (_, dev) ← swapCpPage dev .mram vicframeNum .activeMswp swpfpn
    let (_, dev) ← swapCpPage dev .activeMswp tgtfpn .mram vicframeNum
    let mm ← mm.setPte vicpgn.toNat (pteSetSwap vicpte 0 swpfpn)
    let pte ← mm.getPte pgn
    let mm ← mm.setPte pgn (pteSetFpn pte vicframeNum)
    let mm := { mm with fifoPgn := enlistPgnNode mm.fifoPgn pgn }
    return (0, { caller with mm := mm, dev := dev })

/-- `pg_getpage` : status, `*fpn` (`none` when it was not set) and the caller. -/
def pgGetpage (caller : Caller) (pgn : Int) : Exec (Int × Option Nat × Caller) := do
  if pgn < 0 ∨ pgn ≥ PAGING_MAX_PGN then return (-1, none, caller)
  let pte ← caller.mm.getPte pgn.toNat
  if !pagingPagePresent pte then
    let (ret, caller) ← pgSwapIn caller pgn.toNat pte
    if ret ≠ 0 then return (-1, none, caller)
    let pte ← caller.mm.getPte pgn.toNat
    return (0, some (pagingFpn pte), caller)
  else return (0, some (pagingFpn pte), caller)

/-- The physical address `(fpn << PAGING_ADDR_FPN_LOBIT) + off` -/
def phyAddr (fpn off : Nat) : Int := toInt (toInt (fpn * 2 ^ PAGING_ADDR_FPN_LOBIT) + off)

/-- `pg_getval` : status, `*data` (`none` when it was not set) and the caller. -/
def pgGetval (caller : Caller) (addr : Int) : Exec (Int × Option BYTE × Caller) := do
  let pgn := pagingPgn addr
  let off := pagingOffst addr
  let (ret, fpn, caller) ← pgGetpage caller pgn
  if ret ≠ 0 then return (-1, none, caller)
  match fpn with
  | none => .error .uninit
  | some fpn =>
    let (_, data, mp) ← memphyRead (caller.dev .mram) (phyAddr fpn off)
    return (0, data, caller.setDev .mram mp)

def pgSetval (caller : Caller) (addr : Int) (value : BYTE) : Exec (Int × Caller) := do
  let pgn := pagingPgn addr
  let off := pagingOffst addr
  let (ret, fpn, caller) ← pgGetpage caller pgn
  if ret ≠ 0 then return (-1, caller)
  match fpn with
  | none => .error .uninit
  | some fpn =>
    let (_, mp) ← memphyWrite (caller.dev .mram) (phyAddr fpn off) value
    return (0, caller.setDev .mram mp)

/-- `get_symrg_byid` : the index of the entry, `none` for `NULL`. -/
def getSymrgByid (rgid : Int) : Option Int :=
  if rgid < 0 ∨ rgid > PAGING_MAX_SYMTBL_SZ then none else some rgid

/-- The address `currg->rg_start + offset`, passed as an `int`. -/
def regionAddr (currg : VmRgStruct) (offset : Int) : Int := toInt (currg.rgStart + toULong offset)

/-- `__read` : status, `*data` (`none` when it was not set) and the caller. -/
def Libmem.read (caller : Caller) (vmaid rgid offset : Int) : Exec (Int × Option BYTE × Caller) := do
  let currg := getSymrgByid rgid
  let curVma ← getVmaByNum caller.mm vmaid
  match currg, curVma with
  | some rgid, some _ =>
    let currg ← caller.mm.getRg rgid
    let (_, data, caller) ← pgGetval caller (regionAddr currg offset)
    return (0, data, caller)
  | _, _ => return (-1, none, caller)

def Libmem.write (caller : Caller) (vmaid rgid offset : Int) (value : BYTE) : Exec (Int × Caller) := do
  let currg := getSymrgByid rgid
  let curVma ← getVmaByNum caller.mm vmaid
  match currg, curVma with
  | some rgid, some _ =>
    let currg ← caller.mm.getRg rgid
    let (_, caller) ← pgSetval caller (regionAddr currg offset) value
    return (0, caller)
  | _, _ => return (-1, caller)

/-- `libread` : status, `*destination` (`none` when indeterminate) and the caller. -/
def libread (proc : Caller) (source offset : Nat) : Exec (Int × Option Word × Caller) := do
  let (val, data, proc) ← Libmem.read proc 0 (toInt source) (toInt offset)
  return (val, data.map (·.signExtend 32), proc)

def libwrite (proc : Caller) (data : BYTE) (destination offset : Nat) : Exec (Int × Caller) :=
  Libmem.write proc 0 (toInt destination) (toInt offset) data

/-! ## The calls of a process -/

inductive MemCall
  | alloc (size regIndex : Nat)
  | free (regIndex : Nat)
  | read (source offset : Nat)
  | write (data : BYTE) (destination offset : Nat)
  deriving DecidableEq

structure MemResult where
  ret : Int
  value : Option Word
  deriving DecidableEq

def memCall (c : Caller) : MemCall → Exec (MemResult × Caller)
  | .alloc size regIndex => do
    let (ret, c) ← liballoc c size regIndex
    return (⟨ret, none⟩, c)
  | .free regIndex => do
    let (ret, c) ← libfree c regIndex
    return (⟨ret, none⟩, c)
  | .read source offset => do
    let (ret, value, c) ← libread c source offset
    return (⟨ret, value⟩, c)
  | .write data destination offset => do
    let (ret, c) ← libwrite c data destination offset
    return (⟨ret, none⟩, c)

end SimpleOs.Mm
