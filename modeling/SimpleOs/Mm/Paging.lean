import SimpleOs.Mm.Structs

/-!
# Paging (`mm.c`)

* `enlistPgnNode`, `vmapPageRange`, `allocPagesRange`, `vmMapRam` : mapping fresh frames;
* `swapCpPage` : copying one frame between two devices, which may be the same one.
-/

namespace SimpleOs.Mm
open CInt

def enlistPgnNode (plist : List Nat) (pgn : Nat) : List Nat := pgn :: plist

/-- The loop of `vmap_page_range`: from `pgit` on, while pages are wanted and frames are left. -/
def vmapPageRangeLoop (startPgn : Nat) (pgnum : Int) : Nat → List Nat → MmStruct → Exec (Nat × MmStruct)
  | pgit, [], mm => .ok (pgit, mm)
  | pgit, fpn :: fpNext, mm => do
    if (pgit : Int) < pgnum then
      let currentPgn := startPgn + pgit
      let pte ← mm.getPte currentPgn
      let mm ← mm.setPte currentPgn (pteSetFpn pte fpn)
      let mm := { mm with fifoPgn := enlistPgnNode mm.fifoPgn currentPgn }
      vmapPageRangeLoop startPgn pgnum (pgit + 1) fpNext mm
    else return (pgit, mm)

/-- `vmap_page_range` : status, `ret_rg` and the caller. -/
def vmapPageRange (caller : Caller) (addr pgnum : Int) (frames : List Nat) :
    Exec (Int × VmRgStruct × Caller) := do
  let startPgn := pagingPgn addr
  let vmaid := match caller.mm.mmap with
    | vma :: _ => vma.vmId
    | [] => toULong (-1)
  let (pgit, mm) ← vmapPageRangeLoop startPgn pgnum 0 frames caller.mm
  return (0, ⟨vmaid, toULong addr, toULong (toInt (addr + toInt (pgit * PAGING_PAGESZ)))⟩,
    { caller with mm := mm })

/-- `alloc_pages_range` for the pages left to get: status, frame list and caller. -/
def allocPagesRange (caller : Caller) : Nat → List Nat → Int × List Nat × Caller
  | 0, frmLst => (0, frmLst, caller)
  | left + 1, frmLst =>
    match memphyGetFreefp (caller.dev .mram) with
    | (_, some fpn, mp) => allocPagesRange (caller.setDev .mram mp) left (fpn :: frmLst)
    | (_, none, _) => (-1, frmLst, caller)

/-- `vm_map_ram` : status, `ret_rg` (`none` when it was not set) and the caller. -/
def vmMapRam (caller : Caller) (_astart _aend mapstart incpgnum : Int) :
    Exec (Int × Option VmRgStruct × Caller) := do
  let (retAlloc, frmLst, caller) := allocPagesRange caller incpgnum.toNat []
  if retAlloc < 0 ∧ retAlloc ≠ -3000 then return (-1, none, caller)
  if retAlloc = -3000 then return (-1, none, caller)
  let (_, retRg, caller) ← vmapPageRange caller mapstart incpgnum frmLst
  return (0, some retRg, caller)

def swapCpPageLoop {ι : Type} [DecidableEq ι] (src : ι) (srcfpn : Nat) (dst : ι) (dstfpn : Nat) :
    Nat → (ι → MemphyStruct) → Exec (ι → MemphyStruct)
  | 0, dev => .ok dev
  | left + 1, dev => do
    let cellidx := PAGING_PAGESZ - (left + 1)
    let addrsrc := toInt (toInt (srcfpn * PAGING_PAGESZ) + cellidx)
    let addrdst := toInt (toInt (dstfpn * PAGING_PAGESZ) + cellidx)
    let (_, data, mpsrc) ← memphyRead (dev src) addrsrc
    let dev := Function.update dev src mpsrc
    -- `data` is a local of the loop body, unset when the read fails
    match data with
    | none => .error .uninit
    | some data =>
      let (_, mpdst) ← memphyWrite (dev dst) addrdst data
      swapCpPageLoop src srcfpn dst dstfpn left (Function.update dev dst mpdst)

def swapCpPage {ι : Type} [DecidableEq ι] (dev : ι → MemphyStruct) (src : ι) (srcfpn : Nat) (dst : ι)
    (dstfpn : Nat) : Exec (Int × (ι → MemphyStruct)) := do
  let dev ← swapCpPageLoop src srcfpn dst dstfpn PAGING_PAGESZ dev
  return (0, dev)

end SimpleOs.Mm
