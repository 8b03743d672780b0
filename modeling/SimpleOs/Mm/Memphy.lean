import Mathlib.Logic.Function.Basic
import Mathlib.Data.List.Range
import SimpleOs.Mm.Pte
import SimpleOs.Ub

/-!
# Physical devices (`mm-memphy.c`)

A device is a byte array with a list of free frames.

* `memphyRead`, `memphyWrite` : one byte, in random-access or sequential mode;
* `memphyGetFreefp`, `memphyPutFreefp` : the free frame list;
* `initMemphy` : formatting; `RawMemphy` is what the memory held before;
* `memphyRead_random`, `memphyWrite_random`, `initMemphy_zeroed` : what they do on the devices the
  program starts.
-/

namespace SimpleOs.Mm

/-- A `BYTE` (`char`). -/
abbrev BYTE := BitVec 8

structure MemphyStruct where
  storage : Nat → BYTE
  maxsz : Nat
  rdmflg : Bool
  cursor : Nat
  freeFpList : List Nat

def memphyMvCsrLoop (maxsz : Nat) (offset : Int) (cursor : Nat) : Nat → Nat
  | 0 => cursor
  | left + 1 =>
    if ((maxsz - (left + 1) : Nat) : Int) < offset then
      memphyMvCsrLoop maxsz offset ((cursor + 1) % maxsz) left
    else cursor

def memphyMvCsr (mp : MemphyStruct) (offset : Int) : MemphyStruct :=
  { mp with cursor := memphyMvCsrLoop mp.maxsz offset 0 mp.maxsz }

def storageGet (mp : MemphyStruct) (addr : Int) : Exec BYTE :=
  if 0 ≤ addr ∧ addr < mp.maxsz then .ok (mp.storage addr.toNat) else .error (.storage addr)

def storageSet (mp : MemphyStruct) (addr : Int) (value : BYTE) : Exec MemphyStruct :=
  if 0 ≤ addr ∧ addr < mp.maxsz then
    .ok { mp with storage := Function.update mp.storage addr.toNat value }
  else .error (.storage addr)

/-- `MEMPHY_seq_read` : status, value and device. -/
def memphySeqRead (mp : MemphyStruct) (addr : Int) : Exec (Int × Option BYTE × MemphyStruct) := do
  if !mp.rdmflg then return (-1, none, mp)
  let mp := memphyMvCsr mp addr
  let value ← storageGet mp addr
  return (0, some value, mp)

/-- `MEMPHY_read` : status, value (`none` when it was not set) and device. -/
def memphyRead (mp : MemphyStruct) (addr : Int) : Exec (Int × Option BYTE × MemphyStruct) := do
  if mp.rdmflg then
    let value ← storageGet mp addr
    return (0, some value, mp)
  else memphySeqRead mp addr

def memphySeqWrite (mp : MemphyStruct) (addr : Int) (value : BYTE) : Exec (Int × MemphyStruct) := do
  if !mp.rdmflg then return (-1, mp)
  let mp := memphyMvCsr mp addr
  let mp ← storageSet mp addr value
  return (0, mp)

def memphyWrite (mp : MemphyStruct) (addr : Int) (data : BYTE) : Exec (Int × MemphyStruct) := do
  if mp.rdmflg then
    let mp ← storageSet mp addr data
    return (0, mp)
  else memphySeqWrite mp addr data

/-- `MEMPHY_get_freefp` : status, frame (`none` when it was not set) and device. -/
def memphyGetFreefp (mp : MemphyStruct) : Int × Option Nat × MemphyStruct :=
  match mp.freeFpList with
  | [] => (-1, none, mp)
  | fpn :: rest => (0, some fpn, { mp with freeFpList := rest })

def memphyPutFreefp (mp : MemphyStruct) (fpn : Nat) : Int × MemphyStruct :=
  (0, { mp with freeFpList := fpn :: mp.freeFpList })

/-- Contents of the memory a device is set up in: the device's old free list, and what the link of
the first list node `malloc` returns points to. -/
structure RawMemphy where
  freeFpList : List Nat
  headNext : List Nat
  cursor : Nat

def RawMemphy.zeroed : RawMemphy := ⟨[], [], 0⟩

/-- The nodes `MEMPHY_format` appends for `iter`, `iter + 1`, ... -/
def memphyFormatLoop : Nat → Nat → List Nat
  | 0, _ => []
  | n + 1, iter => iter :: memphyFormatLoop n (iter + 1)

/-- `MEMPHY_format` : status and free list. The link of the head is set only when a second node is
appended. -/
def memphyFormat (raw : RawMemphy) (maxsz pagesz : Nat) : Int × List Nat :=
  let numfp := maxsz / pagesz
  if numfp = 0 then (-1, raw.freeFpList)
  else if numfp = 1 then (0, 0 :: raw.headNext)
  else (0, 0 :: memphyFormatLoop (numfp - 1) 1)

def initMemphy (raw : RawMemphy) (maxSize : Nat) (randomflg : Bool) : MemphyStruct where
  storage := fun _ => 0
  maxsz := maxSize
  rdmflg := randomflg
  cursor := if randomflg then raw.cursor else 0
  freeFpList := (memphyFormat raw maxSize PAGING_PAGESZ).2

/-! ## What they do on a random-access device -/

variable {mp : MemphyStruct} {addr : Int}

theorem memphyRead_random (hr : mp.rdmflg = true) (h₀ : 0 ≤ addr) (h₁ : addr < mp.maxsz) :
    memphyRead mp addr = .ok (0, some (mp.storage addr.toNat), mp) := by
  simp [memphyRead, storageGet, hr, h₀, h₁]

theorem memphyWrite_random (hr : mp.rdmflg = true) (h₀ : 0 ≤ addr) (h₁ : addr < mp.maxsz) (data : BYTE) :
    memphyWrite mp addr data =
      .ok (0, { mp with storage := Function.update mp.storage addr.toNat data }) := by
  simp [memphyWrite, storageSet, hr, h₀, h₁]

theorem memphyRead_ok (hr : mp.rdmflg = true) {x : Int × Option BYTE × MemphyStruct}
    (h : memphyRead mp addr = .ok x) :
    0 ≤ addr ∧ addr < mp.maxsz ∧ x = (0, some (mp.storage addr.toNat), mp) := by
  by_cases hb : 0 ≤ addr ∧ addr < mp.maxsz
  · rw [memphyRead_random hr hb.1 hb.2] at h
    exact ⟨hb.1, hb.2, (Except.ok.inj h).symm⟩
  · simp [memphyRead, storageGet, hr, hb] at h

theorem memphyWrite_ok (hr : mp.rdmflg = true) {data : BYTE} {x : Int × MemphyStruct}
    (h : memphyWrite mp addr data = .ok x) :
    0 ≤ addr ∧ addr < mp.maxsz ∧
      x = (0, { mp with storage := Function.update mp.storage addr.toNat data }) := by
  by_cases hb : 0 ≤ addr ∧ addr < mp.maxsz
  · rw [memphyWrite_random hr hb.1 hb.2] at h
    exact ⟨hb.1, hb.2, (Except.ok.inj h).symm⟩
  · simp [memphyWrite, storageSet, hr, hb] at h

theorem memphyFormatLoop_eq (n iter : Nat) : memphyFormatLoop n iter = List.range' iter n := by
  induction n generalizing iter with
  | zero => rfl
  | succ n ih => rw [memphyFormatLoop, ih, List.range'_succ]

/-- Over zeroed memory a device is formatted with all its frames in order. -/
theorem initMemphy_zeroed (maxSize : Nat) (randomflg : Bool) :
    (initMemphy .zeroed maxSize randomflg).freeFpList = List.range (maxSize / PAGING_PAGESZ) := by
  simp only [initMemphy, memphyFormat, RawMemphy.zeroed]
  split
  · next h => rw [h]; rfl
  · split
    · next h => rw [h]; rfl
    · next h _ =>
      rw [memphyFormatLoop_eq, List.range_eq_range']
      obtain ⟨n, hn⟩ := Nat.exists_eq_succ_of_ne_zero h
      rw [hn, Nat.succ_sub_one, List.range'_succ]

end SimpleOs.Mm
