import SimpleOs.Mm.FrameCopy
import SimpleOs.Mm.Isolation
import SimpleOs.Syscall.HeapGrowth

/-!
# What `memmap` touches and returns

* `touches` : the bytes of the devices that an operation reads and writes; `frameOf`, `Refers` : the frames of a
  caller; `Succeeds` : the operation succeeds;
* `MemmapHonest` : the call touches bytes of the caller's frames only, and returns 0 only after a success;
* `MemmapFits` : the conditions on the arguments of each operation;
* `incVmaLimit_zero_iff`, `mmSwapPage_zero_iff` : when the operations succeed;
* `memmap_honest_iff` : the call is contained and honest exactly when its arguments fit;
* `memmap_frame`, `memmap_reads` : nothing but these bytes is written, and nothing else is read;
* `anyCall_run` : what the calls keep, in any order;
* `memmap_foreign` : a write to a frame of nobody.
-/

namespace SimpleOs.Syscall
open SimpleOs.Mm CInt

/-- The address of a byte of a frame, computed in `int`. -/
def cellAddr (fpn cell : Nat) : Int := toInt (toInt (fpn * PAGING_PAGESZ) + cell)

/-- The bytes that the operation reads or writes. -/
def touches (regs : ScRegs) : List (Dev × Int) :=
  if toInt regs.a1 = SYSMEM_SWP_OP then
    (List.range PAGING_PAGESZ).flatMap fun cell =>
      [(.mram, cellAddr regs.a2 cell), (.activeMswp, cellAddr regs.a3 cell)]
  else if toInt regs.a1 = SYSMEM_IO_READ ∨ toInt regs.a1 = SYSMEM_IO_WRITE then [(.mram, toInt regs.a2)]
  else []

def frameOf : Dev → Word → Option Nat
  | .mram => ramFrame
  | .activeMswp => swpFrame

/-- The page table refers to the frame. -/
def Refers (mm : MmStruct) (d : Dev) (fpn : Nat) : Prop := ∃ p < PAGING_MAX_PGN, frameOf d (mm.pgd p) = some fpn

/-- The byte lies in the device, in a frame of the caller. -/
def Owned (c : Caller) (x : Dev × Int) : Prop :=
  (0 ≤ x.2 ∧ x.2 < (c.dev x.1).maxsz) ∧ Refers c.mm x.1 (x.2.toNat / PAGING_PAGESZ)

/-- The operation is one of the four that do something, and it succeeds. -/
inductive Succeeds (c : Caller) (regs : ScRegs) : Prop
  | inc {c' : Caller} (hop : toInt regs.a1 = SYSMEM_INC_OP)
      (h : incVmaLimit c (toInt regs.a2) (toInt regs.a3) = .ok (0, c'))
  | swap {c' : Caller} (hop : toInt regs.a1 = SYSMEM_SWP_OP) (h : mmSwapPage c regs.a2 regs.a3 = .ok (0, c'))
  | read {value : BYTE} {mp : MemphyStruct} (hop : toInt regs.a1 = SYSMEM_IO_READ)
      (h : memphyRead (c.dev .mram) (toInt regs.a2) = .ok (0, some value, mp))
  | write {mp : MemphyStruct} (hop : toInt regs.a1 = SYSMEM_IO_WRITE)
      (h : memphyWrite (c.dev .mram) (toInt regs.a2) (BitVec.ofNat 8 regs.a3) = .ok (0, mp))

def memmapCall (s : MemSys) (pid : Nat) (regs : ScRegs) : Exec (Int × ScRegs × MemSys) := do
  let (ret, regs, c) ← sysMemmap (s.caller pid) regs
  return (ret, regs, s.after pid c)

/-- Contained and honest: the call touches bytes inside the devices and in frames of the caller only, returns 0
only when the operation has succeeded, and leaves everything as it was when it returns something else. -/
structure MemmapHonest (s : MemSys) (pid : Nat) (regs : ScRegs) : Prop where
  contained : ∀ x ∈ touches regs, Owned (s.caller pid) x
  status : ∃ ret regs' s', memmapCall s pid regs = .ok (ret, regs', s') ∧
    (ret = 0 → Succeeds (s.caller pid) regs) ∧ (ret ≠ 0 → s' = s)

/-- A growth by `sz` bytes is not refused: the break is not found inside the area, and RAM and page table have room. -/
structure GrowFits (c : Caller) (a : VmAreaStruct) (sz : Int) : Prop where
  overlap : growthOverlaps a (pagingPageAlignsz sz) = false
  frames : grownPages a (pagingPageAlignsz sz) ≤ (c.dev .mram).freeFpList.length
  table : grownPages a (pagingPageAlignsz sz) = 0 ∨
    pagingPgn (toInt a.vmEnd) + grownPages a (pagingPageAlignsz sz) ≤ PAGING_MAX_PGN

/-- A frame of the caller inside its device. Frame numbers count modulo 2^24, in which addresses wrap around. -/
def FrameFits (c : Caller) (d : Dev) (fpn : Nat) : Prop :=
  Refers c.mm d (fpn % 16777216) ∧ (fpn % 16777216 + 1) * PAGING_PAGESZ ≤ (c.dev d).maxsz

/-- The arguments fit the operation. -/
inductive MemmapFits (c : Caller) (a : VmAreaStruct) (regs : ScRegs) : Prop
  | inc (hop : toInt regs.a1 = SYSMEM_INC_OP) (harea : toInt regs.a2 ≤ 0) (hgrow : GrowFits c a (toInt regs.a3))
  | swap (hop : toInt regs.a1 = SYSMEM_SWP_OP) (hram : FrameFits c .mram regs.a2)
      (hswp : FrameFits c .activeMswp regs.a3)
  | io (hop : toInt regs.a1 = SYSMEM_IO_READ ∨ toInt regs.a1 = SYSMEM_IO_WRITE)
      (haddr : Owned c (.mram, toInt regs.a2))

variable {c c' : Caller} {a : VmAreaStruct} {s : MemSys} {pid : Nat} {regs regs' : ScRegs} {ret sz vmaid : Int}
    {d : Dev}
  {fpn cell : Nat}

/-! ## The growth -/

theorem getVmaByNum_single (h : c.mm.Single a) (vmaid : Int) :
    getVmaByNum c.mm vmaid = if vmaid ≤ 0 then .ok (some 0) else .error .null := by
  have hid : toInt a.vmId = 0 := by
    rw [h.vmId]
    rfl
  rw [getVmaByNum, h.mmap, if_neg (by simp), getVmaByNumLoop, hid]
  by_cases hle : vmaid ≤ 0
  · rw [if_neg (by omega), if_pos hle]
  · rw [if_pos (by omega), if_neg hle]
    rfl

theorem incVmaLimit_of_nonpos (h : c.mm.Single a) (hle : vmaid ≤ 0) : incVmaLimit c vmaid sz = incVmaLimit c 0 sz := by
  have hfind {c : Caller} {a : VmAreaStruct} (h : c.mm.Single a) : getVmaByNum c.mm vmaid = getVmaByNum c.mm 0 := by
    rw [getVmaByNum_single h, getVmaByNum_single h, if_pos hle, if_pos (Int.le_refl 0)]
  have hnode (inc : Int) : getVmAreaNodeAtBrk c vmaid sz inc = getVmAreaNodeAtBrk c 0 sz inc := by
    unfold getVmAreaNodeAtBrk
    rw [hfind h]
  have hb (inc : Int) := hfind (Caller.withArea_single (c := c) (a := { a with sbrk := brkEnd a inc }) h.vmId)
  unfold incVmaLimit
  simp only [hnode, getVmAreaNodeAtBrk_single h, Exec.ok_bind, hb]
  rfl

theorem incVmaLimit_of_pos (h : c.mm.Single a) (hlt : 0 < vmaid) : incVmaLimit c vmaid sz = .error .null := by
  unfold incVmaLimit getVmAreaNodeAtBrk
  rw [getVmaByNum_single h, if_neg (by omega)]
  rfl

theorem vmMapRam_frames {astart aend mapstart k : Int} {rg : Option VmRgStruct}
    (hx : vmMapRam c astart aend mapstart k = .ok (ret, rg, c')) (hret : ¬ ret < 0) :
    k.toNat ≤ (c.dev .mram).freeFpList.length := by
  by_contra hk
  simp only [vmMapRam, allocPagesRange_eq, if_neg hk] at hx
  cases hx
  exact hret (by decide)

theorem growFits_of_zero (h : c.mm.Single a) (hx : incVmaLimit c 0 sz = .ok (0, c')) : GrowFits c a sz := by
  have hfits := ((incVmaLimit_ok_iff h).mp ⟨0, hx⟩).1
  generalize hinc : pagingPageAlignsz sz = inc at *
  have hb : (c.withArea { a with sbrk := brkEnd a inc }).mm.Single { a with sbrk := brkEnd a inc } :=
    Caller.withArea_single h.vmId
  simp only [incVmaLimit, hinc, getVmAreaNodeAtBrk_single h, Exec.ok_bind, hb.getVmaByNum, derefVma, hb.area,
    validateOverlapVmArea_lt_iff, hb.setArea, Option.getD_some] at hx
  by_cases ho : growthOverlaps a inc = true
  · simp only [ho, if_true] at hx
    cases hx
  · simp only [ho, if_false, Bool.false_eq_true] at hx
    obtain ⟨⟨r, rg, c₁⟩, hmap, hret⟩ := Exec.bind_ok.mp hx
    have hr : ¬ r < 0 := fun hneg => by
      simp only [if_pos hneg] at hret
      cases hret
    have hleft := vmMapRam_frames hmap hr
    have hframes : (inc.tdiv PAGING_PAGESZ).toNat ≤ (c.dev .mram).freeFpList.length := hleft
    have hpages : grownPages a inc = (inc.tdiv PAGING_PAGESZ).toNat := if_neg ho
    rw [← hpages] at hframes
    constructor
    · rw [hinc]
      exact Bool.eq_false_iff.mpr ho
    · rw [hinc]
      exact hframes
    · rw [hinc]
      exact hfits hframes

/-- When `inc_vma_limit` succeeds. -/
theorem incVmaLimit_zero_iff (h : c.mm.Single a) :
    (∃ c', incVmaLimit c vmaid sz = .ok (0, c')) ↔ vmaid ≤ 0 ∧ GrowFits c a sz := by
  rcases Int.lt_or_le 0 vmaid with hlt | hle
  · constructor
    · rintro ⟨c', hx⟩
      cases (incVmaLimit_of_pos h hlt).symm.trans hx
    · rintro ⟨hle, -⟩
      omega
  · rw [incVmaLimit_of_nonpos h hle]
    constructor
    · rintro ⟨c', hx⟩
      exact ⟨hle, growFits_of_zero h hx⟩
    · rintro ⟨-, hg⟩
      obtain ⟨ret, hx⟩ := (incVmaLimit_ok_iff h).mpr ⟨fun _ => hg.table, rfl⟩
      have hret := incVmaLimit_status h hx hg.frames
      rw [hg.overlap, if_neg (by decide)] at hret
      subst hret
      exact ⟨_, hx⟩

/-! ## The copy of a frame -/

theorem cellAddr_mod (fpn cell : Nat) (hcell : cell < PAGING_PAGESZ) : cellAddr fpn cell =
    if fpn % 16777216 < 8388608 then ((fpn % 16777216 * PAGING_PAGESZ + cell : Nat) : Int)
    else ((fpn % 16777216 * PAGING_PAGESZ + cell : Nat) : Int) - 4294967296 := by
  unfold cellAddr toInt PAGING_PAGESZ at *
  split <;> omega

/-- A frame lies in the device and in the page table when all of its bytes do. -/
theorem frameFits_iff (hmax : (c.dev d).maxsz < 2 ^ 31) :
    (∀ cell < PAGING_PAGESZ, Owned c (d, cellAddr fpn cell)) ↔ FrameFits c d fpn := by
  constructor
  · intro h
    have hfirst := h 0 (by decide)
    have hlast := h (PAGING_PAGESZ - 1) (by decide)
    unfold Owned at hfirst hlast
    rw [cellAddr_mod _ _ (by decide)] at hfirst hlast
    by_cases hlt : fpn % 16777216 < 8388608
    · rw [if_pos hlt] at hfirst hlast
      obtain ⟨-, hrefers⟩ := hfirst
      obtain ⟨⟨-, hend⟩, -⟩ := hlast
      dsimp only at hrefers hend
      rw [Int.toNat_natCast, Nat.add_zero, Nat.mul_div_cancel _ (by decide)] at hrefers
      refine ⟨hrefers, ?_⟩
      unfold PAGING_PAGESZ at *
      omega
    · rw [if_neg hlt] at hfirst
      have hneg := hfirst.1.1
      dsimp only at hneg
      unfold PAGING_PAGESZ at hneg
      omega
  · rintro ⟨hrefers, hend⟩ cell hcell
    have hlt : fpn % 16777216 < 8388608 := by
      unfold PAGING_PAGESZ at hend
      omega
    unfold Owned
    rw [cellAddr_mod _ _ hcell, if_pos hlt]
    dsimp only
    rw [Int.toNat_natCast, Nat.mul_comm, Nat.mul_add_div (by decide), Nat.div_eq_of_lt hcell, Nat.add_zero]
    refine ⟨⟨Int.natCast_nonneg _, ?_⟩, hrefers⟩
    unfold PAGING_PAGESZ at *
    omega

variable {ι : Type} [DecidableEq ι] {dev dev' : ι → MemphyStruct} {src dst : ι} {m n : Nat}

theorem swapCpPage_mod (dev : ι → MemphyStruct) (src : ι) (m : Nat) (dst : ι) (n : Nat) :
    swapCpPage dev src m dst n = swapCpPage dev src (m % 16777216) dst (n % 16777216) := by
  have hmod (k : Nat) : toInt (k * PAGING_PAGESZ) = toInt ((k % 16777216 : Nat) * PAGING_PAGESZ) := by
    unfold toInt PAGING_PAGESZ
    omega
  have hm := hmod m
  have hn := hmod n
  have hloop (left : Nat) :
      swapCpPageLoop src m dst n left = swapCpPageLoop src (m % 16777216) dst (n % 16777216) left := by
    induction left with
    | zero => rfl
    | succ left ih =>
      funext dev
      simp only [swapCpPageLoop, ih, hm, hn]
  unfold swapCpPage
  rw [hloop]

theorem cellAddr_nonneg (h : 0 ≤ cellAddr fpn cell) (hcell : cell < PAGING_PAGESZ) : fpn % 16777216 < 2 ^ 23 := by
  rw [cellAddr_mod _ _ hcell] at h
  split at h
  · assumption
  · unfold PAGING_PAGESZ at *
    omega

theorem swapCpPage_first (hsrc : (dev src).rdmflg = true) (hdst : (dev dst).rdmflg = true)
    {x : Int × (ι → MemphyStruct)}
    (h : swapCpPage dev src m dst n = .ok x) : m % 16777216 < 2 ^ 23 ∧ n % 16777216 < 2 ^ 23 := by
  unfold swapCpPage at h
  obtain ⟨dev', hloop, -⟩ := Exec.bind_ok.mp h
  have hloop : swapCpPageLoop src m dst n (255 + 1) dev = .ok dev' := hloop
  unfold swapCpPageLoop at hloop
  obtain ⟨y, hread, hloop⟩ := Exec.bind_ok.mp hloop
  obtain ⟨hm, -, rfl⟩ := memphyRead_ok hsrc hread
  simp only [Function.update_eq_self] at hloop
  obtain ⟨z, hwrite, -⟩ := Exec.bind_ok.mp hloop
  obtain ⟨hn, -, -⟩ := memphyWrite_ok hdst hwrite
  have hcell : PAGING_PAGESZ - (255 + 1) < PAGING_PAGESZ := by decide
  exact ⟨cellAddr_nonneg hm hcell, cellAddr_nonneg hn hcell⟩

/-- When a copy succeeds. -/
theorem swapCpPage_any_iff (hsrc : (dev src).rdmflg = true) (hdst : (dev dst).rdmflg = true)
    (hmax : (dev src).maxsz < 2 ^ 31) (hmax' : (dev dst).maxsz < 2 ^ 31) :
    (∃ dev', swapCpPage dev src m dst n = .ok (0, dev')) ↔
      (m % 16777216 + 1) * PAGING_PAGESZ ≤ (dev src).maxsz ∧ (n % 16777216 + 1) * PAGING_PAGESZ ≤ (dev dst).maxsz := by
  constructor
  · rintro ⟨dev', h⟩
    obtain ⟨hm, hn⟩ := swapCpPage_first hsrc hdst h
    rw [swapCpPage_mod] at h
    exact ((swapCpPage_ok_iff src dst hm hn hsrc hdst).mp h).1
  · rintro ⟨hm, hn⟩
    have hm₂₃ : m % 16777216 < 2 ^ 23 := by
      unfold PAGING_PAGESZ at hm
      omega
    have hn₂₃ : n % 16777216 < 2 ^ 23 := by
      unfold PAGING_PAGESZ at hn
      omega
    have hcopy := (swapCpPage_ok_iff src dst hm₂₃ hn₂₃ hsrc hdst).mpr ⟨⟨hm, hn⟩, rfl⟩
    exact ⟨_, (swapCpPage_mod dev src m dst n).trans hcopy⟩

/-! ## The call -/

theorem sysMemmap_of_succeeds (h : Succeeds c regs) : ∃ regs' c', sysMemmap c regs = .ok (0, regs', c') := by
  obtain ⟨hmap, hinc, hswp, hread, hwrite⟩ := op_codes
  unfold sysMemmap
  dsimp only
  cases h with
  | inc hop h =>
    rw [if_neg (by omega), if_pos hop]
    exact ⟨_, _, Exec.bind_ok.mpr ⟨_, h, rfl⟩⟩
  | swap hop h =>
    rw [if_neg (by omega), if_neg (by omega), if_pos hop]
    exact ⟨_, _, Exec.bind_ok.mpr ⟨_, h, rfl⟩⟩
  | read hop h =>
    rw [if_neg (by omega), if_neg (by omega), if_neg (by omega), if_pos hop]
    exact ⟨_, _, Exec.bind_ok.mpr ⟨_, h, rfl⟩⟩
  | write hop h =>
    rw [if_neg (by omega), if_neg (by omega), if_neg (by omega), if_neg (by omega), if_pos hop]
    exact ⟨_, _, Exec.bind_ok.mpr ⟨_, h, rfl⟩⟩

theorem touches_swap {p : Dev × Int → Prop} (hop : toInt regs.a1 = SYSMEM_SWP_OP) : (∀ x ∈ touches regs, p x) ↔
    (∀ cell < PAGING_PAGESZ, p (.mram, cellAddr regs.a2 cell)) ∧
      ∀ cell < PAGING_PAGESZ, p (.activeMswp, cellAddr regs.a3 cell) := by
  unfold touches
  rw [if_pos hop]
  simp only [List.mem_flatMap, List.mem_range, List.mem_cons, List.not_mem_nil, or_false]
  constructor
  · intro h
    exact ⟨fun cell hcell => h _ ⟨cell, hcell, .inl rfl⟩, fun cell hcell => h _ ⟨cell, hcell, .inr rfl⟩⟩
  · rintro ⟨hram, hswp⟩ x ⟨cell, hcell, rfl | rfl⟩
    · exact hram cell hcell
    · exact hswp cell hcell

theorem mmSwapPage_zero_iff (hd : DevOk c.dev) (vicfpn swpfpn : Nat) :
    (∃ c', mmSwapPage c vicfpn swpfpn = .ok (0, c')) ↔
    (vicfpn % 16777216 + 1) * PAGING_PAGESZ ≤ (c.dev .mram).maxsz ∧
      (swpfpn % 16777216 + 1) * PAGING_PAGESZ ≤ (c.dev .activeMswp).maxsz := by
  rw [← swapCpPage_any_iff (hd.random .mram) (hd.random .activeMswp) (hd.maxsz .mram) (hd.maxsz .activeMswp)]
  constructor
  · rintro ⟨c', h⟩
    obtain ⟨⟨ret, dev'⟩, hx, -⟩ := Exec.bind_ok.mp h
    obtain ⟨dev'', -, hret⟩ := Exec.bind_ok.mp hx
    cases hret
    exact ⟨_, hx⟩
  · rintro ⟨dev', hx⟩
    exact ⟨_, Exec.bind_ok.mpr ⟨_, hx, rfl⟩⟩

theorem touches_inc (hop : toInt regs.a1 = SYSMEM_INC_OP) : touches regs = [] := by
  obtain ⟨-, hinc, hswp, hread, hwrite⟩ := op_codes
  unfold touches
  rw [if_neg (by omega), if_neg (by omega)]

theorem touches_io (hop : toInt regs.a1 = SYSMEM_IO_READ ∨ toInt regs.a1 = SYSMEM_IO_WRITE) :
    touches regs = [(.mram, toInt regs.a2)] := by
  obtain ⟨-, -, hswp, hread, hwrite⟩ := op_codes
  unfold touches
  rw [if_neg (by omega), if_pos hop]

/-- When an operation touches frames of the caller only, and succeeds. -/
theorem memmapFits_iff (hm : c.mm.Single a) (hd : DevOk c.dev) :
    (∀ x ∈ touches regs, Owned c x) ∧ Succeeds c regs ↔ MemmapFits c a regs := by
  constructor
  · rintro ⟨hown, hs⟩
    cases hs with
    | inc hop h =>
      obtain ⟨harea, hgrow⟩ := (incVmaLimit_zero_iff hm).mp ⟨_, h⟩
      exact .inc hop harea hgrow
    | swap hop h =>
      obtain ⟨hram, hswp⟩ := (touches_swap hop).mp hown
      exact .swap hop ((frameFits_iff (hd.maxsz .mram)).mp hram) ((frameFits_iff (hd.maxsz .activeMswp)).mp hswp)
    | read hop h =>
      rw [touches_io (.inl hop)] at hown
      exact .io (.inl hop) (hown _ List.mem_cons_self)
    | write hop h =>
      rw [touches_io (.inr hop)] at hown
      exact .io (.inr hop) (hown _ List.mem_cons_self)
  · intro hf
    cases hf with
    | inc hop harea hgrow =>
      obtain ⟨c', h⟩ := (incVmaLimit_zero_iff hm).mpr ⟨harea, hgrow⟩
      rw [touches_inc hop]
      exact ⟨fun x hx => absurd hx List.not_mem_nil, .inc hop h⟩
    | swap hop hram hswp =>
      obtain ⟨c', h⟩ := (mmSwapPage_zero_iff hd regs.a2 regs.a3).mpr ⟨hram.2, hswp.2⟩
      refine ⟨(touches_swap hop).mpr ⟨?_, ?_⟩, .swap hop h⟩
      · exact (frameFits_iff (hd.maxsz .mram)).mpr hram
      · exact (frameFits_iff (hd.maxsz .activeMswp)).mpr hswp
    | io hop haddr =>
      rw [touches_io hop, List.forall_mem_singleton]
      refine ⟨haddr, ?_⟩
      obtain ⟨⟨h₀, h₁⟩, -⟩ := haddr
      rcases hop with hop | hop
      · exact .read hop (memphyRead_random (hd.random .mram) h₀ h₁)
      · exact .write hop (memphyWrite_random (hd.random .mram) h₀ h₁ _)

/-- `memmap` is contained and honest if and only if its arguments fit its operation: the area has room to grow, the
frames are the caller's, or the byte is in one of them. -/
theorem memmap_honest_iff (hm : (s.mm pid).Single a) (hd : DevOk s.dev) :
    MemmapHonest s pid regs ↔ MemmapFits (s.caller pid) a regs := by
  rw [← memmapFits_iff (c := s.caller pid) hm hd]
  constructor
  · rintro ⟨hown, ret, regs', s', h, hzero, -⟩
    obtain ⟨⟨ret', regs'', c'⟩, hx, hret⟩ := Exec.bind_ok.mp h
    cases hret
    exact ⟨hown, hzero (sysMemmap_cases hx).1⟩
  · rintro ⟨hown, hs⟩
    obtain ⟨regs', c', hx⟩ := sysMemmap_of_succeeds hs
    exact ⟨hown, 0, regs', s.after pid c', Exec.bind_ok.mpr ⟨_, hx, rfl⟩, fun _ => hs, fun hne => absurd rfl hne⟩

/-- A growth of a new process within its RAM. -/
theorem memmap_honest_growth : MemmapHonest (MemSys.boot 4096 4096) 0 ⟨SYSMEM_INC_OP, 0, 300⟩ := by
  have hd : DevOk (MemSys.boot 4096 4096).dev := (boot_ok (by decide) (by decide)).devOk
  refine (memmap_honest_iff (a := _) ⟨rfl, rfl⟩ hd).mpr (.inc rfl (by decide) ⟨?_, ?_, ?_⟩)
  · decide +kernel
  · decide +kernel
  · decide +kernel

/-- A write to a frame of nobody: a new process stores a byte at address 0 of RAM and gets 0. -/
theorem memmap_foreign : (∃ s', memmapCall (MemSys.boot 4096 4096) 0 ⟨SYSMEM_IO_WRITE, 0, 65⟩ =
      .ok (0, ⟨SYSMEM_IO_WRITE, 0, 65⟩, s') ∧ (s'.dev .mram).storage 0 = 65) ∧
    ¬ ∀ s pid regs a, (s.mm pid).Single a → DevOk s.dev → MemmapHonest s pid regs := by
  refine ⟨⟨_, rfl, rfl⟩, fun hall => ?_⟩
  have hd : DevOk (MemSys.boot 4096 4096).dev := (boot_ok (by decide) (by decide)).devOk
  have h := hall (MemSys.boot 4096 4096) 0 ⟨SYSMEM_IO_WRITE, 0, 65⟩ _ ⟨rfl, rfl⟩ hd
  obtain ⟨-, p, -, hp⟩ := h.contained (.mram, 0) (by decide)
  have hnone : ramFrame 0 = none := by decide
  exact absurd (hnone.symm.trans hp) (by decide)

/-! ## What is written -/

inductive MemmapOutcome (c : Caller) (a : VmAreaStruct) (regs : ScRegs) : ScRegs → Caller → Prop
  | none (hop : toInt regs.a1 < 2 ∨ 5 < toInt regs.a1) : MemmapOutcome c a regs regs c
  | inc (hop : toInt regs.a1 = SYSMEM_INC_OP) : MemmapOutcome c a regs regs
      ((c.mapRam (pagingPgn (toInt a.vmEnd)) (grownPages a (pagingPageAlignsz (toInt regs.a3)))).withArea
        (grownArea a (pagingPageAlignsz (toInt regs.a3))))
  | swap {dev' : Dev → MemphyStruct} (hop : toInt regs.a1 = SYSMEM_SWP_OP)
      (hlt : regs.a2 % 16777216 < 2 ^ 23 ∧ regs.a3 % 16777216 < 2 ^ 23)
      (hcopy : FrameCopied c.dev .mram (regs.a2 % 16777216) .activeMswp (regs.a3 % 16777216) dev') :
      MemmapOutcome c a regs regs { c with dev := dev' }
  | read {value : BYTE} (hop : toInt regs.a1 = SYSMEM_IO_READ) (haddr : 0 ≤ toInt regs.a2)
      (hvalue : value = (c.dev .mram).storage (toInt regs.a2).toNat) :
      MemmapOutcome c a regs { regs with a3 := (value.signExtend 32).toNat } c
  | write (hop : toInt regs.a1 = SYSMEM_IO_WRITE) (haddr : 0 ≤ toInt regs.a2) :
      MemmapOutcome c a regs regs (c.store (toInt regs.a2).toNat (BitVec.ofNat 8 regs.a3))

theorem sysMemmap_outcome (hm : c.mm.Single a) (hd : DevOk c.dev) (h : sysMemmap c regs = .ok (ret, regs', c')) :
    MemmapOutcome c a regs regs' c' := by
  cases (sysMemmap_cases h).2 with
  | none hop => exact .none hop
  | inc hop hx =>
    rcases Int.lt_or_le 0 (toInt regs.a2) with hlt | hle
    · cases (incVmaLimit_of_pos hm hlt).symm.trans hx
    · rw [incVmaLimit_of_nonpos hm hle] at hx
      obtain ⟨-, rfl⟩ := (incVmaLimit_ok_iff hm).mp ⟨_, hx⟩
      exact .inc hop
  | swap hop hx =>
    obtain ⟨⟨stat, dev'⟩, hcopy, hret⟩ := Exec.bind_ok.mp hx
    cases hret
    obtain ⟨hm₂₃, hn₂₃⟩ := swapCpPage_first (hd.random .mram) (hd.random .activeMswp) hcopy
    rw [swapCpPage_mod] at hcopy
    obtain ⟨-, hdev⟩ := (swapCpPage_ok_iff _ _ hm₂₃ hn₂₃ (hd.random .mram) (hd.random .activeMswp)).mp hcopy
    cases hdev
    exact .swap hop ⟨hm₂₃, hn₂₃⟩ (copyFrame_copied _ _ _ _ _)
  | read hop hx =>
    obtain ⟨haddr, -, hread⟩ := memphyRead_ok (hd.random .mram) hx
    cases hread
    rw [Caller.setDev_self]
    exact .read hop haddr rfl
  | write hop hx =>
    obtain ⟨haddr, -, hwrite⟩ := memphyWrite_ok (hd.random .mram) hx
    cases hwrite
    exact .write hop haddr

theorem memmap_keeps (hm : c.mm.Single a) (hd : DevOk c.dev) (h : sysMemmap c regs = .ok (ret, regs', c')) :
    (∃ b, c'.mm.Single b) ∧ DevOk c'.dev := by
  cases sysMemmap_outcome hm hd h with
  | none => exact ⟨⟨a, hm⟩, hd⟩
  | inc => exact ⟨⟨_, Caller.withArea_single ((grownArea_start a _).2.trans hm.vmId)⟩, (c.mapRam_devKept ..).devOk hd⟩
  | swap hop hlt hcopy =>
    refine ⟨⟨a, hm⟩, fun d => ?_, fun d => ?_, fun d f hf => ?_⟩
    · exact (hcopy.size d).2.trans (hd.random d)
    · exact (hcopy.size d).1.trans_lt (hd.maxsz d)
    · exact (hd.free d f (hcopy.free d ▸ hf)).trans_eq (hcopy.size d).1.symm
  | read => exact ⟨⟨a, hm⟩, hd⟩
  | write => exact ⟨⟨a, hm⟩, (c.store_devKept ..).devOk hd⟩

/-- A memory call or a `memmap` of a process. -/
def anyCall (s : MemSys) : Nat × (MemCall ⊕ ScRegs) → Exec (Unit × MemSys)
  | (pid, .inl call) => do
    let (_, s) ← sysCall s (pid, call)
    return ((), s)
  | (pid, .inr regs) => do
    let (_, _, s) ← memmapCall s pid regs
    return ((), s)

/-- Every process has one area and the devices are sound, whatever calls the processes make. -/
theorem anyCall_run {ram swp : Nat} {h : List (Entry MemSys (Nat × (MemCall ⊕ ScRegs)) Unit)} (hram : ram < 2 ^ 31)
    (hswp : swp < 2 ^ 31) (hrun : Run anyCall (MemSys.boot ram swp) h s) :
    (∀ pid, ∃ a, (s.mm pid).Single a) ∧ DevOk s.dev := by
  apply hrun.invariant (I := fun _ s => (∀ pid, ∃ a, (s.mm pid).Single a) ∧ DevOk s.dev)
  · exact ⟨(boot_ok hram hswp).single, (boot_ok hram hswp).devOk⟩
  rintro h s ⟨pid, call | regs⟩ _ s' hrun ⟨hs, hd⟩ hx
  · obtain ⟨⟨r, s''⟩, hcall, hret⟩ := Exec.bind_ok.mp hx
    cases hret
    have hok : s.Ok _ _ := ⟨hs, hd, rfl, rfl⟩
    exact ⟨(sysCall_ok hok hcall).single, (sysCall_ok hok hcall).devOk⟩
  · obtain ⟨⟨ret, regs', s''⟩, hcall, hret⟩ := Exec.bind_ok.mp hx
    cases hret
    obtain ⟨⟨ret', regs'', c'⟩, hmap, hret⟩ := Exec.bind_ok.mp hcall
    cases hret
    obtain ⟨a, ha⟩ := hs pid
    obtain ⟨hb, hd'⟩ := memmap_keeps (c := s.caller pid) ha hd hmap
    refine ⟨fun i => ?_, hd'⟩
    by_cases hi : i = pid
    · rw [hi, MemSys.after_mm_self]
      exact hb
    · rw [MemSys.after_mm_of_ne _ hi]
      exact hs i

/-- A byte of the swap frame, or of the RAM frame, of `SYSMEM_SWP_OP` is touched. -/
theorem cell_touched (hop : toInt regs.a1 = SYSMEM_SWP_OP) (x : Nat) :
    (regs.a2 % 16777216 < 2 ^ 23 → x / PAGING_PAGESZ = regs.a2 % 16777216 → (.mram, (x : Int)) ∈ touches regs) ∧
    (regs.a3 % 16777216 < 2 ^ 23 → x / PAGING_PAGESZ = regs.a3 % 16777216 →
      (.activeMswp, (x : Int)) ∈ touches regs) := by
  have htouched := (touches_swap (p := (· ∈ touches regs)) hop).mp fun _ h => h
  have hcell : x % PAGING_PAGESZ < PAGING_PAGESZ := Nat.mod_lt _ (by decide)
  have hx : x / PAGING_PAGESZ * PAGING_PAGESZ + x % PAGING_PAGESZ = x := Nat.div_add_mod' ..
  constructor
  · intro hlt hdiv
    have hin := htouched.1 _ hcell
    have hlt' : regs.a2 % 16777216 < 8388608 := hlt
    rwa [cellAddr_mod _ _ hcell, if_pos hlt', ← hdiv, hx] at hin
  · intro hlt hdiv
    have hin := htouched.2 _ hcell
    have hlt' : regs.a3 % 16777216 < 8388608 := hlt
    rwa [cellAddr_mod _ _ hcell, if_pos hlt', ← hdiv, hx] at hin

/-- Nothing is written but the bytes touched. -/
theorem memmap_frame (hm : c.mm.Single a) (hd : DevOk c.dev) (h : sysMemmap c regs = .ok (ret, regs', c')) (k : Dev)
    (x : Nat) (hout : (k, (x : Int)) ∉ touches regs) : (c'.dev k).storage x = (c.dev k).storage x := by
  cases sysMemmap_outcome hm hd h with
  | none => rfl
  | inc hop => exact congrFun (c.mapRam_storage _ _ k) x
  | swap hop hlt hcopy =>
    refine hcopy.frame k x fun ⟨hdev, hdiv⟩ => ?_
    subst hdev
    exact hout ((cell_touched hop x).2 hlt.2 hdiv)
  | read => rfl
  | write hop haddr =>
    rw [touches_io (.inr hop), List.mem_singleton] at hout
    apply Caller.store_storage_of_ne
    rintro ⟨hk, hx⟩
    apply hout
    rw [hk, hx, Int.toNat_of_nonneg haddr]

/-- Nothing is read but the bytes touched: callers that agree in these bytes get the same registers and the same
address space, and the bytes are the same again. -/
theorem memmap_reads {e e' : Caller} {ret' : Int} {regs'' : ScRegs} (hm : c.mm.Single a) (hd : DevOk c.dev)
    (hde : DevOk e.dev) (hlike : c.Like e)
    (hagree : ∀ k x, (k, ((x : Nat) : Int)) ∈ touches regs → (e.dev k).storage x = (c.dev k).storage x)
    (h : sysMemmap c regs = .ok (ret, regs', c')) (h' : sysMemmap e regs = .ok (ret', regs'', e')) :
    regs'' = regs' ∧ e'.mm = c'.mm ∧
      ∀ k x, (k, ((x : Nat) : Int)) ∈ touches regs → (e'.dev k).storage x = (c'.dev k).storage x := by
  have hme : e.mm.Single a := by
    rw [hlike.mm]
    exact hm
  obtain ⟨hmap, hinc, hswp, hread, hwrite⟩ := op_codes
  have ho := sysMemmap_outcome hm hd h
  have ho' := sysMemmap_outcome hme hde h'
  cases ho with
  | none hop =>
    cases ho' with
    | none => exact ⟨rfl, hlike.mm, hagree⟩
    | _ => omega
  | inc hop =>
    cases ho' with
    | inc =>
      refine ⟨rfl, ?_, fun k x hx => ?_⟩
      · have hmm := (hlike.mapRam (pagingPgn (toInt a.vmEnd)) (grownPages a (pagingPageAlignsz (toInt regs.a3)))).mm
        rw [Caller.withArea, Caller.withArea, hmm]
      · rw [touches_inc hop] at hx
        cases hx
    | none => omega
    | _ => omega
  | swap hop hlt hcopy =>
    cases ho' with
    | swap _ _ hcopy' =>
      have hsrc (x : Nat) (hx : x / PAGING_PAGESZ = regs.a2 % 16777216) := (cell_touched hop x).1 hlt.1 hx
      exact ⟨rfl, hlike.mm, hcopy.agree hcopy' hsrc hagree⟩
    | _ => omega
  | read hop haddr hvalue =>
    cases ho' with
    | read _ _ hvalue' =>
      refine ⟨?_, hlike.mm, hagree⟩
      have hin : (Dev.mram, (((toInt regs.a2).toNat : Nat) : Int)) ∈ touches regs := by
        rw [touches_io (.inl hop), Int.toNat_of_nonneg haddr]
        exact List.mem_cons_self
      rw [hvalue, hvalue', hagree _ _ hin]
    | _ => omega
  | write hop haddr =>
    cases ho' with
    | write =>
      refine ⟨rfl, hlike.mm, fun k x hx => ?_⟩
      by_cases hin : k = .mram ∧ x = (toInt regs.a2).toNat
      · rw [hin.1, hin.2, Caller.store_storage_self, Caller.store_storage_self]
      · rw [Caller.store_storage_of_ne _ _ hin, Caller.store_storage_of_ne _ _ hin]
        exact hagree k x hx
    | _ => omega

end SimpleOs.Syscall
