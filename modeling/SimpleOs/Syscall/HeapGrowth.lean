import SimpleOs.Mm.AllocArith
import SimpleOs.Syscall.Memmap

/-!
# Growing the heap

* `growCall` : a growth of area 0 by `inc_vma_limit` or by `SYSMEM_INC_OP`; `GrowRoom` : RAM and page table have room;
* `Grown` : the growth law;
* `growCall_eq` : what a growth does; `grown_iff` : it is lawful if the break is not found inside the area;
* `GrowPhase` : area and break after so many growths; the first leaves the break on the end of the area, where the
  second finds it, and moves it away;
* `grown_iff_run` : in every run of growths, each is lawful but the second.
-/

namespace SimpleOs.Syscall
open SimpleOs.Mm CInt

inductive GrowCall
  | incVmaLimit (incSz : Int)
  | memmap (a3 : Nat)
  deriving DecidableEq

def GrowCall.size : GrowCall → Int
  | .incVmaLimit incSz => incSz
  | .memmap a3 => toInt a3

def growCall (caller : Caller) : GrowCall → Exec (Int × Caller)
  | .incVmaLimit incSz => incVmaLimit caller 0 incSz
  | .memmap a3 => do
    let (ret, _, caller) ← sysMemmap caller ⟨SYSMEM_INC_OP, 0, a3⟩
    return (ret, caller)

def growPages (sz : Int) : Nat := (roundUp sz / PAGING_PAGESZ).toNat

/-- The size is positive, RAM has the frames, and the area stays within the page table. -/
structure GrowRoom (free : List Nat) (a : VmAreaStruct) (sz : Int) : Prop where
  pos : 0 < sz
  frames : growPages sz ≤ free.length
  table : a.vmEnd + roundUp sz ≤ PAGING_MAX_PGN * PAGING_PAGESZ

instance (free : List Nat) (a : VmAreaStruct) (sz : Int) : Decidable (GrowRoom free a sz) :=
  decidable_of_iff (0 < sz ∧ growPages sz ≤ free.length ∧ a.vmEnd + roundUp sz ≤ PAGING_MAX_PGN * PAGING_PAGESZ)
    ⟨fun ⟨h₁, h₂, h₃⟩ => ⟨h₁, h₂, h₃⟩, fun h => ⟨h.pos, h.frames, h.table⟩⟩

/-- There is room for a growth of the process. -/
def RoomFor (c : Caller) (call : GrowCall) : Prop :=
  ∀ a ∈ c.mm.mmap, GrowRoom (c.dev .mram).freeFpList a call.size

instance (c : Caller) (call : GrowCall) : Decidable (RoomFor c call) :=
  inferInstanceAs (Decidable (∀ a ∈ c.mm.mmap, GrowRoom (c.dev .mram).freeFpList a call.size))

/-- The growth law: a growth of area `a` by `sz` bytes returns 0, moves end and break by whole pages, gives exactly
the pages between the old and the new end the first frames of the free list, and leaves the other entries. -/
structure Grown (c : Caller) (a : VmAreaStruct) (sz ret : Int) (c' : Caller) : Prop where
  status : ret = 0
  area : ∃ a', c'.mm.Single a' ∧ (a'.vmEnd : Int) = a.vmEnd + roundUp sz ∧ (a'.sbrk : Int) = a.sbrk + roundUp sz
  resident : ((List.range (growPages sz)).map fun i => ramFrame (c'.mm.pgd (a.vmEnd / PAGING_PAGESZ + i))).Perm
    (((c.dev .mram).freeFpList.take (growPages sz)).map some)
  taken : (c'.dev .mram).freeFpList = (c.dev .mram).freeFpList.drop (growPages sz)
  others : ∀ p, p < a.vmEnd / PAGING_PAGESZ ∨ a.vmEnd / PAGING_PAGESZ + growPages sz ≤ p → c'.mm.pgd p = c.mm.pgd p

structure EmptyArea (a : VmAreaStruct) : Prop where
  vmEnd : a.vmEnd = a.vmStart
  sbrk : a.sbrk = a.vmStart
  align : PAGING_PAGESZ ∣ a.vmStart

variable {c c' c₀ : Caller} {a a₀ : VmAreaStruct} {sz inc ret : Int} {call : GrowCall} {n : Nat}

/-! ## One growth -/

theorem vmMapRam_status {astart aend mapstart k : Int} {rg : Option VmRgStruct}
    (hx : vmMapRam c astart aend mapstart k = .ok (ret, rg, c')) (hk : k.toNat ≤ (c.dev .mram).freeFpList.length) :
    ret = 0 := by
  simp only [vmMapRam, allocPagesRange_eq, if_pos hk, Int.lt_irrefl, false_and, if_false,
    show ¬ (0 : Int) = -3000 by decide] at hx
  obtain ⟨x, -, hret⟩ := Exec.bind_ok.mp hx
  cases hret
  rfl

theorem incVmaLimit_status (h : c.mm.Single a) (hx : incVmaLimit c 0 sz = .ok (ret, c'))
    (hk : grownPages a (pagingPageAlignsz sz) ≤ (c.dev .mram).freeFpList.length) :
    ret = if growthOverlaps a (pagingPageAlignsz sz) then -1 else 0 := by
  generalize hinc : pagingPageAlignsz sz = inc at *
  have hb : (c.withArea { a with sbrk := brkEnd a inc }).mm.Single { a with sbrk := brkEnd a inc } :=
    Caller.withArea_single h.vmId
  simp only [incVmaLimit, hinc, getVmAreaNodeAtBrk_single h, Exec.ok_bind, hb.getVmaByNum, derefVma, hb.area,
    validateOverlapVmArea_lt_iff, hb.setArea, Option.getD_some] at hx
  by_cases ho : growthOverlaps a inc = true
  · simp only [ho, if_true, Exec.pure_eq_ok, Except.ok.injEq, Prod.mk.injEq] at hx ⊢
    exact hx.1.symm
  · simp only [ho, if_false, Bool.false_eq_true] at hx ⊢
    rw [grownPages, if_neg ho] at hk
    obtain ⟨⟨r, rg, c''⟩, hmap, hret⟩ := Exec.bind_ok.mp hx
    have hr : r = 0 := vmMapRam_status hmap hk
    subst hr
    cases hret
    rfl

/-- The status of a growth: only `inc_vma_limit` itself reports an overlap. -/
def growStatus (a : VmAreaStruct) : GrowCall → Int
  | .incVmaLimit incSz => if growthOverlaps a (roundUp incSz) then -1 else 0
  | .memmap _ => 0

theorem GrowRoom.bounds {free : List Nat} (h : GrowRoom free a sz) :
    0 < roundUp sz ∧ a.vmEnd + roundUp sz ≤ 2 ^ 22 ∧ (growPages sz : Int) * 256 = roundUp sz := by
  have hpos := h.pos
  have htable : a.vmEnd + roundUp sz ≤ 2 ^ 22 := h.table
  have hround := roundUp_bounds sz
  have hdiv : roundUp sz = (sz + 256 - 1) / 256 * 256 := rfl
  have hpages : growPages sz = (roundUp sz / 256).toNat := rfl
  omega

theorem GrowRoom.pages {free : List Nat} (h : GrowRoom free a sz) :
    pagingPageAlignsz sz = roundUp sz ∧ pagingPgn (toInt a.vmEnd) = a.vmEnd / PAGING_PAGESZ ∧
      ((roundUp sz).tdiv PAGING_PAGESZ).toNat = growPages sz := by
  have hpos := h.pos
  obtain ⟨h₁, h₂, -⟩ := h.bounds
  have hround := roundUp_bounds sz
  have hend : toInt a.vmEnd = a.vmEnd := toInt_of_bounds (by omega) (by omega)
  have hpgn := pagingPgn_eq (toInt a.vmEnd)
  refine ⟨pageAlign_eq (by omega) (by unfold PAGING_PAGESZ; omega), ?_, ?_⟩
  · unfold PAGING_PAGESZ
    omega
  · rw [growPages, Int.tdiv_eq_ediv_of_nonneg (by omega)]

/-- A growth that has room. -/
theorem growCall_eq (h : c.mm.Single a) (hroom : GrowRoom (c.dev .mram).freeFpList a call.size) :
    growCall c call = .ok (growStatus a call,
      (c.mapRam (a.vmEnd / PAGING_PAGESZ)
        (if growthOverlaps a (roundUp call.size) then 0 else growPages call.size)).withArea
        (grownArea a (roundUp call.size))) := by
  have hlimit : ∀ sz, GrowRoom (c.dev .mram).freeFpList a sz → incVmaLimit c 0 sz =
      .ok (if growthOverlaps a (roundUp sz) then -1 else 0,
        (c.mapRam (a.vmEnd / PAGING_PAGESZ) (if growthOverlaps a (roundUp sz) then 0 else growPages sz)).withArea
          (grownArea a (roundUp sz))) := by
    intro sz hroom
    obtain ⟨halign, hpgn, hdiv⟩ := hroom.pages
    obtain ⟨-, htable, hsize⟩ := hroom.bounds
    have hpages : grownPages a (roundUp sz) = if growthOverlaps a (roundUp sz) then 0 else growPages sz := by
      rw [grownPages, hdiv]
    have hle : grownPages a (roundUp sz) ≤ growPages sz := by
      rw [hpages]
      split <;> omega
    have hmax : PAGING_MAX_PGN = 16384 := rfl
    have hok : ∃ ret, incVmaLimit c 0 sz = .ok (ret, _) :=
      (incVmaLimit_ok_iff h).mpr ⟨by rw [halign, hpgn]; unfold Caller.MapFits PAGING_PAGESZ; omega, rfl⟩
    obtain ⟨ret, hx⟩ := hok
    have hret := incVmaLimit_status h hx (by rw [halign]; exact hle.trans hroom.frames)
    rw [halign] at hret
    rw [hx, hret, halign, hpgn, hpages]
  cases call with
  | incVmaLimit incSz => exact hlimit incSz hroom
  | memmap a3 =>
    simp only [growCall, sysMemmap_inc, hlimit (toInt a3) hroom, Exec.ok_bind]
    rfl

theorem mapPages_frames (pgn : Nat) (frames : List Nat) (mm : MmStruct) :
    ((List.range frames.length).map fun i => ramFrame ((mapPages pgn frames mm).pgd (pgn + i))) =
      frames.map fun f => some (f % 2 ^ 13) := by
  induction frames generalizing pgn mm with
  | nil => rfl
  | cons fpn frames ih =>
    rw [List.length_cons, List.range_succ_eq_map, List.map_cons, List.map_map, List.map_cons]
    refine List.cons_eq_cons.mpr ⟨?_, ?_⟩
    · rw [mapPages, mapPages_pgd_of_notMem (.inl (by omega)), Nat.add_zero, mapPage_pgd, Function.update_self,
        ramFrame_setFpn]
    · rw [← ih (pgn + 1) (mapPage mm pgn fpn)]
      refine List.map_congr_left fun i _ => ?_
      rw [Function.comp_apply, mapPages, Nat.succ_eq_add_one, show pgn + (i + 1) = pgn + 1 + i by omega]

/-- The pages of a growth hold the frames taken, when the numbers of these fit in an entry. -/
theorem mapPages_perm (frames : List Nat) (pgn : Nat) (mm : MmStruct) :
    ((List.range frames.length).map fun i => ramFrame ((mapPages pgn frames.reverse mm).pgd (pgn + i))).Perm
        (frames.map some) ↔ ∀ f ∈ frames, f < 2 ^ 13 := by
  have hframes := mapPages_frames pgn frames.reverse mm
  rw [List.length_reverse] at hframes
  rw [hframes]
  constructor
  · intro hperm f hf
    obtain ⟨g, -, hg⟩ := List.mem_map.mp (hperm.mem_iff.mpr (List.mem_map_of_mem hf))
    have := Option.some.inj hg
    omega
  · intro hsmall
    have hmod : frames.map (fun f => some (f % 2 ^ 13)) = frames.map some :=
      List.map_congr_left fun f hf => by rw [Nat.mod_eq_of_lt (hsmall f hf)]
    rw [← hmod]
    exact (List.reverse_perm frames).map _

theorem mapRam_eq (pgn : Nat) (hn : n ≤ (c.dev .mram).freeFpList.length) :
    ((c.mapRam pgn n).dev .mram).freeFpList = (c.dev .mram).freeFpList.drop n ∧
      (c.mapRam pgn n).mm.pgd = (mapPages pgn ((c.dev .mram).freeFpList.take n).reverse c.mm).pgd := by
  simp only [Caller.mapRam, if_pos hn, Caller.withFree, Caller.setDev, Function.update_self, and_self]

theorem grownArea_eq (a : VmAreaStruct) (inc : Int) (h₀ : 0 ≤ inc) (hend : a.vmEnd + inc < 2 ^ 31)
    (hbrk : a.sbrk + inc < 2 ^ 31) :
    ((grownArea a inc).sbrk : Int) = a.sbrk + inc ∧
      ((grownArea a inc).vmEnd : Int) = a.vmEnd + if growthOverlaps a inc then 0 else inc := by
  refine ⟨?_, grownArea_vmEnd h₀ (by omega) fun _ => hend⟩
  rw [grownArea_sbrk]
  exact toULong_add h₀ (by omega)

theorem grownArea_start (a : VmAreaStruct) (inc : Int) :
    (grownArea a inc).vmStart = a.vmStart ∧ (grownArea a inc).vmId = a.vmId := by
  unfold grownArea
  split <;> exact ⟨rfl, rfl⟩

/-- A growth is lawful if and only if the break is not found inside the area and the frames fit in their entries. -/
theorem grown_iff (h : c.mm.Single a) (hroom : GrowRoom (c.dev .mram).freeFpList a call.size)
    (hbrk : a.sbrk < 2 ^ 30) (hx : growCall c call = .ok (ret, c')) :
    Grown c a call.size ret c' ↔ growthOverlaps a (roundUp call.size) = false ∧
      ∀ f ∈ (c.dev .mram).freeFpList.take (growPages call.size), f < 2 ^ 13 := by
  obtain ⟨hpos, htable, -⟩ := hroom.bounds
  obtain ⟨hsbrk, hend⟩ := grownArea_eq a (roundUp call.size) (by omega) (by omega) (by omega)
  rw [growCall_eq h hroom, Except.ok.injEq, Prod.mk.injEq] at hx
  obtain ⟨rfl, rfl⟩ := hx
  have hsingle : ∀ c : Caller, (c.withArea (grownArea a (roundUp call.size))).mm.Single
      (grownArea a (roundUp call.size)) := fun _ => Caller.withArea_single ((grownArea_start a _).2.trans h.vmId)
  obtain ⟨hfree, hpgd⟩ := mapRam_eq (a.vmEnd / PAGING_PAGESZ) hroom.frames
  have hlen : ((c.dev .mram).freeFpList.take (growPages call.size)).length = growPages call.size := by
    rw [List.length_take, Nat.min_eq_left hroom.frames]
  have hperm := mapPages_perm ((c.dev .mram).freeFpList.take (growPages call.size)) (a.vmEnd / PAGING_PAGESZ) c.mm
  rw [hlen, ← hpgd] at hperm
  cases ho : growthOverlaps a (roundUp call.size) with
  | true =>
    refine iff_of_false (fun hg => ?_) fun hf => Bool.noConfusion hf.1
    obtain ⟨a', ha', hend', -⟩ := hg.area
    cases ha'.mmap.symm.trans (hsingle _).mmap
    rw [ho, if_pos rfl] at hend
    omega
  | false =>
    rw [ho, if_neg (by decide)] at hend
    simp only [true_and, Bool.false_eq_true, if_false]
    refine ⟨fun hg => hperm.mp hg.resident, fun hsmall =>
      ⟨?_, ⟨_, hsingle _, hend, hsbrk⟩, hperm.mpr hsmall, hfree, fun p hp => ?_⟩⟩
    · cases call with
      | incVmaLimit incSz => exact if_neg (by rw [show growthOverlaps a (roundUp incSz) = false from ho]; decide)
      | memmap => rfl
    · show (c.mapRam _ _).mm.pgd p = _
      rw [hpgd]
      exact mapPages_pgd_of_notMem (by rwa [List.length_reverse, hlen])

/-! ## Runs -/

structure GrowPhase (n : Nat) (a : VmAreaStruct) : Prop where
  start : a.vmStart ≤ a.vmEnd
  align : PAGING_PAGESZ ∣ a.vmEnd
  brk : a.vmEnd ≤ a.sbrk
  ahead : a.sbrk ≤ a.vmEnd + 2 ^ 22
  fresh : n = 0 → a.vmStart = a.vmEnd ∧ a.sbrk = a.vmEnd
  once : n = 1 → a.vmStart < a.vmEnd ∧ a.sbrk = a.vmEnd
  later : 2 ≤ n → a.vmEnd < a.sbrk

theorem EmptyArea.phase (h : EmptyArea a) : GrowPhase 0 a := by
  obtain ⟨hend, hbrk, halign⟩ := h
  exact ⟨by omega, by rwa [hend], by omega, by omega, fun _ => ⟨by omega, by omega⟩, by omega, by omega⟩

/-- Only the second growth finds the break inside the area. -/
theorem GrowPhase.overlaps_iff (h : GrowPhase n a) (h₀ : 0 < inc) (hend : a.vmEnd + inc ≤ 2 ^ 22) :
    growthOverlaps a inc = true ↔ n = 1 := by
  have hbrk := h.brk
  have hahead := h.ahead
  have hnew : (brkEnd a inc : Int) = a.sbrk + inc := toULong_add (by omega) (by omega)
  have hlo : toULong (toInt a.sbrk) = a.sbrk := by unfold toInt toULong; omega
  have hhi : toULong (toInt (brkEnd a inc)) = brkEnd a inc := by rw [hnew]; unfold toInt toULong; omega
  simp only [growthOverlaps, overlapsVma, hlo, hhi, Bool.and_eq_true, Bool.or_eq_true, decide_eq_true_eq]
  have hstart := h.start
  have hfresh := h.fresh
  have honce := h.once
  have hlater := h.later
  omega

theorem GrowPhase.step (h : GrowPhase n a) (h₀ : 0 < inc) (hend : a.vmEnd + inc ≤ 2 ^ 22) (hdvd : (256 : Int) ∣ inc) :
    GrowPhase (n + 1) (grownArea a inc) := by
  have hbrk := h.brk
  have hahead := h.ahead
  obtain ⟨hsbrk, hvm⟩ := grownArea_eq a inc (by omega) (by omega) (by omega)
  have hstart' := (grownArea_start a inc).1
  have halign : 256 ∣ a.vmEnd := h.align
  have hstart := h.start
  have hover := h.overlaps_iff h₀ hend
  generalize grownArea a inc = a' at *
  simp only [hover] at hvm
  have halign' : 256 ∣ a'.vmEnd := by split at hvm <;> omega
  have hfresh := h.fresh
  have honce := h.once
  have hlater := h.later
  refine ⟨?_, halign', ?_, ?_, ?_, ?_, ?_⟩ <;> split at hvm <;> omega

theorem roundUp_dvd (sz : Int) : (256 : Int) ∣ roundUp sz := Int.dvd_mul_left _ _

theorem GrowPhase.grow (h : GrowPhase n a) (ha : c.mm.Single a) (hroom : RoomFor c call)
    (hx : growCall c call = .ok (ret, c')) : ∃ a', c'.mm.Single a' ∧ GrowPhase (n + 1) a' := by
  have hroom := hroom a (ha.mmap ▸ List.mem_singleton_self a)
  obtain ⟨hpos, htable, -⟩ := hroom.bounds
  rw [growCall_eq ha hroom, Except.ok.injEq, Prod.mk.injEq] at hx
  obtain ⟨-, rfl⟩ := hx
  exact ⟨_, Caller.withArea_single ((grownArea_start a _).2.trans ha.vmId), h.step hpos htable (roundUp_dvd _)⟩

variable {h : List (Entry Caller GrowCall Int)}

theorem growPhase_run (ha₀ : c₀.mm.Single a₀) (hempty : EmptyArea a₀) (hrun : Run growCall c₀ h c)
    (hroom : ∀ e ∈ h, RoomFor e.before e.act) : ∃ a, c.mm.Single a ∧ GrowPhase h.length a :=
  hrun.guarded (I := fun h c => ∃ a, c.mm.Single a ∧ GrowPhase h.length a) (C := RoomFor) ⟨a₀, ha₀, hempty.phase⟩
    (fun _ _ _ _ _ ⟨_, ha, hP⟩ hroom hx => hP.grow ha hroom hx) hroom

/-- A growth is lawful if and only if it is not the second of the run, and the frames it takes have numbers that fit
in a page table entry. -/
theorem grown_iff_run (ha₀ : c₀.mm.Single a₀) (hempty : EmptyArea a₀) (hrun : Run growCall c₀ h c)
    (hroom : ∀ e ∈ h, RoomFor e.before e.act) (hcall : RoomFor c call) :
    ∃ a ret c', c.mm.Single a ∧ growCall c call = .ok (ret, c') ∧ (Grown c a call.size ret c' ↔
      h.length ≠ 1 ∧ ∀ f ∈ (c.dev .mram).freeFpList.take (growPages call.size), f < 2 ^ 13) := by
  obtain ⟨a, ha, hP⟩ := growPhase_run ha₀ hempty hrun hroom
  have hroom := hcall a (ha.mmap ▸ List.mem_singleton_self a)
  obtain ⟨hpos, htable, -⟩ := hroom.bounds
  have hahead := hP.ahead
  have hx := growCall_eq ha hroom
  refine ⟨a, _, _, ha, hx, ?_⟩
  rw [grown_iff ha hroom (by omega) hx, ← Bool.not_eq_true, hP.overlaps_iff hpos htable]

/-- A third growth of a new process, the others a system call and a call. -/
theorem grown_iff_third : ∃ h c, Run growCall ((MemSys.boot 4096 4096).caller 0) h c ∧
    h.map Entry.act = [.incVmaLimit 100, .memmap 300] ∧
    ∃ a ret c', c.mm.Single a ∧ growCall c (.incVmaLimit 200) = .ok (ret, c') ∧ (Grown c a 200 ret c' ↔
      h.length ≠ 1 ∧ ∀ f ∈ (c.dev .mram).freeFpList.take (growPages 200), f < 2 ^ 13) := by
  obtain ⟨h, c, hrun, hact, hp⟩ := exists_run_of_replay growCall ((MemSys.boot 4096 4096).caller 0)
    [.incVmaLimit 100, .memmap 300]
    (fun h c => decide ((∀ e ∈ h, RoomFor e.before e.act) ∧ RoomFor c (.incVmaLimit 200))) (by decide +kernel)
  obtain ⟨hroom, hcall⟩ := of_decide_eq_true hp
  exact ⟨h, c, hrun, hact, grown_iff_run ⟨rfl, rfl⟩ ⟨rfl, rfl, Nat.dvd_zero _⟩ hrun hroom hcall⟩

/-- The second growth returns -1 with the break moved and the end of the area where it was. -/
theorem second_growth_fails : (∃ h c, Run growCall ((MemSys.boot 4096 4096).caller 0) h c ∧
      h.map Entry.act = [.incVmaLimit 100, .incVmaLimit 100] ∧ h.map Entry.res = [-1, 0] ∧
      c.mm.mmap.map (fun a => (a.vmEnd, a.sbrk)) = [(256, 512)]) ∧
    ¬ ∀ c₀ a₀, c₀.mm.Single a₀ → EmptyArea a₀ → ∀ h c, Run growCall c₀ h c → (∀ e ∈ h, RoomFor e.before e.act) →
      ∀ call, RoomFor c call → ∃ a ret c', c.mm.Single a ∧ growCall c call = .ok (ret, c') ∧
        Grown c a call.size ret c' := by
  obtain ⟨h, c, hrun, hact, hp⟩ := exists_run_of_replay growCall ((MemSys.boot 4096 4096).caller 0)
    [.incVmaLimit 100, .incVmaLimit 100]
    (fun h c => decide (h.map Entry.res = [-1, 0] ∧ c.mm.mmap.map (fun a => (a.vmEnd, a.sbrk)) = [(256, 512)] ∧
      ∀ e ∈ h, RoomFor e.before e.act)) (by decide +kernel)
  obtain ⟨hres, harea, hroom⟩ := of_decide_eq_true hp
  refine ⟨⟨h, c, hrun, hact, hres, harea⟩, fun hall => ?_⟩
  cases hrun with
  | start => cases hact
  | @next h s _ call ret hrun hx =>
    rw [List.forall_mem_cons] at hroom
    obtain ⟨a, ret', c', -, hx', hg⟩ := hall _ _ ⟨rfl, rfl⟩ ⟨rfl, rfl, Nat.dvd_zero _⟩ h s hrun hroom.2 call hroom.1
    cases hx.symm.trans hx'
    have hret : ret = -1 := (List.cons.inj hres).1
    rw [hg.status] at hret
    cases hret

end SimpleOs.Syscall
