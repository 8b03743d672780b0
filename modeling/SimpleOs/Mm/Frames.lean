import SimpleOs.Mm.Paging

/-!
# What the paging functions do

* `copyFrame`, `swapCpPage_ok_iff` : one frame copied between two devices;
* `mapPage`, `mapPages`, `vmapPageRangeLoop_ok_iff` : pages given frames;
* `Caller.mapRam`, `vmMapRam_ok_iff` : frames taken from RAM and mapped, or lost when too few are left.
-/

namespace SimpleOs.Mm
open CInt

/-! ## Copying a frame -/

/-- `dst` after the copy of the last `left` cells of frame `a` of `src` over those of its frame `b`. -/
def copyCells (src : Nat → BYTE) (a : Nat) (dst : Nat → BYTE) (b left : Nat) : Nat → BYTE := fun x =>
  if x / PAGING_PAGESZ = b ∧ PAGING_PAGESZ ≤ x % PAGING_PAGESZ + left then
    src (a * PAGING_PAGESZ + x % PAGING_PAGESZ)
  else dst x

def copyFrame (src : Nat → BYTE) (a : Nat) (dst : Nat → BYTE) (b : Nat) : Nat → BYTE := fun x =>
  if x / PAGING_PAGESZ = b then src (a * PAGING_PAGESZ + x % PAGING_PAGESZ) else dst x

theorem copyFrame_of_ne {src dst : Nat → BYTE} {a b x : Nat} (h : x / PAGING_PAGESZ ≠ b) :
    copyFrame src a dst b x = dst x := if_neg h

theorem copyFrame_of_eq {src dst : Nat → BYTE} {a b x : Nat} (h : x / PAGING_PAGESZ = b) :
    copyFrame src a dst b x = src (a * PAGING_PAGESZ + x % PAGING_PAGESZ) := if_pos h

theorem copyFrame_congr {src src' dst dst' : Nat → BYTE} {a b x : Nat}
    (hsrc : x / PAGING_PAGESZ = b →
      src' (a * PAGING_PAGESZ + x % PAGING_PAGESZ) = src (a * PAGING_PAGESZ + x % PAGING_PAGESZ))
    (hdst : x / PAGING_PAGESZ ≠ b → dst' x = dst x) : copyFrame src' a dst' b x = copyFrame src a dst b x := by
  by_cases hx : x / PAGING_PAGESZ = b
  · rw [copyFrame_of_eq hx, copyFrame_of_eq hx, hsrc hx]
  · rw [copyFrame_of_ne hx, copyFrame_of_ne hx, hdst hx]

theorem cell_div_pagesz (a x : Nat) : (a * PAGING_PAGESZ + x % PAGING_PAGESZ) / PAGING_PAGESZ = a := by
  have hx : x % PAGING_PAGESZ < PAGING_PAGESZ := Nat.mod_lt _ (by decide)
  unfold PAGING_PAGESZ at *
  omega

theorem copyCells_zero (src : Nat → BYTE) (a : Nat) (dst : Nat → BYTE) (b : Nat) :
    copyCells src a dst b 0 = dst := by
  funext x
  refine if_neg fun h => ?_
  have hx : x % PAGING_PAGESZ < PAGING_PAGESZ := Nat.mod_lt _ (by decide)
  omega

theorem copyCells_full (src : Nat → BYTE) (a : Nat) (dst : Nat → BYTE) (b : Nat) :
    copyCells src a dst b PAGING_PAGESZ = copyFrame src a dst b := by
  funext x
  simp only [copyCells, copyFrame, Nat.le_add_left, and_true]

theorem copyCells_succ (src : Nat → BYTE) (a : Nat) (dst : Nat → BYTE) (b : Nat) {left : Nat}
    (hl : left < PAGING_PAGESZ) :
    copyCells src a (Function.update dst (b * PAGING_PAGESZ + (PAGING_PAGESZ - (left + 1)))
        (src (a * PAGING_PAGESZ + (PAGING_PAGESZ - (left + 1))))) b left =
      copyCells src a dst b (left + 1) := by
  funext x
  have hdiv : x = x / PAGING_PAGESZ * PAGING_PAGESZ + x % PAGING_PAGESZ := (Nat.div_add_mod' ..).symm
  have hmod : x % PAGING_PAGESZ < PAGING_PAGESZ := Nat.mod_lt _ (by decide)
  unfold copyCells
  by_cases hb : x / PAGING_PAGESZ = b
  · subst hb
    by_cases hc : x % PAGING_PAGESZ + (left + 1) = PAGING_PAGESZ
    · have hx : x / PAGING_PAGESZ * PAGING_PAGESZ + (PAGING_PAGESZ - (left + 1)) = x := by omega
      rw [if_neg (by omega), if_pos ⟨rfl, by omega⟩, hx, Function.update_self,
        show PAGING_PAGESZ - (left + 1) = x % PAGING_PAGESZ by omega]
    · have hx : x ≠ x / PAGING_PAGESZ * PAGING_PAGESZ + (PAGING_PAGESZ - (left + 1)) := by omega
      have hiff : PAGING_PAGESZ ≤ x % PAGING_PAGESZ + left ↔ PAGING_PAGESZ ≤ x % PAGING_PAGESZ + (left + 1) := by
        omega
      simp only [Function.update_of_ne hx, hiff]
  · have hx : x ≠ b * PAGING_PAGESZ + (PAGING_PAGESZ - (left + 1)) := by
      rintro rfl
      refine hb ?_
      rw [Nat.mul_comm, Nat.mul_add_div (by decide), Nat.div_eq_of_lt (by omega), Nat.add_zero]
    rw [if_neg fun h => hb h.1, if_neg fun h => hb h.1, Function.update_of_ne hx]

theorem cellAddr_eq {fpn cell : Nat} (hf : fpn < 2 ^ 23) (hc : cell < PAGING_PAGESZ) :
    toInt (toInt (fpn * PAGING_PAGESZ) + cell) = ((fpn * PAGING_PAGESZ + cell : Nat) : Int) := by
  unfold PAGING_PAGESZ at *
  rw [toInt_of_bounds (x := _ * _) (by omega) (by omega), toInt_of_bounds (by omega) (by omega)]
  omega

variable {ι : Type} [DecidableEq ι] {dev : ι → MemphyStruct} {src dst : ι} {a b : Nat}

/-- One cell written: the devices are as before but for the storage, and that only at the cell. -/
theorem writtenCell (x : Nat) (v : BYTE) (d : ι) :
    Function.update dev dst { dev dst with storage := Function.update (dev dst).storage x v } d =
      { dev d with storage := if d = dst then Function.update (dev dst).storage x v else (dev d).storage } := by
  by_cases hd : d = dst
  · rw [hd, Function.update_self, if_pos rfl]
  · rw [Function.update_of_ne hd, if_neg hd]

/-- The cells still to be copied are not changed by a copied one, be it on the same device. -/
theorem copyCells_written {left : Nat} (hl : left < PAGING_PAGESZ) (v : BYTE) (t : Nat → BYTE) :
    copyCells (if src = dst then Function.update (dev dst).storage (b * PAGING_PAGESZ + (PAGING_PAGESZ - (left + 1))) v
      else (dev src).storage) a t b left = copyCells (dev src).storage a t b left := by
  funext x
  unfold copyCells
  by_cases hx : x / PAGING_PAGESZ = b ∧ PAGING_PAGESZ ≤ x % PAGING_PAGESZ + left
  · rw [if_pos hx, if_pos hx]
    by_cases hd : src = dst
    · have hmod : x % PAGING_PAGESZ < PAGING_PAGESZ := Nat.mod_lt _ (by decide)
      have hne : a * PAGING_PAGESZ + x % PAGING_PAGESZ ≠ b * PAGING_PAGESZ + (PAGING_PAGESZ - (left + 1)) := by
        unfold PAGING_PAGESZ at *
        omega
      rw [if_pos hd, Function.update_of_ne hne, hd]
    · rw [if_neg hd]
  · rw [if_neg hx, if_neg hx]

theorem swapCpPageLoop_ok (ha : a < 2 ^ 23) (hb : b < 2 ^ 23)
    (hsrc : (dev src).rdmflg = true) (hdst : (dev dst).rdmflg = true)
    (ha' : (a + 1) * PAGING_PAGESZ ≤ (dev src).maxsz) (hb' : (b + 1) * PAGING_PAGESZ ≤ (dev dst).maxsz)
    {left : Nat} (hl : left ≤ PAGING_PAGESZ) :
    swapCpPageLoop src a dst b left dev = .ok (Function.update dev dst
      { dev dst with storage := copyCells (dev src).storage a (dev dst).storage b left }) := by
  induction left generalizing dev with
  | zero => rw [swapCpPageLoop, copyCells_zero, Function.update_eq_self]
  | succ left ih =>
    have hcell : PAGING_PAGESZ - (left + 1) < PAGING_PAGESZ := by unfold PAGING_PAGESZ; omega
    have hasz : a * PAGING_PAGESZ + (PAGING_PAGESZ - (left + 1)) < (dev src).maxsz := by
      rw [Nat.succ_mul] at ha'; omega
    have hbsz : b * PAGING_PAGESZ + (PAGING_PAGESZ - (left + 1)) < (dev dst).maxsz := by
      rw [Nat.succ_mul] at hb'; omega
    have hread : memphyRead (dev src) _ = _ := memphyRead_random hsrc (by omega) (Int.ofNat_lt.mpr hasz)
    have hwrite : ∀ v, memphyWrite (dev dst) _ v = _ :=
      memphyWrite_random hdst (by omega) (Int.ofNat_lt.mpr hbsz)
    simp only [swapCpPageLoop, cellAddr_eq ha hcell, cellAddr_eq hb hcell, hread, hwrite, Exec.ok_bind,
      Function.update_eq_self, Int.toNat_natCast]
    generalize hdev₁ : Function.update dev dst _ = dev₁
    have hs := congrFun hdev₁ src
    rw [writtenCell] at hs
    have hd := congrFun hdev₁ dst
    rw [Function.update_self] at hd
    rw [ih (by rw [← hs]; exact hsrc) (hd ▸ hdst) (by rw [← hs]; exact ha') (hd ▸ hb') (by omega), ← hs, ← hd, ← hdev₁,
      Function.update_idem]
    simp only
    rw [copyCells_written (by omega), copyCells_succ _ _ _ _ (by omega)]

theorem swapCpPageLoop_range (ha : a < 2 ^ 23) (hb : b < 2 ^ 23)
    (hsrc : (dev src).rdmflg = true) (hdst : (dev dst).rdmflg = true)
    {left : Nat} (hl : left < PAGING_PAGESZ) {dev' : ι → MemphyStruct}
    (h : swapCpPageLoop src a dst b (left + 1) dev = .ok dev') :
    (a + 1) * PAGING_PAGESZ ≤ (dev src).maxsz ∧ (b + 1) * PAGING_PAGESZ ≤ (dev dst).maxsz := by
  induction left generalizing dev with
  | zero =>
    have hcell : PAGING_PAGESZ - (0 + 1) < PAGING_PAGESZ := by decide
    simp only [swapCpPageLoop, cellAddr_eq ha hcell, cellAddr_eq hb hcell] at h
    obtain ⟨x, hx, h⟩ := Exec.bind_ok.mp h
    obtain ⟨-, hasz, rfl⟩ := memphyRead_ok hsrc hx
    simp only [Function.update_eq_self] at h
    obtain ⟨y, hy, -⟩ := Exec.bind_ok.mp h
    obtain ⟨-, hbsz, -⟩ := memphyWrite_ok hdst hy
    rw [Nat.succ_mul, Nat.succ_mul]
    omega
  | succ left ih =>
    rw [swapCpPageLoop] at h
    obtain ⟨x, hx, h⟩ := Exec.bind_ok.mp h
    obtain ⟨-, -, rfl⟩ := memphyRead_ok hsrc hx
    simp only [Function.update_eq_self] at h
    obtain ⟨y, hy, h⟩ := Exec.bind_ok.mp h
    obtain ⟨-, -, rfl⟩ := memphyWrite_ok hdst hy
    have hr := ih (by rw [writtenCell]; exact hsrc) (by rw [writtenCell]; exact hdst) (by omega) h
    rwa [writtenCell, writtenCell] at hr

/-- One frame is copied, or an address lies outside a device. -/
theorem swapCpPage_ok_iff (src dst : ι) (ha : a < 2 ^ 23) (hb : b < 2 ^ 23)
    (hsrc : (dev src).rdmflg = true) (hdst : (dev dst).rdmflg = true) {x : Int × (ι → MemphyStruct)} :
    swapCpPage dev src a dst b = .ok x ↔
      ((a + 1) * PAGING_PAGESZ ≤ (dev src).maxsz ∧ (b + 1) * PAGING_PAGESZ ≤ (dev dst).maxsz) ∧
      x = (0, Function.update dev dst
        { dev dst with storage := copyFrame (dev src).storage a (dev dst).storage b }) := by
  unfold swapCpPage
  rw [Exec.bind_ok]
  constructor
  · rintro ⟨dev', h, hx⟩
    have hr := swapCpPageLoop_range ha hb hsrc hdst (by decide : PAGING_PAGESZ - 1 < PAGING_PAGESZ) h
    rw [swapCpPageLoop_ok ha hb hsrc hdst hr.1 hr.2 le_rfl, copyCells_full] at h
    cases h
    exact ⟨hr, (Except.ok.inj hx).symm⟩
  · rintro ⟨hr, rfl⟩
    refine ⟨_, swapCpPageLoop_ok ha hb hsrc hdst hr.1 hr.2 le_rfl, ?_⟩
    rw [copyCells_full]
    rfl

/-! ## Mapping pages -/

def mapPage (mm : MmStruct) (pgn fpn : Nat) : MmStruct :=
  { mm with
    pgd := Function.update mm.pgd pgn (pteSetFpn (mm.pgd pgn) fpn)
    fifoPgn := enlistPgnNode mm.fifoPgn pgn }

theorem mapPage_pgd (mm : MmStruct) (pgn fpn : Nat) :
    (mapPage mm pgn fpn).pgd = Function.update mm.pgd pgn (pteSetFpn (mm.pgd pgn) fpn) := rfl

def mapPages : Nat → List Nat → MmStruct → MmStruct
  | _, [], mm => mm
  | pgn, fpn :: frames, mm => mapPages (pgn + 1) frames (mapPage mm pgn fpn)

@[simp] theorem mapPages_mmap (pgn : Nat) (frames : List Nat) (mm : MmStruct) :
    (mapPages pgn frames mm).mmap = mm.mmap := by
  induction frames generalizing pgn mm with
  | nil => rfl
  | cons fpn frames ih => rw [mapPages, ih]; rfl

@[simp] theorem mapPages_symrgtbl (pgn : Nat) (frames : List Nat) (mm : MmStruct) :
    (mapPages pgn frames mm).symrgtbl = mm.symrgtbl := by
  induction frames generalizing pgn mm with
  | nil => rfl
  | cons fpn frames ih => rw [mapPages, ih]; rfl

theorem mapPages_with_mmap (pgn : Nat) (frames : List Nat) (mm : MmStruct) (l : List VmAreaStruct) :
    mapPages pgn frames { mm with mmap := l } = { mapPages pgn frames mm with mmap := l } := by
  induction frames generalizing pgn mm with
  | nil => rfl
  | cons fpn frames ih => exact ih (pgn + 1) (mapPage mm pgn fpn)

theorem mapPages_pgd_of_notMem {pgn : Nat} {frames : List Nat} {mm : MmStruct} {p : Nat}
    (h : p < pgn ∨ pgn + frames.length ≤ p) : (mapPages pgn frames mm).pgd p = mm.pgd p := by
  induction frames generalizing pgn mm with
  | nil => rfl
  | cons fpn frames ih =>
    rw [List.length_cons] at h
    rw [mapPages, ih (by omega)]
    exact Function.update_of_ne (by omega) ..

theorem mapPages_pgd_of_mem {pgn i : Nat} {frames : List Nat} {mm : MmStruct} (hi : i < frames.length) :
    (mapPages pgn frames mm).pgd (pgn + i) = pteSetFpn (mm.pgd (pgn + i)) frames[i] := by
  induction frames generalizing pgn i mm with
  | nil => cases hi
  | cons fpn frames ih =>
    rw [mapPages]
    cases i with
    | zero =>
      rw [mapPages_pgd_of_notMem (.inl (by omega)), mapPage_pgd, Nat.add_zero, Function.update_self]
      rfl
    | succ i =>
      rw [List.length_cons] at hi
      rw [show pgn + (i + 1) = pgn + 1 + i by omega, ih (by omega), mapPage_pgd, Function.update_of_ne (by omega)]
      rfl

theorem mapPages_fifoPgn (pgn : Nat) (frames : List Nat) (mm : MmStruct) :
    (mapPages pgn frames mm).fifoPgn = (List.range' pgn frames.length).reverse ++ mm.fifoPgn := by
  induction frames generalizing pgn mm with
  | nil => rfl
  | cons fpn frames ih =>
    rw [mapPages, ih, List.length_cons, List.range'_succ, List.reverse_cons, List.append_assoc]
    rfl

theorem vmapPageRangeLoop_ok_iff {startPgn pgit : Nat} {pgnum : Int} {frames : List Nat} {mm : MmStruct}
    {x : Nat × MmStruct} (hn : pgnum = pgit + frames.length) :
    vmapPageRangeLoop startPgn pgnum pgit frames mm = .ok x ↔
      (frames = [] ∨ startPgn + pgit + frames.length ≤ PAGING_MAX_PGN) ∧
      x = (pgit + frames.length, mapPages (startPgn + pgit) frames mm) := by
  induction frames generalizing pgit mm with
  | nil =>
    rw [vmapPageRangeLoop, Except.ok.injEq]
    exact ⟨fun h => ⟨.inl rfl, h.symm⟩, fun h => h.2.symm⟩
  | cons fpn frames ih =>
    rw [List.length_cons] at hn
    simp only [vmapPageRangeLoop, if_pos (show (pgit : Int) < pgnum by omega), MmStruct.getPte,
      MmStruct.setPte, List.length_cons]
    by_cases hp : startPgn + pgit < PAGING_MAX_PGN
    · simp only [if_pos hp, Exec.ok_bind]
      rw [ih (by omega)]
      refine and_congr ?_ ?_
      · rw [show startPgn + (pgit + 1) + frames.length = startPgn + pgit + (frames.length + 1) by omega]
        refine ⟨fun h => .inr ?_, fun h => .inr (h.resolve_left (by simp))⟩
        rcases h with rfl | h
        · rw [List.length_nil]; omega
        · exact h
      · rw [show pgit + 1 + frames.length = pgit + (frames.length + 1) by omega]
        rfl
    · simp only [if_neg hp, Exec.error_bind, reduceCtorEq, false_iff]
      rintro ⟨h | h, -⟩
      · cases h
      · omega

theorem vmapPageRange_ok_iff {c c' : Caller} {addr k : Int} {frames : List Nat} (hlen : frames.length = k.toNat) :
    (∃ st rg, vmapPageRange c addr k frames = .ok (st, rg, c')) ↔
      (k.toNat = 0 ∨ pagingPgn addr + k.toNat ≤ PAGING_MAX_PGN) ∧
      c' = { c with mm := mapPages (pagingPgn addr) frames c.mm } := by
  have hloop : ∀ x, vmapPageRangeLoop (pagingPgn addr) k 0 frames c.mm = .ok x ↔
      (k.toNat = 0 ∨ pagingPgn addr + k.toNat ≤ PAGING_MAX_PGN) ∧
      x = (k.toNat, mapPages (pagingPgn addr) frames c.mm) := by
    intro x
    rcases Nat.eq_zero_or_pos k.toNat with hk | hk
    · rw [hk, List.length_eq_zero_iff] at hlen
      subst hlen
      rw [vmapPageRangeLoop, hk, Except.ok.injEq]
      exact ⟨fun h => ⟨.inl rfl, h.symm⟩, fun h => h.2.symm⟩
    · rw [vmapPageRangeLoop_ok_iff (by omega), hlen, Nat.add_zero, Nat.zero_add, ← List.length_eq_zero_iff, hlen]
  unfold vmapPageRange
  simp only [Exec.bind_ok, hloop]
  constructor
  · rintro ⟨st, rg, x, ⟨hb, rfl⟩, h⟩
    cases h
    exact ⟨hb, rfl⟩
  · rintro ⟨hb, rfl⟩
    exact ⟨_, _, _, ⟨hb, rfl⟩, rfl⟩

/-! ## Taking frames -/

def Caller.withFree (c : Caller) (l : List Nat) : Caller :=
  c.setDev .mram { c.dev .mram with freeFpList := l }

@[simp] theorem Caller.withFree_mm (c : Caller) (l : List Nat) : (c.withFree l).mm = c.mm := rfl

theorem Caller.withFree_mram (c : Caller) (l : List Nat) :
    (c.withFree l).dev .mram = { c.dev .mram with freeFpList := l } := c.setDev_dev_self ..

theorem Caller.withFree_swp (c : Caller) (l : List Nat) : (c.withFree l).dev .activeMswp = c.dev .activeMswp :=
  c.setDev_mram_swp ..

theorem Caller.withFree_self (c : Caller) : c.withFree (c.dev .mram).freeFpList = c := c.setDev_self .mram

theorem Caller.withFree_withFree (c : Caller) (l l' : List Nat) :
    (c.withFree l).withFree l' = c.withFree l' := by
  simp only [Caller.withFree, Caller.setDev, Function.update_self, Function.update_idem]

theorem allocPagesRange_eq (c : Caller) (left : Nat) (frmLst : List Nat) :
    allocPagesRange c left frmLst =
      (if left ≤ (c.dev .mram).freeFpList.length then 0 else -1,
        ((c.dev .mram).freeFpList.take left).reverse ++ frmLst,
        c.withFree ((c.dev .mram).freeFpList.drop left)) := by
  induction left generalizing c frmLst with
  | zero => simp [allocPagesRange, Caller.withFree_self]
  | succ left ih =>
    rw [allocPagesRange, memphyGetFreefp]
    cases hl : (c.dev .mram).freeFpList with
    | nil =>
      have hc := c.withFree_self
      rw [hl] at hc
      simp [hc]
    | cons fpn rest =>
      have hc : c.setDev .mram { c.dev .mram with freeFpList := rest } = c.withFree rest := rfl
      have hrest : ((c.withFree rest).dev .mram).freeFpList = rest := by simp [Caller.withFree]
      simp only [hc, ih, hrest, Caller.withFree_withFree]
      simp

/-- The caller after a request for `n` pages from `startPgn` on: they are mapped, or, with fewer than
`n` frames left, these frames are gone from the free list and nothing is mapped. -/
def Caller.mapRam (c : Caller) (startPgn n : Nat) : Caller :=
  let free := (c.dev .mram).freeFpList
  if n ≤ free.length then
    { c.withFree (free.drop n) with mm := mapPages startPgn (free.take n).reverse c.mm }
  else c.withFree []

def Caller.MapFits (c : Caller) (startPgn n : Nat) : Prop :=
  n ≤ (c.dev .mram).freeFpList.length → n = 0 ∨ startPgn + n ≤ PAGING_MAX_PGN

@[simp] theorem Caller.mapRam_mmap (c : Caller) (startPgn n : Nat) :
    (c.mapRam startPgn n).mm.mmap = c.mm.mmap := by
  unfold Caller.mapRam
  dsimp only
  split
  · exact mapPages_mmap ..
  · rfl

@[simp] theorem Caller.mapRam_symrgtbl (c : Caller) (startPgn n : Nat) :
    (c.mapRam startPgn n).mm.symrgtbl = c.mm.symrgtbl := by
  unfold Caller.mapRam
  dsimp only
  split
  · exact mapPages_symrgtbl ..
  · rfl

@[simp] theorem Caller.mapRam_zero (c : Caller) (startPgn : Nat) : c.mapRam startPgn 0 = c := by
  simp only [Caller.mapRam, Nat.zero_le, if_true, List.drop_zero, List.take_zero, List.reverse_nil, mapPages,
    Caller.withFree_self]

/-- `vm_map_ram` requests its pages. -/
theorem vmMapRam_ok_iff {c c' : Caller} {astart aend mapstart k : Int} :
    (∃ ret rg, vmMapRam c astart aend mapstart k = .ok (ret, rg, c')) ↔
      c.MapFits (pagingPgn mapstart) k.toNat ∧ c' = c.mapRam (pagingPgn mapstart) k.toNat := by
  unfold vmMapRam Caller.mapRam Caller.MapFits
  rw [allocPagesRange_eq]
  by_cases hfree : k.toNat ≤ (c.dev .mram).freeFpList.length
  · simp only [hfree, if_true, List.append_nil, Int.lt_irrefl, false_and, if_false, forall_true_left,
      show ¬ (0 : Int) = -3000 by decide, Exec.bind_ok]
    have hlen : ((c.dev .mram).freeFpList.take k.toNat).reverse.length = k.toNat := by
      rw [List.length_reverse, List.length_take]; omega
    have hmap : ∀ c', (∃ st rg, vmapPageRange (c.withFree ((c.dev .mram).freeFpList.drop k.toNat)) mapstart k
        ((c.dev .mram).freeFpList.take k.toNat).reverse = .ok (st, rg, c')) ↔ _ :=
      fun _ => vmapPageRange_ok_iff hlen
    constructor
    · rintro ⟨ret, rg, ⟨st, rg', c''⟩, h, hret⟩
      cases hret
      obtain ⟨hb, rfl⟩ := (hmap _).mp ⟨st, rg', h⟩
      exact ⟨hb, rfl⟩
    · rintro ⟨hb, rfl⟩
      obtain ⟨st, rg, h⟩ := (hmap _).mpr ⟨hb, rfl⟩
      exact ⟨_, _, _, h, rfl⟩
  · have hdrop : (c.dev .mram).freeFpList.drop k.toNat = [] := List.drop_eq_nil_of_le (by omega)
    rw [if_neg hfree, if_neg hfree, hdrop]
    simp only [hfree, if_pos (show (-1 : Int) < 0 ∧ (-1 : Int) ≠ -3000 by decide), Exec.pure_eq_ok,
      Except.ok.injEq, Prod.mk.injEq, false_implies, true_and]
    constructor
    · rintro ⟨ret, rg, -, -, h⟩
      exact h.symm
    · rintro h
      exact ⟨_, _, rfl, rfl, h.symm⟩

end SimpleOs.Mm
