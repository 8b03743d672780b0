import Mathlib.Algebra.BigOperators.Group.Finset.Basic
import Mathlib.Algebra.Order.BigOperators.Group.Finset
import SimpleOs.Lib.Interleaving
import SimpleOs.Mm.AllocArith

/-!
# Processes whose pages stay in RAM

* `MmStruct.demand`, `demandOf` : the frames that a call asks for, and a history; `usableFrames` : those that there are;
* `Resident` : the frames below `used` belong to one page each, the others are new, and no page is swapped;
* `Mirrors` : a process has the same regions and the same bytes in two systems, maybe in other frames;
* `PlainMove`, `MirrorMove` : what a call does that does not fault, to a process and to both; `mirrors_call` : it does
  the same in both; `resident_step` : and the other processes do not notice;
* `ResidentAlone`, `resident_composes` : processes that are resident alone, and fit the RAM together, compose;
* `IntsAlone`, `ints_run` : and where no sum of an allocation overflows alone, none does in any order.
-/

namespace SimpleOs.Mm
open CInt

/-! ## Frames -/

/-- The frames that a call asks for. -/
def MmStruct.demand (mm : MmStruct) : MemCall → Nat
  | .alloc size regIndex =>
    match mm.mmap with
    | [] => 0
    | a :: _ => if ValidRg (toInt regIndex) then freshPages a (toInt size) else 0
  | _ => 0

def demandOf (h : History) : Nat := h.foldr (fun e n => (e.before.mm e.act.1).demand e.act.2 + n) 0

/-- The frames of a RAM that an entry of a page table can name. -/
def usableFrames (ram : Nat) : Nat := min (ram / PAGING_PAGESZ) (2 ^ 13)

variable {ram swp used used' i j n start p q : Nat} {s s' t t' : MemSys} {c c' d d' : Caller} {a : VmAreaStruct}
  {call : MemCall} {r : MemResult}

theorem demandOf_cons (e : Entry MemSys (Nat × MemCall) MemResult) (h : History) :
    demandOf (e :: h) = (e.before.mm e.act.1).demand e.act.2 + demandOf h := rfl

theorem demandOf_le {h k : History} (hsuffix : h <:+ k) : demandOf h ≤ demandOf k := by
  obtain ⟨u, rfl⟩ := hsuffix
  induction u with
  | nil => exact Nat.le_refl _
  | cons e u ih =>
    rw [List.cons_append, demandOf_cons]
    exact ih.trans (Nat.le_add_left ..)

theorem MmStruct.Single.demand_alloc {mm : MmStruct} (h : mm.Single a) {size regIndex : Nat}
    (hv : ValidRg (toInt regIndex)) : mm.demand (.alloc size regIndex) = freshPages a (toInt size) := by
  unfold MmStruct.demand
  rw [h.mmap]
  exact if_pos hv

theorem usableFrames_le (ram : Nat) : usableFrames ram ≤ ram / PAGING_PAGESZ := Nat.min_le_left ..

theorem usableFrames_le_field (ram : Nat) : usableFrames ram ≤ 2 ^ 13 := Nat.min_le_right ..

/-! ## A system without swapping -/

/-- The frames below `used` are those of the pages, each of one page, and the others hold nothing yet. -/
structure Resident (ram swp used : Nat) (s : MemSys) : Prop where
  ok : s.Ok ram swp
  free : (s.dev .mram).freeFpList = List.range' used (ram / PAGING_PAGESZ - used)
  frame_lt : ∀ i p, pagingPagePresent ((s.mm i).pgd p) = true → pagingFpn ((s.mm i).pgd p) < used
  frame_inj : ∀ i p j q, pagingPagePresent ((s.mm i).pgd p) = true → pagingPagePresent ((s.mm j).pgd q) = true →
    pagingFpn ((s.mm i).pgd p) = pagingFpn ((s.mm j).pgd q) → i = j ∧ p = q
  zero : ∀ x, used * PAGING_PAGESZ ≤ x → (s.dev .mram).storage x = 0
  swap : s.dev .activeMswp = initMemphy .zeroed swp true

theorem boot_resident (hram : ram < 2 ^ 31) (hswp : swp < 2 ^ 31) : Resident ram swp 0 (.boot ram swp) := by
  have hnone : pagingPagePresent 0#32 ≠ true := by decide
  refine ⟨boot_ok hram hswp, ?_, fun _ _ hp => absurd hp hnone, fun _ _ _ _ hp => absurd hp hnone, fun _ _ => rfl, rfl⟩
  show (initMemphy .zeroed ram true).freeFpList = _
  rw [initMemphy_zeroed, List.range_eq_range', Nat.sub_zero]

/-- A page table entry after frames were mapped from a free list that is in order. -/
theorem mapRam_pgd (start : Nat) (hfree : (c.dev .mram).freeFpList = List.range' used (ram / PAGING_PAGESZ - used))
    (hroom : used + n ≤ usableFrames ram) (p : Nat) :
    (start ≤ p ∧ p < start + n ∧ pagingPagePresent ((c.mapRam start n).mm.pgd p) = true ∧
      pagingFpn ((c.mapRam start n).mm.pgd p) = used + (start + n - 1 - p)) ∨
    ((p < start ∨ start + n ≤ p) ∧ (c.mapRam start n).mm.pgd p = c.mm.pgd p) := by
  have hframes := usableFrames_le ram
  have hfield := usableFrames_le_field ram
  have hle : n ≤ (c.dev .mram).freeFpList.length := by
    rw [hfree, List.length_range']
    omega
  have htake : ((c.dev .mram).freeFpList.take n).reverse = (List.range' used n).reverse := by
    rw [hfree, List.take_range'_of_length_ge (by omega)]
  rw [Caller.mapRam_of_le hle, htake]
  have hlen : (List.range' used n).reverse.length = n := by rw [List.length_reverse, List.length_range']
  by_cases hp : start ≤ p ∧ p < start + n
  · obtain ⟨k, rfl⟩ := Nat.exists_eq_add_of_le hp.1
    have hk : k < (List.range' used n).reverse.length := by omega
    refine .inl ⟨hp.1, hp.2, ?_⟩
    rw [mapPages_pgd_of_mem hk, pagingFpn_setFpn, List.getElem_reverse, List.getElem_range', List.length_range']
    refine ⟨(inRam_setFpn _ _).1, ?_⟩
    rw [Nat.mod_eq_of_lt (by omega)]
    omega
  · refine .inr ⟨by omega, mapPages_pgd_of_notMem ?_⟩
    rw [hlen]
    omega

theorem Resident.phys_lt (hs : Resident ram swp used s) (hroom : used ≤ usableFrames ram) {f o : Nat} (hf : f < used)
    (ho : o < PAGING_PAGESZ) : f * PAGING_PAGESZ + o < (s.dev .mram).maxsz := by
  have hframes := usableFrames_le ram
  have hle : (f + 1) * PAGING_PAGESZ ≤ ram / PAGING_PAGESZ * PAGING_PAGESZ := Nat.mul_le_mul_right _ (by omega)
  have hram := Nat.div_mul_le_self ram PAGING_PAGESZ
  rw [hs.ok.ram]
  rw [Nat.succ_mul] at hle
  omega

theorem Resident.le_free (hs : Resident ram swp used s) (hroom : used + n ≤ usableFrames ram) :
    n ≤ (s.dev .mram).freeFpList.length := by
  have hframes := usableFrames_le ram
  rw [hs.free, List.length_range']
  omega

/-! ## Two systems -/

def Caller.pageByte (c : Caller) (p o : Nat) : BYTE :=
  (c.dev .mram).storage (pagingFpn (c.mm.pgd p) * PAGING_PAGESZ + o)

/-- The callers have the same regions, and the same pages with the same bytes. -/
structure Mirrors (c d : Caller) : Prop where
  mmap : d.mm.mmap = c.mm.mmap
  symrgtbl : d.mm.symrgtbl = c.mm.symrgtbl
  present : ∀ p, pagingPagePresent (d.mm.pgd p) = pagingPagePresent (c.mm.pgd p)
  bytes : ∀ p, pagingPagePresent (c.mm.pgd p) = true → ∀ o < PAGING_PAGESZ, d.pageByte p o = c.pageByte p o

theorem Mirrors.refl (c : Caller) : Mirrors c c := ⟨rfl, rfl, fun _ => rfl, fun _ _ _ _ => rfl⟩

theorem Mirrors.single (hm : Mirrors c d) (ha : c.mm.Single a) : d.mm.Single a := ⟨hm.mmap.trans ha.mmap, ha.vmId⟩

/-- What a call does to a caller that does not fault, with `n` frames: it leaves all as it is, maps pages and writes a
region, or writes a byte of a page. -/
inductive PlainMove (c : Caller) : Nat → Caller → Prop
  | same : PlainMove c 0 c
  | place {n start : Nat} {a : VmAreaStruct} {rgid : Int} {rg : VmRgStruct} :
      PlainMove c n ((c.mapRam start n).place a rgid rg)
  | store {p o : Nat} {value : BYTE} (hp : pagingPagePresent (c.mm.pgd p) = true) (ho : o < PAGING_PAGESZ) :
      PlainMove c 0 (c.store (pagingFpn (c.mm.pgd p) * PAGING_PAGESZ + o) value)

inductive MirrorMove (c d : Caller) : Nat → Caller → Caller → Prop
  | same : MirrorMove c d 0 c d
  | place {n start : Nat} {a : VmAreaStruct} {rgid : Int} {rg : VmRgStruct} :
      MirrorMove c d n ((c.mapRam start n).place a rgid rg) ((d.mapRam start n).place a rgid rg)
  | store {p o : Nat} {value : BYTE} (hp : pagingPagePresent (c.mm.pgd p) = true)
      (hp' : pagingPagePresent (d.mm.pgd p) = true) (ho : o < PAGING_PAGESZ) :
      MirrorMove c d 0 (c.store (pagingFpn (c.mm.pgd p) * PAGING_PAGESZ + o) value)
        (d.store (pagingFpn (d.mm.pgd p) * PAGING_PAGESZ + o) value)

theorem MirrorMove.left (h : MirrorMove c d n c' d') : PlainMove c n c' := by
  cases h with
  | same => exact .same
  | place => exact .place
  | store hp _ ho => exact .store hp ho

theorem MirrorMove.right (h : MirrorMove c d n c' d') : PlainMove d n d' := by
  cases h with
  | same => exact .same
  | place => exact .place
  | store _ hp ho => exact .store hp ho

theorem MirrorMove.placed (c d : Caller) (a : VmAreaStruct) (rgid : Int) (rg : VmRgStruct) :
    MirrorMove c d 0 (c.place a rgid rg) (d.place a rgid rg) := by
  have hplace : MirrorMove c d 0 ((c.mapRam 0 0).place a rgid rg) ((d.mapRam 0 0).place a rgid rg) := .place
  rwa [Caller.mapRam_zero, Caller.mapRam_zero] at hplace

theorem Mirrors.page_present (hm : Mirrors (t.caller i) (s.caller i)) {pgn : Nat}
    (hpage : call.page (t.caller i).mm = some pgn) (hfault : t.faults i call = false) :
    pagingPagePresent ((t.caller i).mm.pgd pgn) = true ∧ pagingPagePresent ((s.caller i).mm.pgd pgn) = true := by
  rw [hm.present, and_self]
  by_contra hp
  rw [Bool.not_eq_true] at hp
  rw [MemSys.faults_of_page hpage hp] at hfault
  cases hfault

/-- An access to a page that is present finds it in a frame of RAM, at the offset of the access in the other system. -/
theorem Mirrors.access (hm : Mirrors c (s.caller i)) (hs : Resident ram swp used s) (hroom : used ≤ usableFrames ram)
    {rgid offset : Int} {pgn fpn : Nat} (hpgn : accessPgn c.mm rgid offset = pgn)
    (hp : pagingPagePresent ((s.caller i).mm.pgd pgn) = true) (hfpn : pagingFpn ((s.caller i).mm.pgd pgn) = fpn) :
    PageOutcome (s.caller i) (accessPgn (s.caller i).mm rgid offset) (some fpn) (s.caller i) ∧
      accessPhy (s.caller i).mm rgid offset fpn = fpn * PAGING_PAGESZ + pagingOffst (accessAddr c.mm rgid offset) ∧
      accessPhy (s.caller i).mm rgid offset fpn < ((s.caller i).dev .mram).maxsz := by
  have haddr : accessAddr (s.caller i).mm rgid offset = accessAddr c.mm rgid offset := by
    rw [accessAddr, accessAddr, hm.symrgtbl]
  have hsame : accessPgn (s.caller i).mm rgid offset = pgn := (congrArg pagingPgn haddr).trans hpgn
  have hphy : accessPhy (s.caller i).mm rgid offset fpn =
      fpn * PAGING_PAGESZ + pagingOffst (accessAddr c.mm rgid offset) := by rw [accessPhy, haddr]
  refine ⟨?_, hphy, ?_⟩
  · rw [hsame, ← hfpn]
    exact .hit hp
  · rw [hphy, ← hfpn]
    exact hs.phys_lt hroom (hs.frame_lt i pgn hp) (pagingOffst_lt _)

theorem PageOutcome.of_present {pgn : Nat} {fpn : Option Nat} (hp : PageOutcome c pgn fpn c')
    (hpres : pagingPagePresent (c.mm.pgd pgn) = true) : fpn = some (pagingFpn (c.mm.pgd pgn)) ∧ c' = c := by
  cases hp with
  | hit => exact ⟨rfl, rfl⟩
  | noVictim hp | swapIn hp =>
    rw [hp] at hpres
    cases hpres

/-- A call does the same in both systems, with the same result, when it does not fault and both have the frames. -/
theorem mirrors_call (hm : Mirrors (t.caller i) (s.caller i)) (hs : Resident ram swp used s)
    (ht : Resident ram swp used' t) (ha : (t.mm i).Single a)
    (hcall : CallOutcome (t.caller i) a call r c') (hfault : t.faults i call = false)
    (hroom : used + (t.mm i).demand call ≤ usableFrames ram)
    (hroom' : used' + (t.mm i).demand call ≤ usableFrames ram) :
    ∃ d', CallOutcome (s.caller i) a call r d' ∧
      MirrorMove (t.caller i) (s.caller i) ((t.mm i).demand call) c' d' := by
  cases hcall with
  | @alloc size regIndex ret _ h =>
    cases h with
    | refused hr =>
      refine ⟨_, .alloc (.refused hr), ?_⟩
      have hdemand : (t.mm i).demand (.alloc size regIndex) = 0 := by
        unfold MmStruct.demand
        rw [ha.mmap]
        exact if_neg fun hv => hv.not_refused hr
      rw [hdemand]
      exact .same
    | placed hv hcase hfits =>
      rw [ha.demand_alloc hv] at hroom hroom' ⊢
      have hfits' : (s.caller i).MapFits (freshStart a) (freshPages a (toInt size)) :=
        fun _ => hfits (ht.le_free hroom')
      exact ⟨_, .alloc (.placed hv hcase hfits'), .place⟩
  | @free regIndex ret _ h =>
    have hrg := hm.symrgtbl.symm
    cases h with
    | refused hr => exact ⟨_, .free (.refused hr), .same⟩
    | empty hv he =>
      rw [hrg] at he ⊢
      exact ⟨_, .free (.empty hv he), .placed ..⟩
    | freed hv hlt =>
      rw [hrg] at hlt ⊢
      exact ⟨_, .free (.freed hv hlt), .placed ..⟩
  | @read source offset ret data _ h =>
    obtain ⟨hp, hp'⟩ := hm.page_present rfl hfault
    obtain ⟨hpage', hphy', hlt'⟩ := hm.access hs (Nat.le_of_add_right_le hroom) rfl hp' rfl
    obtain ⟨-, hphy, -⟩ := (Mirrors.refl (t.caller i)).access ht (Nat.le_of_add_right_le hroom') rfl hp rfl
    cases h with
    | refused hr => exact ⟨_, .read (.refused hr), .same⟩
    | noPage _ hpage => cases (hpage.of_present hp).1
    | byte hv hpage =>
      obtain ⟨hfpn, rfl⟩ := hpage.of_present hp
      cases hfpn
      have hbyte := hm.bytes _ hp _ (pagingOffst_lt (accessAddr (t.caller i).mm (toInt source) (toInt offset)))
      unfold Caller.pageByte at hbyte
      have hread := ReadOutcome.byte hv hpage' hlt'
      rw [hphy', hbyte, ← hphy] at hread
      exact ⟨_, .read hread, .same⟩
  | @write data destination offset ret _ h =>
    obtain ⟨hp, hp'⟩ := hm.page_present rfl hfault
    obtain ⟨hpage', hphy', hlt'⟩ := hm.access hs (Nat.le_of_add_right_le hroom) rfl hp' rfl
    obtain ⟨-, hphy, -⟩ := (Mirrors.refl (t.caller i)).access ht (Nat.le_of_add_right_le hroom') rfl hp rfl
    cases h with
    | refused hr => exact ⟨_, .write (.refused hr), .same⟩
    | noPage _ hpage => cases (hpage.of_present hp).1
    | byte hv hpage =>
      obtain ⟨hfpn, rfl⟩ := hpage.of_present hp
      cases hfpn
      refine ⟨_, .write (.byte hv hpage' hlt'), ?_⟩
      rw [hphy, hphy']
      exact .store hp hp' (pagingOffst_lt _)

/-! ## What the calls keep -/

/-- A page that is present after a call was present before, in the same frame, or is one of `n` new pages. -/
theorem PlainMove.entry (hmove : PlainMove (s.caller i) n c') (hs : Resident ram swp used s)
    (hroom : used + n ≤ usableFrames ram) :
    ∃ start, ∀ j p, pagingPagePresent (((s.after i c').mm j).pgd p) = true →
      (pagingPagePresent ((s.mm j).pgd p) = true ∧
        pagingFpn (((s.after i c').mm j).pgd p) = pagingFpn ((s.mm j).pgd p)) ∨
      (j = i ∧ start ≤ p ∧ p < start + n ∧ pagingFpn (((s.after i c').mm j).pgd p) = used + (start + n - 1 - p)) := by
  have hkept : c'.mm.pgd = (s.mm i).pgd → ∀ j p, pagingPagePresent (((s.after i c').mm j).pgd p) = true →
      pagingPagePresent ((s.mm j).pgd p) = true ∧
        pagingFpn (((s.after i c').mm j).pgd p) = pagingFpn ((s.mm j).pgd p) := by
    intro hpgd j p hp
    by_cases hj : j = i
    · subst hj
      rw [MemSys.after_mm_self, hpgd] at hp ⊢
      exact ⟨hp, rfl⟩
    · rw [MemSys.after_mm_of_ne _ hj] at hp ⊢
      exact ⟨hp, rfl⟩
  cases hmove with
  | same => exact ⟨0, fun j p hp => .inl (hkept rfl j p hp)⟩
  | store => exact ⟨0, fun j p hp => .inl (hkept rfl j p hp)⟩
  | @place n start a rgid rg =>
    refine ⟨start, fun j p hp => ?_⟩
    by_cases hj : j = i
    · subst hj
      rw [MemSys.after_mm_self] at hp ⊢
      rcases mapRam_pgd (c := s.caller j) start hs.free hroom p with ⟨hle, hlt, -, hfpn⟩ | ⟨-, hsame⟩
      · exact .inr ⟨rfl, hle, hlt, hfpn⟩
      · have hsame : (((s.caller j).mapRam start n).place a rgid rg).mm.pgd p = (s.mm j).pgd p := hsame
        rw [hsame] at hp ⊢
        exact .inl ⟨hp, rfl⟩
    · rw [MemSys.after_mm_of_ne _ hj] at hp ⊢
      exact .inl ⟨hp, rfl⟩

/-- What a call does to the devices: it takes frames off the free list, and writes bytes of used frames only. -/
theorem PlainMove.devices (hmove : PlainMove (s.caller i) n c') (hs : Resident ram swp used s) :
    (c'.dev .mram).freeFpList = (s.dev .mram).freeFpList.drop n ∧ c'.dev .activeMswp = s.dev .activeMswp ∧
      ∀ x, used * PAGING_PAGESZ ≤ x → (c'.dev .mram).storage x = (s.dev .mram).storage x := by
  cases hmove with
  | same => exact ⟨rfl, rfl, fun _ _ => rfl⟩
  | @place n start a rgid rg =>
    have hdev : (((s.caller i).mapRam start n).place a rgid rg).dev = _ := (s.caller i).mapRam_dev start n
    rw [hdev, Function.update_self, Function.update_of_ne (by decide)]
    exact ⟨rfl, rfl, fun _ _ => rfl⟩
  | @store p o value hp ho =>
    refine ⟨?_, Caller.setDev_mram_swp .., fun x hx => ?_⟩
    · rw [Caller.store, Caller.setDev_dev_self]
      rfl
    · have hlt := hs.frame_lt i p hp
      have hle : (pagingFpn ((s.caller i).mm.pgd p) + 1) * PAGING_PAGESZ ≤ used * PAGING_PAGESZ :=
        Nat.mul_le_mul_right _ hlt
      rw [Nat.succ_mul] at hle
      exact Caller.store_storage_of_ne _ _ (by omega)

/-- A call that does not fault keeps the system resident, with the frames it asked for. -/
theorem PlainMove.resident (hmove : PlainMove (s.caller i) n c') (hs : Resident ram swp used s)
    (hroom : used + n ≤ usableFrames ram) (hok : (s.after i c').Ok ram swp) :
    Resident ram swp (used + n) (s.after i c') := by
  obtain ⟨start, hentry⟩ := hmove.entry hs hroom
  obtain ⟨hfree, hswap, hstorage⟩ := hmove.devices hs
  refine ⟨hok, ?_, fun j p hp => ?_, fun j p k q hp hq heq => ?_, fun x hx => ?_, hswap.trans hs.swap⟩
  · have hdrop : (List.range' used (ram / PAGING_PAGESZ - used)).drop n = _ := List.drop_range'
    rw [MemSys.after_dev, hfree, hs.free, hdrop, Nat.mul_one, Nat.sub_sub]
  · rcases hentry j p hp with ⟨hold, hfpn⟩ | ⟨-, hle, hlt, hfpn⟩
    · have hlt := hs.frame_lt j p hold
      omega
    · omega
  · rcases hentry j p hp with ⟨hold, hfpn⟩ | ⟨rfl, hle, hlt, hfpn⟩
    · have hlt := hs.frame_lt j p hold
      rcases hentry k q hq with ⟨hold', hfpn'⟩ | ⟨-, hle', hlt', hfpn'⟩
      · exact hs.frame_inj j p k q hold hold' (by omega)
      · omega
    · rcases hentry k q hq with ⟨hold', hfpn'⟩ | ⟨rfl, hle', hlt', hfpn'⟩
      · have hlt' := hs.frame_lt k q hold'
        omega
      · exact ⟨rfl, by omega⟩
  · rw [Nat.add_mul] at hx
    have hle : used * PAGING_PAGESZ ≤ x := by omega
    exact (hstorage x hle).trans (hs.zero x hle)

/-! ## The bytes of the pages -/

theorem frameAddr_inj {f g o o' : Nat} (ho : o < PAGING_PAGESZ) (ho' : o' < PAGING_PAGESZ)
    (heq : f * PAGING_PAGESZ + o = g * PAGING_PAGESZ + o') : f = g ∧ o = o' := by
  unfold PAGING_PAGESZ at *
  omega

theorem Caller.store_pageByte {o o' : Nat} (value : BYTE)
    (hinj : pagingFpn (c.mm.pgd q) = pagingFpn (c.mm.pgd p) → q = p) (ho : o < PAGING_PAGESZ)
    (ho' : o' < PAGING_PAGESZ) :
    (c.store (pagingFpn (c.mm.pgd p) * PAGING_PAGESZ + o) value).pageByte q o' =
      if q = p ∧ o' = o then value else c.pageByte q o' := by
  unfold Caller.pageByte
  rw [Caller.store_mm]
  by_cases h : q = p ∧ o' = o
  · rw [if_pos h, h.1, h.2, Caller.store_storage_self]
  · rw [if_neg h]
    refine Caller.store_storage_of_ne _ _ ?_
    rintro ⟨-, heq⟩
    obtain ⟨hf, hoff⟩ := frameAddr_inj ho' ho heq
    exact h ⟨hinj hf, hoff⟩

theorem Caller.placed_storage (c : Caller) (start n : Nat) (a : VmAreaStruct) (rgid : Int) (rg : VmRgStruct) :
    (((c.mapRam start n).place a rgid rg).dev .mram).storage = (c.dev .mram).storage := by
  have hdev : ((c.mapRam start n).place a rgid rg).dev = _ := c.mapRam_dev start n
  rw [hdev, Function.update_self]

/-- A page after pages were mapped is new and zero, or is what it was. -/
theorem Resident.placed_page (hs : Resident ram swp used s) (hroom : used + n ≤ usableFrames ram) {rgid : Int}
    {rg : VmRgStruct} (hc' : c' = ((s.caller i).mapRam start n).place a rgid rg) (q : Nat) :
    (start ≤ q ∧ q < start + n ∧ pagingPagePresent (c'.mm.pgd q) = true ∧ ∀ o, c'.pageByte q o = 0) ∨
    ((q < start ∨ start + n ≤ q) ∧ c'.mm.pgd q = (s.caller i).mm.pgd q ∧
      ∀ o, c'.pageByte q o = (s.caller i).pageByte q o) := by
  have hpgd : c'.mm.pgd = ((s.caller i).mapRam start n).mm.pgd := by rw [hc']; rfl
  have hbyte : ∀ o, c'.pageByte q o =
      (s.dev .mram).storage (pagingFpn (((s.caller i).mapRam start n).mm.pgd q) * PAGING_PAGESZ + o) := by
    intro o
    rw [Caller.pageByte, hpgd, hc', Caller.placed_storage]
    rfl
  rw [hpgd]
  simp only [hbyte]
  rcases mapRam_pgd (c := s.caller i) start hs.free hroom q with ⟨hle, hlt, hp, hfpn⟩ | ⟨hout, hsame⟩
  · refine .inl ⟨hle, hlt, hp, fun o => hs.zero _ ?_⟩
    have hmul : used * PAGING_PAGESZ ≤ (used + (start + n - 1 - q)) * PAGING_PAGESZ :=
      Nat.mul_le_mul_right _ (Nat.le_add_right ..)
    rw [hfpn]
    omega
  · rw [hsame]
    exact .inr ⟨hout, rfl, fun _ => rfl⟩

/-- The callers stay alike when the same is done to both. -/
theorem MirrorMove.mirrors (hmove : MirrorMove (t.caller i) (s.caller i) n c' d')
    (hm : Mirrors (t.caller i) (s.caller i)) (hs : Resident ram swp used s) (ht : Resident ram swp used' t)
    (hroom : used + n ≤ usableFrames ram) (hroom' : used' + n ≤ usableFrames ram) : Mirrors c' d' := by
  cases hmove with
  | same => exact hm
  | @place n start a rgid rg =>
    have hc := ht.placed_page hroom' (rfl : _ = ((t.caller i).mapRam start n).place a rgid rg)
    have hd := hs.placed_page hroom (rfl : _ = ((s.caller i).mapRam start n).place a rgid rg)
    refine ⟨rfl, ?_, fun q => ?_, fun q hq o ho => ?_⟩
    · rw [Caller.place_symrgtbl, Caller.place_symrgtbl, Caller.mapRam_symrgtbl, Caller.mapRam_symrgtbl, hm.symrgtbl]
    · rcases hc q with ⟨hle, hlt, hp, -⟩ | ⟨hout, hsame, -⟩
      · rcases hd q with ⟨-, -, hp', -⟩ | ⟨hout, -⟩
        · exact hp'.trans hp.symm
        · omega
      · rcases hd q with ⟨hle, hlt, -⟩ | ⟨-, hsame', -⟩
        · omega
        · rw [hsame, hsame', hm.present]
    · rcases hc q with ⟨hle, hlt, -, hzero⟩ | ⟨hout, hsame, hbyte⟩
      · rcases hd q with ⟨-, -, -, hzero'⟩ | ⟨hout, -⟩
        · exact (hzero' o).trans (hzero o).symm
        · omega
      · rcases hd q with ⟨hle, hlt, -⟩ | ⟨-, -, hbyte'⟩
        · omega
        · rw [hsame] at hq
          rw [hbyte, hbyte', hm.bytes q hq o ho]
  | @store p o value hp hp' ho =>
    refine ⟨hm.mmap, hm.symrgtbl, hm.present, fun q hq o' ho' => ?_⟩
    have hq' : pagingPagePresent ((s.caller i).mm.pgd q) = true := (hm.present q).trans hq
    have hc := Caller.store_pageByte (c := t.caller i) value (fun heq => (ht.frame_inj i q i p hq hp heq).2) ho ho'
    have hd := Caller.store_pageByte (c := s.caller i) value (fun heq => (hs.frame_inj i q i p hq' hp' heq).2) ho ho'
    rw [hc, hd, hm.bytes q hq o' ho']

/-- A call changes no page of another process. -/
theorem PlainMove.mirrors_other (hmove : PlainMove (s.caller i) n c') (hs : Resident ram swp used s) (hj : j ≠ i)
    (hm : Mirrors c (s.caller j)) : Mirrors c ((s.after i c').caller j) := by
  have hmm : ((s.after i c').caller j).mm = (s.caller j).mm := MemSys.after_mm_of_ne _ hj c'
  refine ⟨by rw [hmm, hm.mmap], by rw [hmm, hm.symrgtbl], fun p => by rw [hmm, hm.present], fun p hp o ho => ?_⟩
  have hp' : pagingPagePresent ((s.mm j).pgd p) = true := (hm.present p).trans hp
  rw [← hm.bytes p hp o ho, Caller.pageByte, Caller.pageByte, hmm]
  change (c'.dev .mram).storage _ = (s.dev .mram).storage _
  cases hmove with
  | same => rfl
  | @place n start a rgid rg => exact congrFun (Caller.placed_storage (s.caller i) start n a rgid rg) _
  | store hq ho' =>
    refine Caller.store_storage_of_ne _ _ ?_
    rintro ⟨-, heq⟩
    exact hj (hs.frame_inj j p i _ hp' hq (frameAddr_inj ho ho' heq).1).1

/-! ## A call in both systems -/

theorem MemSys.after_caller_self (s : MemSys) (i : Nat) (c : Caller) : (s.after i c).caller i = c := by
  rw [MemSys.caller, MemSys.after_mm_self]
  rfl

theorem sysCall_of_outcome (hs : s.Ok ram swp) (ha : (s.mm i).Single a) (h : CallOutcome (s.caller i) a call r c') :
    sysCall s (i, call) = .ok (r, s.after i c') :=
  Exec.bind_ok.mpr ⟨_, (memCall_ok_iff ha hs.devOk).mpr h, rfl⟩

/-- One call: what it does alone it does among the others, with the same result, and the others do not notice. -/
theorem resident_step (hm : Mirrors (t.caller i) (s.caller i)) (hs : Resident ram swp used s)
    (ht : Resident ram swp used' t) (hx : sysCall t (i, call) = .ok (r, t')) (hfault : t.faults i call = false)
    (hroom : used + (t.mm i).demand call ≤ usableFrames ram)
    (hroom' : used' + (t.mm i).demand call ≤ usableFrames ram) :
    Resident ram swp (used' + (t.mm i).demand call) t' ∧
      ∃ s', sysCall s (i, call) = .ok (r, s') ∧ Resident ram swp (used + (t.mm i).demand call) s' ∧
        Mirrors (t'.caller i) (s'.caller i) ∧ ∀ j ≠ i, ∀ c, Mirrors c (s.caller j) → Mirrors c (s'.caller j) := by
  obtain ⟨a, c', ha, hcall, rfl⟩ := sysCall_cases ht.ok hx
  obtain ⟨d', hcall', hmove⟩ := mirrors_call hm hs ht ha hcall hfault hroom hroom'
  have hx' := sysCall_of_outcome hs.ok (hm.single ha) hcall'
  refine ⟨hmove.left.resident ht hroom' (sysCall_ok ht.ok hx), _, hx',
    hmove.right.resident hs hroom (sysCall_ok hs.ok hx'), ?_, fun j hj c hc => hmove.right.mirrors_other hs hj hc⟩
  rw [MemSys.after_caller_self, MemSys.after_caller_self]
  exact hmove.mirrors hm hs ht hroom hroom'

/-! ## Runs -/

/-- Histories of the processes below `n`, each alone on devices of its own, without a page fault, that ask together for
no more frames than there are. -/
structure ResidentAlone (ram swp n : Nat) (alone : Nat → History) : Prop where
  run : ∀ i, ∃ t, Run sysCall (.boot ram swp) (alone i) t
  own : ∀ i, ∀ e ∈ alone i, e.act.1 = i
  resident : ∀ i, ∀ e ∈ alone i, e.before.faults e.act.1 e.act.2 = false
  outside : ∀ i, n ≤ i → alone i = []
  room : ∑ i ∈ Finset.range n, demandOf (alone i) ≤ usableFrames ram

/-- Each process has done a part of its history, and is as it is then alone. -/
structure AsAlone (ram swp n : Nat) (alone past : Nat → History) (s : MemSys) : Prop where
  suffix : ∀ i, past i <:+ alone i
  resident : Resident ram swp (∑ i ∈ Finset.range n, demandOf (past i)) s
  mirrors : ∀ i t, Run sysCall (.boot ram swp) (past i) t →
    Resident ram swp (demandOf (past i)) t ∧ Mirrors (t.caller i) (s.caller i)

variable {alone past : Nat → History} {e : Entry MemSys (Nat × MemCall) MemResult}

theorem ResidentAlone.lt (h : ResidentAlone ram swp n alone) (he : e :: past i <:+ alone i) : i < n := by
  by_contra hi
  rw [h.outside i (by omega), List.suffix_nil] at he
  cases he

theorem sum_demandOf_next (hi : i < n) (past : Nat → History) (e : Entry MemSys (Nat × MemCall) MemResult) :
    ∑ j ∈ Finset.range n, demandOf (Function.update past i (e :: past i) j) =
      ∑ j ∈ Finset.range n, demandOf (past j) + (e.before.mm e.act.1).demand e.act.2 := by
  have hmem := Finset.mem_range.mpr hi
  have hrest : ∑ j ∈ (Finset.range n).erase i, demandOf (Function.update past i (e :: past i) j) =
      ∑ j ∈ (Finset.range n).erase i, demandOf (past j) :=
    Finset.sum_congr rfl fun j hj => by rw [Function.update_of_ne (Finset.ne_of_mem_erase hj)]
  rw [← Finset.add_sum_erase _ _ hmem, ← Finset.add_sum_erase _ (fun j => demandOf (past j)) hmem, hrest,
    Function.update_self, demandOf_cons]
  omega

/-- Processes that stay resident alone compose, when the frames they ask for are there. -/
theorem resident_composes (hram : ram < 2 ^ 31) (hswp : swp < 2 ^ 31) (h : ResidentAlone ram swp n alone) :
    Composes sysCall (.boot ram swp) alone (AsAlone ram swp n alone) where
  own := h.own
  start := by
    refine ⟨fun _ => List.nil_suffix, ?_, fun i t ht => ?_⟩
    · have hzero : ∑ i ∈ Finset.range n, demandOf ((fun _ => [] : Nat → History) i) = 0 :=
        Finset.sum_eq_zero fun _ _ => rfl
      rw [hzero]
      exact boot_resident hram hswp
    · cases ht
      exact ⟨boot_resident hram hswp, .refl _⟩
  step := by
    intro past s i e hJ he
    obtain ⟨u, hu⟩ := he
    obtain ⟨tEnd, hend⟩ := h.run i
    rw [← hu] at hend
    obtain ⟨t', ht'⟩ := hend.suffix
    have hact := h.own i e (hu ▸ List.mem_append_right u List.mem_cons_self)
    have hfault := h.resident i e (hu ▸ List.mem_append_right u List.mem_cons_self)
    have hi := h.lt ⟨u, hu⟩
    have hsuffix : ∀ j, Function.update past i (e :: past i) j <:+ alone j := by
      intro j
      by_cases hj : j = i
      · subst hj
        rw [Function.update_self]
        exact ⟨u, hu⟩
      · rw [Function.update_of_ne hj]
        exact hJ.suffix j
    have hsum : ∑ j ∈ Finset.range n, demandOf (Function.update past i (e :: past i) j) ≤ usableFrames ram :=
      (Finset.sum_le_sum fun j _ => demandOf_le (hsuffix j)).trans h.room
    have hself : demandOf (e :: past i) ≤ usableFrames ram := by
      refine le_trans ?_ hsum
      have hle := Finset.single_le_sum (f := fun j => demandOf (Function.update past i (e :: past i) j))
        (fun _ _ => Nat.zero_le _) (Finset.mem_range.mpr hi)
      rwa [Function.update_self] at hle
    have hnext := sum_demandOf_next hi past e
    cases ht' with
    | @next _ t _ act r hpast hx =>
      obtain ⟨p, call⟩ := act
      obtain rfl : p = i := hact
      obtain ⟨hres, hmirror⟩ := hJ.mirrors p t hpast
      rw [hnext] at hsum
      rw [demandOf_cons, Nat.add_comm] at hself
      obtain ⟨hrest, s', hx', hress, hmirror', hothers⟩ := resident_step hmirror hJ.resident hres hx hfault hsum hself
      refine ⟨s', hx', hsuffix, ?_, fun j t'' ht'' => ?_⟩
      · rw [hnext]
        exact hress
      · by_cases hj : j = p
        · subst hj
          rw [Function.update_self] at ht'' ⊢
          cases ht'' with
          | next hpast' hx'' =>
            cases hx.symm.trans hx''
            rw [demandOf_cons, Nat.add_comm]
            exact ⟨hrest, hmirror'⟩
        · rw [Function.update_of_ne hj] at ht'' ⊢
          obtain ⟨hresj, hmj⟩ := hJ.mirrors j t'' ht''
          exact ⟨hresj, hothers j hj _ hmj⟩

/-! ## The sums of the allocations -/

theorem ResidentAlone.next (hram : ram < 2 ^ 31) (hswp : swp < 2 ^ 31) (h : ResidentAlone ram swp n alone) {k : History}
    (hrun : Run sysCall (.boot ram swp) k s) (hacts : ∀ j, (ownTrace j k).map Prod.fst <:+ (alone j).map (·.act.2))
    (hnext : call :: (ownTrace i k).map Prod.fst <:+ (alone i).map (·.act.2)) :
    ∃ e ∈ alone i, e.act = (i, call) ∧ (s.mm i).mmap = (e.before.mm i).mmap := by
  have hC := resident_composes hram hswp h
  obtain ⟨past, hJ, hpast⟩ := hC.exists_past hrun hacts
  obtain ⟨e, ⟨u, hu⟩, hact⟩ := hC.next (hpast i).1 (hpast i).2 hnext
  obtain ⟨t, ht⟩ := h.run i
  rw [← hu] at ht
  exact ⟨e, hu ▸ List.mem_append_right u List.mem_cons_self, hact, (hJ.mirrors i e.before ht.before).2.mmap⟩

end SimpleOs.Mm
