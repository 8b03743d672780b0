import SimpleOs.Mm.System

/-!
# Running out of frames

* `OutOfMemory` : the heap has to grow by more frames than `mram` has free; `AllocAtomic` : `liballoc`
  fails and changes nothing;
* `liballoc_outOfMemory` : what it does; `allocAtomic_never`;
* `CleanFault` : without a victim or a free swap frame `pg_getpage` fails and changes nothing, and no frame
  number is used that was not obtained;
* `ShortageNoticed` : the shortages `pg_getpage` sees; `pgGetpage_noVictim`, `pgGetpage_full` : what it does on
  the others; `cleanFault_iff`.
-/

namespace SimpleOs.Mm
open CInt

variable {c c' : Caller} {a : VmAreaStruct}

/-! ## `liballoc` -/

/-- The free list has no region of `size` bytes, the gap has no room, and the aligned size is more frames
than `mram` has free. -/
def OutOfMemory (c : Caller) (a : VmAreaStruct) (size : Int) : Prop :=
  (∃ ret o l, freeSearchList 0 size a.vmFreergList = .ok (ret, o, l) ∧ ret ≠ 0) ∧ gapSize a (toInt a.sbrk) < size ∧
    (c.dev .mram).freeFpList.length < ((growthAmt size).tdiv PAGING_PAGESZ).toNat

/-- `liballoc` returns a status other than 0 and leaves the address space and the free frames of `mram` as
they were. -/
def AllocAtomic (c : Caller) (size regIndex : Nat) : Prop :=
  ∃ ret c', liballoc c size regIndex = .ok (ret, c') ∧ ret ≠ 0 ∧ c'.mm = c.mm ∧
    (c'.dev .mram).freeFpList = (c.dev .mram).freeFpList

theorem AllocOutcome.ret_eq {rgid size ret : Int} (h : AllocOutcome c a rgid size ret c')
    (hid : ¬ (rgid < 0 ∨ rgid > PAGING_MAX_SYMTBL_SZ)) : ret = 0 := by
  cases h with
  | refused hr => exact absurd hr hid
  | placed => rfl

/-- Out of memory: the region is placed all the same, the break moves twice, and the frames that were
left are in no list any more, unless the growth was refused before it took them. -/
theorem liballoc_outOfMemory (h : c.mm.Single a) {size regIndex : Nat} (hv : ValidRg (toInt regIndex))
    (hout : OutOfMemory c a (toInt size)) :
    ∃ l, liballoc c size regIndex = .ok (0,
      (if growthOverlaps a (growthAmt (toInt size)) then c else c.withFree []).place
        (advance (grownArea { a with vmFreergList := l } (growthAmt (toInt size))) (toInt size)) (toInt regIndex)
        (brkRegion a (toInt size))) := by
  obtain ⟨⟨ret, o, l, hsearch, hret⟩, hgap, hfew⟩ := hout
  have hgap' : ¬ toInt size ≤ gapSize a (toInt a.sbrk) := Int.not_le.mpr hgap
  have hfresh : freshPages a (toInt size) = grownPages a (growthAmt (toInt size)) := by
    simp only [freshPages, hsearch, hret, hgap', or_self, if_false]
  refine ⟨l, (liballoc_ok_iff h).mpr ?_⟩
  by_cases ho : growthOverlaps a (growthAmt (toInt size)) = true
  · have hpages : freshPages a (toInt size) = 0 := by rw [hfresh, grownPages, if_pos ho]
    have hplaced := AllocOutcome.placed (c := c) hv (.grow hsearch hret hgap') (by rw [hpages]; exact fun _ => .inl rfl)
    rw [hpages, Caller.mapRam_zero] at hplaced
    rw [if_pos ho]
    exact hplaced
  · have hpages : (c.dev .mram).freeFpList.length < freshPages a (toInt size) := by
      rw [hfresh, grownPages, if_neg ho]
      exact hfew
    have hplaced := AllocOutcome.placed (c := c) hv (.grow hsearch hret hgap') (fun hle => absurd hle (by omega))
    rw [Caller.mapRam, if_neg (by omega)] at hplaced
    rw [if_neg ho]
    exact hplaced

theorem growthAmt_lt (size : Int) : growthAmt size < 2147483648 := by
  unfold growthAmt pagingPageAlignsz alignUp
  exact toInt_lt _

theorem size_pos_of_growth {size : Int} (h₀ : -2147483648 ≤ size) (h : 0 < growthAmt size) : 0 < size := by
  by_contra hneg
  have hlow : -2147483648 ≤ pagingPageAlignsz size := by
    unfold pagingPageAlignsz alignUp
    exact toInt_lower _
  have hz : pagingPageAlignsz size ≤ 0 := alignUp_nonpos (by decide) h₀ (by unfold PAGING_PAGESZ; omega) (by omega)
  have hzz : growthAmt size ≤ 0 := alignUp_nonpos (by decide) hlow (by unfold PAGING_PAGESZ; omega) hz
  omega

theorem grown_sbrk_ne (a : VmAreaStruct) (l : List VmRgStruct) {inc size : Int} (h₀ : 0 < inc) (h₁ : inc < 2147483648)
    (h₂ : 0 < size) (h₃ : size < 2147483648) :
    (advance (grownArea { a with vmFreergList := l } inc) size).sbrk ≠ a.sbrk := by
  have hsbrk : (grownArea { a with vmFreergList := l } inc).sbrk = brkEnd a inc := by
    rw [grownArea]
    split
    · rfl
    · rfl
  show toULong ((grownArea { a with vmFreergList := l } inc).sbrk + toULong size) ≠ a.sbrk
  rw [hsbrk, brkEnd]
  unfold toULong
  omega

/-- `liballoc` is never atomic when memory runs out: it reports success, or does not return, and the
address space has changed. -/
theorem allocAtomic_never (h : c.mm.Single a) {size regIndex : Nat}
    (hid : ¬ (toInt regIndex < 0 ∨ toInt regIndex > PAGING_MAX_SYMTBL_SZ)) (hout : OutOfMemory c a (toInt size)) :
    ¬ AllocAtomic c size regIndex ∧ ∀ ret c', liballoc c size regIndex = .ok (ret, c') → ret = 0 ∧ c'.mm ≠ c.mm := by
  have hzero : ∀ ret c', liballoc c size regIndex = .ok (ret, c') → ret = 0 := fun ret c' hx =>
    ((liballoc_ok_iff h).mp hx).ret_eq hid
  refine ⟨fun ⟨ret, c', hx, hret, _⟩ => hret (hzero ret c' hx), fun ret c' hx => ⟨hzero ret c' hx, fun hmm => ?_⟩⟩
  have hv : ValidRg (toInt regIndex) := by
    cases (liballoc_ok_iff h).mp hx with
    | refused hr => exact absurd hr hid
    | placed hv => exact hv
  obtain ⟨l, hplaced⟩ := liballoc_outOfMemory h hv hout
  rw [hplaced] at hx
  cases hx
  have hgrow : 0 < growthAmt (toInt size) := by
    have hfew := hout.2.2
    by_contra hneg
    have hdiv : (growthAmt (toInt size)).tdiv PAGING_PAGESZ ≤ 0 := by
      have hle := Int.tdiv_le_tdiv (show (0 : Int) < PAGING_PAGESZ by decide) (show growthAmt (toInt size) ≤ 0 by omega)
      rwa [Int.zero_tdiv] at hle
    omega
  have harea := congrArg MmStruct.mmap hmm
  rw [h.mmap] at harea
  exact grown_sbrk_ne a l hgrow (growthAmt_lt _) (size_pos_of_growth (toInt_lower _) hgrow) (toInt_lt _)
    (congrArg VmAreaStruct.sbrk (List.cons.inj harea).1)

def smallCaller : Caller := (MemSys.boot 512 512).caller 0

theorem smallCaller_single : smallCaller.mm.Single ⟨0, 0, 0, 0, [⟨0, 0, 0⟩]⟩ := ⟨rfl, rfl⟩

theorem smallCaller_outOfMemory : OutOfMemory smallCaller ⟨0, 0, 0, 0, [⟨0, 0, 0⟩]⟩ (toInt 1000) :=
  ⟨⟨_, _, _, rfl, by decide⟩, by decide, by decide⟩

/-- A request for four frames where two are free. -/
theorem allocAtomic_never_small : ¬ AllocAtomic smallCaller 1000 0 :=
  (allocAtomic_never smallCaller_single (by decide) smallCaller_outOfMemory).1

/-- Two frames are lost: `liballoc` reports success and leaves no frame free. -/
theorem alloc_loses_frames : smallCaller.mm.Single ⟨0, 0, 0, 0, [⟨0, 0, 0⟩]⟩ ∧
    OutOfMemory smallCaller ⟨0, 0, 0, 0, [⟨0, 0, 0⟩]⟩ (toInt 1000) ∧
    (liballoc smallCaller 1000 0).toOption.any (fun x => x.1 = 0 ∧ (x.2.dev .mram).freeFpList = []) = true ∧
    ¬ AllocAtomic smallCaller 1000 0 := by
  refine ⟨smallCaller_single, smallCaller_outOfMemory, by decide, fun ⟨ret, c', hx, hret, _⟩ => ?_⟩
  exact hret (((liballoc_ok_iff smallCaller_single).mp hx).ret_eq (by decide))

/-! ## `pg_getpage` -/

/-- The process has no victim page, or the swap device no free frame. -/
def Short (c : Caller) : Prop := c.mm.fifoPgn = [] ∨ (c.dev .activeMswp).freeFpList = []

/-- Page `pgn` is not in RAM. -/
def Missing (c : Caller) (pgn : Int) : Prop := ¬ InRam (c.mm.pgd pgn.toNat)

/-- For a page that is not in RAM: on a shortage `pg_getpage` returns -1 and leaves everything as it was,
and it never works with a frame number that was not set. -/
def CleanFault (c : Caller) (pgn : Int) : Prop :=
  Missing c pgn → (Short c → ∃ fpn, pgGetpage c pgn = .ok (-1, fpn, c)) ∧ pgGetpage c pgn ≠ .error .uninit

/-- For a page that is not in RAM: a shortage is of victims, and the page is not marked swapped, or there is
no such page. -/
def ShortageNoticed (c : Caller) (pgn : Int) : Prop :=
  Missing c pgn → Short c → pgn < 0 ∨ pgn ≥ PAGING_MAX_PGN ∨
    (c.mm.fifoPgn = [] ∧ ¬ Swapped (c.mm.pgd pgn.toNat))

variable {dev : Dev → MemphyStruct} {mp : MemphyStruct}

theorem memphyRead_ne_uninit (hr : mp.rdmflg = true) (addr : Int) : memphyRead mp addr ≠ .error .uninit := by
  simp only [memphyRead, hr, if_true, storageGet]
  split
  · simp
  · simp

theorem memphyWrite_ne_uninit (hr : mp.rdmflg = true) (addr : Int) (data : BYTE) :
    memphyWrite mp addr data ≠ .error .uninit := by
  simp only [memphyWrite, hr, if_true, storageSet]
  split
  · simp
  · simp

/-- Devices stay random-access when one of them is replaced by a random-access one. -/
theorem random_update (hr : ∀ d, (dev d).rdmflg = true) (d : Dev) (hmp : mp.rdmflg = true) (d' : Dev) :
    (Function.update dev d mp d').rdmflg = true :=
  (Function.forall_update_iff dev fun _ mp => mp.rdmflg = true).mpr ⟨hmp, fun d' _ => hr d'⟩ d'

theorem swapCpPageLoop_ne_uninit (hr : ∀ d, (dev d).rdmflg = true) (src : Dev) (a : Nat) (dst : Dev) (b left : Nat) :
    swapCpPageLoop src a dst b left dev ≠ .error .uninit := by
  induction left generalizing dev with
  | zero => exact fun h => by cases h
  | succ left ih =>
    rw [swapCpPageLoop]
    refine Exec.bind_ne (memphyRead_ne_uninit (hr src) _) fun x hx => ?_
    obtain ⟨_, _, rfl⟩ := memphyRead_ok (hr src) hx
    simp only [Function.update_eq_self]
    refine Exec.bind_ne (memphyWrite_ne_uninit (hr dst) _ _) fun y hy => ?_
    obtain ⟨_, _, rfl⟩ := memphyWrite_ok (hr dst) hy
    apply ih
    exact random_update hr dst (hr dst)

theorem swapCpPage_ne_uninit (hr : ∀ d, (dev d).rdmflg = true) (src : Dev) (a : Nat) (dst : Dev) (b : Nat) :
    swapCpPage dev src a dst b ≠ .error .uninit :=
  Exec.bind_ne (swapCpPageLoop_ne_uninit hr src a dst b _) fun _ _ h => by cases h

theorem swapCpPageLoop_random {src dst : Dev} {a b left : Nat} {dev' : Dev → MemphyStruct}
    (hr : ∀ d, (dev d).rdmflg = true) (h : swapCpPageLoop src a dst b left dev = .ok dev') (d : Dev) :
    (dev' d).rdmflg = true := by
  induction left generalizing dev with
  | zero =>
    cases h
    exact hr d
  | succ left ih =>
    rw [swapCpPageLoop] at h
    obtain ⟨x, hx, h⟩ := Exec.bind_ok.mp h
    obtain ⟨_, _, rfl⟩ := memphyRead_ok (hr src) hx
    simp only [Function.update_eq_self] at h
    obtain ⟨y, hy, h⟩ := Exec.bind_ok.mp h
    obtain ⟨_, _, rfl⟩ := memphyWrite_ok (hr dst) hy
    refine ih ?_ h
    exact random_update hr dst (hr dst)

theorem swapCpPage_random (hr : ∀ d, (dev d).rdmflg = true) {src dst : Dev} {a b : Nat} {st : Int}
    {dev' : Dev → MemphyStruct} (hx : swapCpPage dev src a dst b = .ok (st, dev')) (d : Dev) :
    (dev' d).rdmflg = true := by
  obtain ⟨dev'', h, hret⟩ := Exec.bind_ok.mp hx
  cases hret
  exact swapCpPageLoop_random hr h d

theorem getPte_ne_uninit (mm : MmStruct) (pgn : Nat) : mm.getPte pgn ≠ .error .uninit := by
  rw [MmStruct.getPte]
  split
  · simp
  · simp

theorem setPte_ne_uninit (mm : MmStruct) (pgn : Nat) (pte : Word) : mm.setPte pgn pte ≠ .error .uninit := by
  rw [MmStruct.setPte]
  split
  · simp
  · simp

/-- With a victim and a free swap frame every frame number of the fault path is set. -/
theorem pgSwapIn_ne_uninit (hr : ∀ d, (c.dev d).rdmflg = true) {l rest : List Nat} {v s : Nat}
    (hq : c.mm.fifoPgn = l ++ [v]) (hs : (c.dev .activeMswp).freeFpList = s :: rest) (pgn : Nat) (pte : Word) :
    pgSwapIn c pgn pte ≠ .error .uninit := by
  simp only [pgSwapIn, findVictimPage_append hq, ne_eq, not_true_eq_false, if_false, Int.toNat_natCast,
    memphyGetFreefp, hs]
  have hr' : ∀ d, (Function.update c.dev .activeMswp { c.dev .activeMswp with freeFpList := rest } d).rdmflg = true :=
    random_update hr .activeMswp (hr .activeMswp)
  refine Exec.bind_ne (getPte_ne_uninit _ _) fun _ _ => ?_
  refine Exec.bind_ne (swapCpPage_ne_uninit hr' _ _ _ _) fun x hx => ?_
  refine Exec.bind_ne (swapCpPage_ne_uninit (swapCpPage_random hr' hx) _ _ _ _) fun _ _ => ?_
  refine Exec.bind_ne (setPte_ne_uninit _ _ _) fun _ _ => ?_
  refine Exec.bind_ne (getPte_ne_uninit _ _) fun _ _ => ?_
  exact Exec.bind_ne (setPte_ne_uninit _ _ _) fun _ _ h => by cases h

theorem pgSwapIn_full {l : List Nat} {v : Nat} (hq : c.mm.fifoPgn = l ++ [v])
    (hs : (c.dev .activeMswp).freeFpList = []) (pgn : Nat) (pte : Word) :
    pgSwapIn c pgn pte = .error (if v < PAGING_MAX_PGN then .uninit else .pgd v) := by
  simp only [pgSwapIn, findVictimPage_append hq, ne_eq, not_true_eq_false, if_false, Int.toNat_natCast,
    memphyGetFreefp, hs, MmStruct.getPte]
  split
  · rfl
  · rfl

theorem pgGetpage_absent {pgn : Nat} (hpgn : pgn < PAGING_MAX_PGN) (hp : pagingPagePresent (c.mm.pgd pgn) = false) :
    pgGetpage c pgn = (pgSwapIn c pgn (c.mm.pgd pgn) >>= fun x =>
      if x.1 ≠ 0 then .ok (-1, none, x.2)
      else x.2.mm.getPte pgn >>= fun pte => .ok (0, some (pagingFpn pte), x.2)) := by
  have hrange : ¬ ((pgn : Int) < 0 ∨ (pgn : Int) ≥ PAGING_MAX_PGN) := by omega
  simp only [pgGetpage, hrange, if_false, Int.toNat_natCast, MmStruct.getPte, hpgn, if_true, Exec.ok_bind, hp,
    Bool.not_false]
  rfl

theorem pgGetpage_noVictim {pgn : Nat} (hpgn : pgn < PAGING_MAX_PGN) (hp : pagingPagePresent (c.mm.pgd pgn) = false)
    (hq : c.mm.fifoPgn = []) : pgGetpage c pgn = .ok (-1, none, c) := by
  have hin : pgSwapIn c pgn (c.mm.pgd pgn) = .ok (-1, c) := by
    simp only [pgSwapIn, findVictimPage_nil hq]
    rfl
  rw [pgGetpage_absent hpgn hp, hin]
  rfl

theorem pgGetpage_full {pgn v : Nat} {l : List Nat} (hpgn : pgn < PAGING_MAX_PGN)
    (hp : pagingPagePresent (c.mm.pgd pgn) = false) (hq : c.mm.fifoPgn = l ++ [v])
    (hs : (c.dev .activeMswp).freeFpList = []) :
    pgGetpage c pgn = .error (if v < PAGING_MAX_PGN then .uninit else .pgd v) := by
  rw [pgGetpage_absent hpgn hp, pgSwapIn_full hq hs, Exec.error_bind]

/-- With a victim and a free swap frame the call works with frame numbers it has. -/
theorem pgGetpage_ne_uninit (hr : ∀ d, (c.dev d).rdmflg = true) {pgn v s : Nat} {l rest : List Nat}
    (hpgn : pgn < PAGING_MAX_PGN) (hp : pagingPagePresent (c.mm.pgd pgn) = false) (hq : c.mm.fifoPgn = l ++ [v])
    (hs : (c.dev .activeMswp).freeFpList = s :: rest) : pgGetpage c pgn ≠ .error .uninit := by
  rw [pgGetpage_absent hpgn hp]
  refine Exec.bind_ne (pgSwapIn_ne_uninit hr hq hs _ _) fun x _ => ?_
  split
  · simp
  · exact Exec.bind_ne (getPte_ne_uninit _ _) fun _ _ h => by cases h

theorem shortageNoticed_iff {pgn : Nat} (hpgn : pgn < PAGING_MAX_PGN) (hmiss : Missing c pgn) :
    ShortageNoticed c pgn ↔ (Short c → c.mm.fifoPgn = [] ∧ ¬ Swapped (c.mm.pgd pgn)) := by
  constructor
  · intro hnoticed hshort
    rcases hnoticed hmiss hshort with hneg | hbig | hno
    · omega
    · omega
    · exact hno
  · intro hno _ hshort
    exact .inr (.inr (hno hshort))

/-- `pg_getpage` fails cleanly if and only if it notices the shortage. -/
theorem cleanFault_iff (hd : DevOk c.dev) (pgn : Int) : CleanFault c pgn ↔ ShortageNoticed c pgn := by
  by_cases hrange : pgn < 0 ∨ pgn ≥ PAGING_MAX_PGN
  · have hget : pgGetpage c pgn = .ok (-1, none, c) := by
      rw [pgGetpage, if_pos hrange]
      rfl
    refine iff_of_true (fun _ => ?_) fun _ _ => ?_
    · rw [hget]
      exact ⟨fun _ => ⟨none, rfl⟩, by simp⟩
    · rcases hrange with hneg | hbig
      · exact .inl hneg
      · exact .inr (.inl hbig)
  by_cases hmiss : Missing c pgn
  swap
  · exact iff_of_true (fun h => absurd h hmiss) fun h => absurd h hmiss
  rw [not_or] at hrange
  obtain ⟨n, rfl⟩ := Int.eq_ofNat_of_zero_le (Int.not_lt.mp hrange.1)
  have hn : n < PAGING_MAX_PGN := by omega
  rw [shortageNoticed_iff hn hmiss, CleanFault, imp_iff_right hmiss]
  cases hp : pagingPagePresent (c.mm.pgd n) with
  | true =>
    -- a page that was swapped out is taken for one in RAM
    have hs : Swapped (c.mm.pgd n) := ((present_iff _).mp hp).resolve_left hmiss
    rw [(pgGetpage_ok_iff hd hn).mpr ⟨.hit hp, rfl⟩]
    constructor
    · intro hclean hshort
      obtain ⟨_, h⟩ := hclean.1 hshort
      cases h
    · intro hno
      exact ⟨fun hshort => absurd hs (hno hshort).2, by simp⟩
  | false =>
    have hs : ¬ Swapped (c.mm.pgd n) := fun hs => by
      rw [hs.1] at hp
      cases hp
    rcases List.eq_nil_or_concat c.mm.fifoPgn with hq | ⟨l, v, hq⟩
    · rw [pgGetpage_noVictim hn hp hq]
      exact iff_of_true ⟨fun _ => ⟨none, rfl⟩, by simp⟩ fun _ => ⟨hq, hs⟩
    rw [List.concat_eq_append] at hq
    have hne : c.mm.fifoPgn ≠ [] := by
      rw [hq]
      exact List.append_ne_nil_of_right_ne_nil _ (List.cons_ne_nil _ _)
    cases hf : (c.dev .activeMswp).freeFpList with
    | nil =>
      rw [pgGetpage_full hn hp hq hf]
      refine iff_of_false (fun hclean => ?_) fun hno => hne (hno (.inr hf)).1
      obtain ⟨_, h⟩ := hclean.1 (.inr hf)
      cases h
    | cons s rest =>
      have hshort : ¬ Short c := by
        intro hshort
        rcases hshort with h | h
        · exact hne h
        · rw [hf] at h
          cases h
      exact iff_of_true ⟨fun h => absurd h hshort, pgGetpage_ne_uninit hd.random hn hp hq hf⟩ fun h => absurd h hshort

/-- One RAM frame, which page 0 is in, and one swap frame, which is not free. -/
def fullSwap : Caller where
  mm :=
    { pgd := fun p => if p = 0 then pteSetFpn 0 0 else 0
      mmap := [⟨0, 0, 256, 256, []⟩]
      symrgtbl := fun i => if i = 0 then ⟨0, 0, 256⟩ else ⟨0, 0, 0⟩
      fifoPgn := [0] }
  dev := fun _ => ⟨fun _ => 0, 256, true, 0, []⟩

theorem fullSwap_devOk : DevOk fullSwap.dev where
  random := fun _ => rfl
  maxsz := fun d => by cases d <;> decide
  free := fun d => by cases d <;> decide

/-- A missing page of a new process, which has no victim. -/
theorem cleanFault_iff_missing : Missing smallCaller 5 ∧ Short smallCaller ∧ ShortageNoticed smallCaller 5 ∧
    (CleanFault smallCaller 5 ↔ ShortageNoticed smallCaller 5) := by
  have hmiss : Missing smallCaller 5 := by
    show ¬ InRam (smallCaller.mm.pgd 5)
    decide
  have hnot : ¬ Swapped (smallCaller.mm.pgd 5) := by decide
  exact ⟨hmiss, .inl rfl, fun _ _ => .inr (.inr ⟨rfl, hnot⟩),
    cleanFault_iff (boot_ok (by decide) (by decide)).devOk 5⟩

/-- A frame number that was never set: no swap frame is free, and the victim is copied all the same. -/
theorem fault_uses_unset_frame : DevOk fullSwap.dev ∧ Missing fullSwap 5 ∧ Short fullSwap ∧
    pgGetpage fullSwap 5 = .error .uninit ∧ ¬ CleanFault fullSwap 5 := by
  have hmiss : Missing fullSwap 5 := by
    show ¬ InRam (fullSwap.mm.pgd 5)
    decide
  have hget : pgGetpage fullSwap (5 : Nat) = .error .uninit := by
    rw [pgGetpage_full (by decide) (by decide) (l := []) (v := 0) rfl rfl]
    rfl
  exact ⟨fullSwap_devOk, hmiss, .inr rfl, hget, fun hclean => (hclean hmiss).2 hget⟩

end SimpleOs.Mm
