import SimpleOs.Mm.AllocSpec

/-!
# What `libread` and `libwrite` do

* `DevOk` : both devices are random-access, of a size an `int` holds, with free frames they have;
* `exchange` : the two page copies of a fault; `Caller.swapIn` : the page tables after it;
* `PageOutcome c pgn fpn c'` : the ways `pg_getpage` reaches page `pgn` in frame `fpn`;
* `regionAddr_emod`, `paging_congr` : the address an access computes, modulo the size of the address space;
* `libread_ok_iff`, `libwrite_ok_iff` : the calls.
-/

namespace SimpleOs.Mm
open CInt

structure DevOk (dev : Dev → MemphyStruct) : Prop where
  random : ∀ d, (dev d).rdmflg = true
  maxsz : ∀ d, (dev d).maxsz < 2 ^ 31
  free : ∀ d, ∀ f ∈ (dev d).freeFpList, (f + 1) * PAGING_PAGESZ ≤ (dev d).maxsz

/-! ## A page fault -/

/-- The swap frames after the page in RAM frame `vf` went to slot `s`. -/
def evicted (dev : Dev → MemphyStruct) (vf s : Nat) : Nat → BYTE :=
  copyFrame (dev .mram).storage vf (dev .activeMswp).storage s

/-- The devices after a fault: the page in RAM frame `vf` went to slot `s`, taken from the free list
`s :: rest`, and slot `tgt` was copied to frame `vf`. -/
def exchange (dev : Dev → MemphyStruct) (vf s tgt : Nat) (rest : List Nat) : Dev → MemphyStruct
  | .mram => { dev .mram with storage := copyFrame (evicted dev vf s) tgt (dev .mram).storage vf }
  | .activeMswp => { dev .activeMswp with storage := evicted dev vf s, freeFpList := rest }

def Caller.swapIn (c : Caller) (pgn : Nat) (l : List Nat) (v s : Nat) (rest : List Nat) : Caller where
  mm :=
    let pgd := Function.update c.mm.pgd v (pteSetSwap (c.mm.pgd v) 0 s)
    { c.mm with
      pgd := Function.update pgd pgn (pteSetFpn (pgd pgn) (pagingFpn (c.mm.pgd v)))
      fifoPgn := pgn :: l }
  dev := exchange c.dev (pagingFpn (c.mm.pgd v)) s (pagingPteSwp (c.mm.pgd pgn)) rest

theorem Caller.swapIn_pgd_self (c : Caller) {pgn v : Nat} (hne : pgn ≠ v) (l : List Nat) (s : Nat) (rest : List Nat) :
    (c.swapIn pgn l v s rest).mm.pgd pgn = pteSetFpn (c.mm.pgd pgn) (pagingFpn (c.mm.pgd v)) := by
  simp only [Caller.swapIn, Function.update_self, Function.update_of_ne hne]

theorem Caller.swapIn_pgd_victim (c : Caller) {pgn v : Nat} (hne : pgn ≠ v) (l : List Nat) (s : Nat)
    (rest : List Nat) : (c.swapIn pgn l v s rest).mm.pgd v = pteSetSwap (c.mm.pgd v) 0 s := by
  simp only [Caller.swapIn, Function.update_of_ne (Ne.symm hne), Function.update_self]

theorem Caller.swapIn_pgd_of_ne (c : Caller) {pgn v p : Nat} (hp : p ≠ pgn) (hv : p ≠ v) (l : List Nat) (s : Nat)
    (rest : List Nat) : (c.swapIn pgn l v s rest).mm.pgd p = c.mm.pgd p := by
  simp only [Caller.swapIn, Function.update_of_ne hp, Function.update_of_ne hv]

@[simp] theorem Caller.swapIn_fifoPgn (c : Caller) (pgn : Nat) (l : List Nat) (v s : Nat) (rest : List Nat) :
    (c.swapIn pgn l v s rest).mm.fifoPgn = pgn :: l := rfl

/-- What `pg_getpage` can do: the frame of page `pgn`, `none` on failure, and the caller. -/
inductive PageOutcome (c : Caller) (pgn : Nat) : Option Nat → Caller → Prop
  | hit (hp : pagingPagePresent (c.mm.pgd pgn) = true) : PageOutcome c pgn (some (pagingFpn (c.mm.pgd pgn))) c
  | noVictim (hp : pagingPagePresent (c.mm.pgd pgn) = false) (hq : c.mm.fifoPgn = []) : PageOutcome c pgn none c
  | swapIn {l : List Nat} {v s : Nat} {rest : List Nat} (hp : pagingPagePresent (c.mm.pgd pgn) = false)
      (hq : c.mm.fifoPgn = l ++ [v]) (hv : v < PAGING_MAX_PGN)
      (hs : (c.dev .activeMswp).freeFpList = s :: rest)
      (hvf : (pagingFpn (c.mm.pgd v) + 1) * PAGING_PAGESZ ≤ (c.dev .mram).maxsz)
      (ht : (pagingPteSwp (c.mm.pgd pgn) + 1) * PAGING_PAGESZ ≤ (c.dev .activeMswp).maxsz) :
      PageOutcome c pgn (some (pagingFpn (c.mm.pgd v))) (c.swapIn pgn l v s rest)

variable {c c' : Caller} {dev : Dev → MemphyStruct}

theorem pagingFpn_lt (pte : Word) : pagingFpn pte < 2 ^ 13 := by
  rw [pagingFpn_eq]
  exact Nat.mod_lt _ (by decide)

theorem pagingPteSwp_lt (pte : Word) : pagingPteSwp pte < 2 ^ 21 := by
  rw [pagingPteSwp_eq]
  exact Nat.mod_lt _ (by decide)

theorem pagingPgn_lt (x : Int) : pagingPgn x < PAGING_MAX_PGN := by
  have h := pagingPgn_eq x
  have hmax : PAGING_MAX_PGN = 16384 := rfl
  omega

theorem pagingOffst_lt (x : Int) : pagingOffst x < PAGING_PAGESZ := by
  have h := pagingOffst_eq x
  unfold PAGING_PAGESZ
  omega

theorem findVictimPageLoop_append (pg : Nat) (pgNext l : List Nat) (v : Nat) (h : pg :: pgNext = l ++ [v]) :
    findVictimPageLoop pg pgNext = (l, v) := by
  induction pgNext generalizing pg l with
  | nil =>
    cases l with
    | nil => cases h; rfl
    | cons _ l => cases l <;> cases h
  | cons next pgNext ih =>
    cases l with
    | nil => cases h
    | cons x l =>
      rw [List.cons_append, List.cons.injEq] at h
      rw [findVictimPageLoop, ih next l h.2, h.1]

theorem findVictimPage_nil {mm : MmStruct} (h : mm.fifoPgn = []) : findVictimPage mm = (-1, -1, mm) := by
  rw [findVictimPage, h]

theorem findVictimPage_append {mm : MmStruct} {l : List Nat} {v : Nat} (h : mm.fifoPgn = l ++ [v]) :
    findVictimPage mm = (0, (v : Int), { mm with fifoPgn := l }) := by
  rw [findVictimPage]
  cases hq : mm.fifoPgn with
  | nil => rw [hq] at h; cases l <;> cases h
  | cons pg pgNext =>
    rw [hq] at h
    simp only [findVictimPageLoop_append pg pgNext l v h]

theorem DevOk.swp_lt (h : DevOk dev) {s : Nat} (hs : (s + 1) * PAGING_PAGESZ ≤ (dev .activeMswp).maxsz) :
    s < 2 ^ 23 := by
  have := h.maxsz .activeMswp
  unfold PAGING_PAGESZ at hs
  omega

theorem swapCpPage_exchange (h : DevOk dev) {vf s tgt : Nat} {rest : List Nat} (hvf : vf < 2 ^ 13)
    (htgt : tgt < 2 ^ 21) (hs : (dev .activeMswp).freeFpList = s :: rest) {x : Dev → MemphyStruct} :
    (∃ r₁ dev₁ r₂, swapCpPage (Function.update dev .activeMswp { dev .activeMswp with freeFpList := rest }) .mram vf
        .activeMswp s = .ok (r₁, dev₁) ∧ swapCpPage dev₁ .activeMswp tgt .mram vf = .ok (r₂, x)) ↔
      ((vf + 1) * PAGING_PAGESZ ≤ (dev .mram).maxsz ∧ (tgt + 1) * PAGING_PAGESZ ≤ (dev .activeMswp).maxsz) ∧
      x = exchange dev vf s tgt rest := by
  have hsz : (s + 1) * PAGING_PAGESZ ≤ (dev .activeMswp).maxsz := h.free _ s (hs ▸ List.mem_cons_self ..)
  have hs23 := h.swp_lt hsz
  -- the devices with slot `s` taken, and between the two copies
  let taken : Dev → MemphyStruct
    | .mram => dev .mram
    | .activeMswp => { dev .activeMswp with freeFpList := rest }
  let mid : Dev → MemphyStruct
    | .mram => dev .mram
    | .activeMswp => { dev .activeMswp with storage := evicted dev vf s, freeFpList := rest }
  have htaken : Function.update dev .activeMswp { dev .activeMswp with freeFpList := rest } = taken := by
    funext d; cases d <;> rfl
  have hmid : Function.update taken .activeMswp (mid .activeMswp) = mid := by funext d; cases d <;> rfl
  have hex : Function.update mid .mram (exchange dev vf s tgt rest .mram) = exchange dev vf s tgt rest := by
    funext d; cases d <;> rfl
  have h₁ : ∀ y, swapCpPage taken .mram vf .activeMswp s = .ok y ↔
      (vf + 1) * PAGING_PAGESZ ≤ (dev .mram).maxsz ∧ y = (0, mid) := by
    intro y
    rw [swapCpPage_ok_iff Dev.mram .activeMswp (by omega) hs23 (show (taken .mram).rdmflg = true from h.random .mram)
      (show (taken .activeMswp).rdmflg = true from h.random .activeMswp), ← hmid]
    exact ⟨fun ⟨⟨h, _⟩, e⟩ => ⟨h, e⟩, fun ⟨h, e⟩ => ⟨⟨h, hsz⟩, e⟩⟩
  have h₂ : ∀ y, swapCpPage mid .activeMswp tgt .mram vf = .ok y ↔
      ((tgt + 1) * PAGING_PAGESZ ≤ (dev .activeMswp).maxsz ∧ (vf + 1) * PAGING_PAGESZ ≤ (dev .mram).maxsz) ∧
      y = (0, exchange dev vf s tgt rest) := by
    intro y
    rw [swapCpPage_ok_iff Dev.activeMswp .mram (by omega) (by omega)
      (show (mid .activeMswp).rdmflg = true from h.random .activeMswp)
      (show (mid .mram).rdmflg = true from h.random .mram), ← hex]
    rfl
  rw [htaken]
  constructor
  · rintro ⟨r₁, dev₁, r₂, hx₁, hx₂⟩
    obtain ⟨hr, he⟩ := (h₁ _).mp hx₁
    cases he
    obtain ⟨ht, he⟩ := (h₂ _).mp hx₂
    cases he
    exact ⟨⟨hr, ht.1⟩, rfl⟩
  · rintro ⟨⟨hr, ht⟩, rfl⟩
    exact ⟨0, mid, 0, (h₁ _).mpr ⟨hr, rfl⟩, (h₂ _).mpr ⟨⟨ht, hr⟩, rfl⟩⟩

theorem pgSwapIn_ok_iff (h : DevOk c.dev) {pgn : Nat} (hpgn : pgn < PAGING_MAX_PGN) {l : List Nat} {v : Nat}
    (hq : c.mm.fifoPgn = l ++ [v]) {ret : Int} :
    pgSwapIn c pgn (c.mm.pgd pgn) = .ok (ret, c') ↔
      ∃ s rest, v < PAGING_MAX_PGN ∧ (c.dev .activeMswp).freeFpList = s :: rest ∧
        (pagingFpn (c.mm.pgd v) + 1) * PAGING_PAGESZ ≤ (c.dev .mram).maxsz ∧
        (pagingPteSwp (c.mm.pgd pgn) + 1) * PAGING_PAGESZ ≤ (c.dev .activeMswp).maxsz ∧
        ret = 0 ∧ c' = c.swapIn pgn l v s rest := by
  simp only [pgSwapIn, findVictimPage_append hq, ne_eq, not_true_eq_false, if_false, Int.toNat_natCast,
    MmStruct.getPte]
  by_cases hv : v < PAGING_MAX_PGN
  · simp only [hv, if_true, Exec.ok_bind, memphyGetFreefp, true_and]
    cases hs : (c.dev .activeMswp).freeFpList with
    | nil => simp
    | cons s rest =>
      have hex : ∀ x, _ ↔ _ := fun x => swapCpPage_exchange h (pagingFpn_lt (c.mm.pgd v))
        (pagingPteSwp_lt (c.mm.pgd pgn)) hs (x := x)
      simp only [MmStruct.setPte, hv, hpgn, if_true, Exec.ok_bind, Exec.bind_ok, List.cons.injEq]
      constructor
      · rintro ⟨⟨r₁, dev₁⟩, h₁, ⟨r₂, dev₂⟩, h₂, hx⟩
        obtain ⟨hb, rfl⟩ := (hex dev₂).mp ⟨r₁, dev₁, r₂, h₁, h₂⟩
        cases hx
        exact ⟨s, rest, ⟨rfl, rfl⟩, hb.1, hb.2, rfl, rfl⟩
      · rintro ⟨s', rest', ⟨rfl, rfl⟩, hvf, ht, rfl, rfl⟩
        obtain ⟨r₁, dev₁, r₂, h₁, h₂⟩ := (hex _).mpr ⟨⟨hvf, ht⟩, rfl⟩
        exact ⟨_, h₁, _, h₂, rfl⟩
  · simp [hv]

theorem swapIn_fpn (c : Caller) (pgn : Nat) (l : List Nat) (v s : Nat) (rest : List Nat) :
    pagingFpn ((c.swapIn pgn l v s rest).mm.pgd pgn) = pagingFpn (c.mm.pgd v) := by
  simp only [Caller.swapIn, Function.update_self]
  rw [pagingFpn_setFpn, Nat.mod_eq_of_lt (pagingFpn_lt _)]

/-- `pg_getpage` finds a resident page, fails without a victim, or swaps one page out. -/
theorem pgGetpage_ok_iff (h : DevOk c.dev) {pgn : Nat} (hpgn : pgn < PAGING_MAX_PGN) {ret : Int}
    {fpn : Option Nat} :
    pgGetpage c pgn = .ok (ret, fpn, c') ↔
      PageOutcome c pgn fpn c' ∧ ret = if fpn.isSome then 0 else -1 := by
  have hrange : ¬ ((pgn : Int) < 0 ∨ (pgn : Int) ≥ PAGING_MAX_PGN) := by omega
  simp only [pgGetpage, hrange, if_false, Int.toNat_natCast, MmStruct.getPte, hpgn, if_true, Exec.ok_bind]
  cases hp : pagingPagePresent (c.mm.pgd pgn) with
  | true =>
    simp only [Bool.not_true, Bool.false_eq_true, if_false, Exec.pure_eq_ok, Except.ok.injEq, Prod.mk.injEq]
    constructor
    · rintro ⟨rfl, rfl, rfl⟩
      exact ⟨.hit hp, rfl⟩
    · rintro ⟨hpage, hret⟩
      cases hpage with
      | hit => exact ⟨hret.symm, rfl, rfl⟩
      | noVictim hp' => rw [hp] at hp'; cases hp'
      | swapIn hp' => rw [hp] at hp'; cases hp'
  | false =>
    simp only [Bool.not_false, if_true]
    rcases List.eq_nil_or_concat c.mm.fifoPgn with hq | ⟨l, v, hq⟩
    · simp only [pgSwapIn, findVictimPage_nil hq, ne_eq, show ¬ (-1 : Int) = 0 by decide, not_false_eq_true,
        if_true, Exec.pure_eq_ok, Exec.ok_bind, Except.ok.injEq, Prod.mk.injEq]
      constructor
      · rintro ⟨rfl, rfl, rfl⟩
        exact ⟨.noVictim hp hq, rfl⟩
      · rintro ⟨hpage, hret⟩
        cases hpage with
        | hit hp' => rw [hp] at hp'; cases hp'
        | noVictim => exact ⟨hret.symm, rfl, rfl⟩
        | swapIn _ hq' => rw [hq] at hq'; simp at hq'
    · rw [List.concat_eq_append] at hq
      simp only [Exec.bind_ok]
      constructor
      · rintro ⟨⟨r, c''⟩, hx, hret⟩
        obtain ⟨s, rest, hv, hs, hvf, ht, rfl, rfl⟩ := (pgSwapIn_ok_iff h hpgn hq).mp hx
        simp only [ne_eq, not_true_eq_false, if_false, Exec.pure_eq_ok, swapIn_fpn, Except.ok.injEq,
          Prod.mk.injEq] at hret
        obtain ⟨rfl, rfl, rfl⟩ := hret
        exact ⟨.swapIn hp hq hv hs hvf ht, rfl⟩
      · rintro ⟨hpage, hret⟩
        cases hpage with
        | hit hp' => rw [hp] at hp'; cases hp'
        | noVictim _ hq' => rw [hq] at hq'; simp at hq'
        | swapIn _ hq' hv hs hvf ht =>
          cases List.append_inj_left' (hq.symm.trans hq') rfl
          cases List.append_inj_right' (hq.symm.trans hq') rfl
          refine ⟨_, (pgSwapIn_ok_iff h hpgn hq).mpr ⟨_, _, hv, hs, hvf, ht, rfl, rfl⟩, ?_⟩
          simp only [ne_eq, not_true_eq_false, if_false, if_true, Exec.pure_eq_ok, swapIn_fpn, hret,
            Option.isSome_some]

/-! ## `libread` and `libwrite` -/

def accessAddr (mm : MmStruct) (rgid offset : Int) : Int := regionAddr (mm.symrgtbl rgid.toNat) offset

def accessPgn (mm : MmStruct) (rgid offset : Int) : Nat := pagingPgn (accessAddr mm rgid offset)

theorem accessPgn_lt (mm : MmStruct) (rgid offset : Int) : accessPgn mm rgid offset < PAGING_MAX_PGN := pagingPgn_lt _

/-- The page an address is on, and its offset in it, modulo the size of the address space. -/
theorem paging_congr {x y : Int} (h : x % 4194304 = y % 4194304) :
    pagingPgn x = pagingPgn y ∧ pagingOffst x = pagingOffst y := by
  have := pagingPgn_eq x
  have := pagingPgn_eq y
  have := pagingOffst_eq x
  have := pagingOffst_eq y
  omega

theorem regionAddr_emod (rg : VmRgStruct) (offset : Int) :
    regionAddr rg offset % 4194304 = (rg.rgStart + offset) % 4194304 := by
  unfold regionAddr toInt toULong
  omega

/-- The RAM address of an access whose page is in frame `fpn`. -/
def accessPhy (mm : MmStruct) (rgid offset : Int) (fpn : Nat) : Nat :=
  fpn * PAGING_PAGESZ + pagingOffst (accessAddr mm rgid offset)

inductive ReadOutcome (c : Caller) (rgid offset : Int) : Int → Option BYTE → Caller → Prop
  | refused (h : rgid < 0 ∨ rgid > PAGING_MAX_SYMTBL_SZ) : ReadOutcome c rgid offset (-1) none c
  | noPage {c' : Caller} (hv : ValidRg rgid) (hp : PageOutcome c (accessPgn c.mm rgid offset) none c') :
      ReadOutcome c rgid offset 0 none c'
  | byte {c' : Caller} {fpn : Nat} (hv : ValidRg rgid)
      (hp : PageOutcome c (accessPgn c.mm rgid offset) (some fpn) c')
      (hb : accessPhy c.mm rgid offset fpn < (c'.dev .mram).maxsz) :
      ReadOutcome c rgid offset 0 (some ((c'.dev .mram).storage (accessPhy c.mm rgid offset fpn))) c'

def Caller.store (c : Caller) (addr : Nat) (value : BYTE) : Caller :=
  c.setDev .mram { c.dev .mram with storage := Function.update (c.dev .mram).storage addr value }

theorem Caller.store_storage_self (c : Caller) (addr : Nat) (value : BYTE) :
    ((c.store addr value).dev .mram).storage addr = value := by
  rw [Caller.store, Caller.setDev_dev_self]
  exact Function.update_self ..

theorem Caller.store_storage_of_ne (c : Caller) {k : Dev} {addr x : Nat} (value : BYTE) (h : ¬ (k = .mram ∧ x = addr)) :
    ((c.store addr value).dev k).storage x = (c.dev k).storage x := by
  cases k with
  | mram =>
    rw [Caller.store, Caller.setDev_dev_self]
    exact Function.update_of_ne (fun hx => h ⟨rfl, hx⟩) ..
  | activeMswp => rw [Caller.store, Caller.setDev_mram_swp]

inductive WriteOutcome (c : Caller) (rgid offset : Int) (value : BYTE) : Int → Caller → Prop
  | refused (h : rgid < 0 ∨ rgid > PAGING_MAX_SYMTBL_SZ) : WriteOutcome c rgid offset value (-1) c
  | noPage {c' : Caller} (hv : ValidRg rgid) (hp : PageOutcome c (accessPgn c.mm rgid offset) none c') :
      WriteOutcome c rgid offset value 0 c'
  | byte {c' : Caller} {fpn : Nat} (hv : ValidRg rgid)
      (hp : PageOutcome c (accessPgn c.mm rgid offset) (some fpn) c')
      (hb : accessPhy c.mm rgid offset fpn < (c'.dev .mram).maxsz) :
      WriteOutcome c rgid offset value 0 (c'.store (accessPhy c.mm rgid offset fpn) value)

theorem PageOutcome.fpn_lt {pgn fpn : Nat} (h : PageOutcome c pgn (some fpn) c') : fpn < 2 ^ 13 := by
  cases h with
  | hit => exact pagingFpn_lt _
  | swapIn => exact pagingFpn_lt _

theorem PageOutcome.random (h : DevOk c.dev) {pgn : Nat} {fpn : Option Nat} (hp : PageOutcome c pgn fpn c') :
    (c'.dev .mram).rdmflg = true := by
  cases hp with
  | hit => exact h.random .mram
  | noVictim => exact h.random .mram
  | swapIn => exact h.random .mram

theorem phyAddr_eq {fpn off : Nat} (hf : fpn < 2 ^ 13) (ho : off < PAGING_PAGESZ) :
    phyAddr fpn off = ((fpn * PAGING_PAGESZ + off : Nat) : Int) := cellAddr_eq (by omega) ho

theorem pgGetval_ok_iff (h : DevOk c.dev) {addr ret : Int} {data : Option BYTE} :
    pgGetval c addr = .ok (ret, data, c') ↔
      (PageOutcome c (pagingPgn addr) none c' ∧ ret = -1 ∧ data = none) ∨
      ∃ fpn, PageOutcome c (pagingPgn addr) (some fpn) c' ∧
        fpn * PAGING_PAGESZ + pagingOffst addr < (c'.dev .mram).maxsz ∧ ret = 0 ∧
        data = some ((c'.dev .mram).storage (fpn * PAGING_PAGESZ + pagingOffst addr)) := by
  simp only [pgGetval, Exec.bind_ok]
  constructor
  · rintro ⟨⟨r, fpn, c''⟩, hx, hret⟩
    obtain ⟨hp, rfl⟩ := (pgGetpage_ok_iff h (pagingPgn_lt addr)).mp hx
    cases fpn with
    | none =>
      cases hret
      exact .inl ⟨hp, rfl, rfl⟩
    | some fpn =>
      simp only [Option.isSome_some, if_true, ne_eq, not_true_eq_false, if_false, Exec.bind_ok,
        phyAddr_eq hp.fpn_lt (pagingOffst_lt addr)] at hret
      obtain ⟨y, hy, hret⟩ := hret
      obtain ⟨-, hb, rfl⟩ := memphyRead_ok (hp.random h) hy
      cases hret
      rw [Caller.setDev_self]
      exact .inr ⟨fpn, hp, Int.ofNat_lt.mp hb, rfl, rfl⟩
  · rintro (⟨hp, rfl, rfl⟩ | ⟨fpn, hp, hb, rfl, rfl⟩)
    · exact ⟨_, (pgGetpage_ok_iff h (pagingPgn_lt addr)).mpr ⟨hp, rfl⟩, rfl⟩
    · refine ⟨_, (pgGetpage_ok_iff h (pagingPgn_lt addr)).mpr ⟨hp, rfl⟩, ?_⟩
      have hread : memphyRead (c'.dev .mram) _ = _ :=
        memphyRead_random (hp.random h) (by omega) (Int.ofNat_lt.mpr hb)
      simp only [Option.isSome_some, if_true, ne_eq, not_true_eq_false, if_false,
        phyAddr_eq hp.fpn_lt (pagingOffst_lt addr), hread, Exec.ok_bind, Exec.pure_eq_ok, Caller.setDev_self,
        Int.toNat_natCast]

theorem pgSetval_ok_iff (h : DevOk c.dev) {addr ret : Int} {value : BYTE} :
    pgSetval c addr value = .ok (ret, c') ↔
      (PageOutcome c (pagingPgn addr) none c' ∧ ret = -1) ∨
      ∃ fpn c₁, PageOutcome c (pagingPgn addr) (some fpn) c₁ ∧
        fpn * PAGING_PAGESZ + pagingOffst addr < (c₁.dev .mram).maxsz ∧ ret = 0 ∧
        c' = c₁.store (fpn * PAGING_PAGESZ + pagingOffst addr) value := by
  simp only [pgSetval, Exec.bind_ok]
  constructor
  · rintro ⟨⟨r, fpn, c''⟩, hx, hret⟩
    obtain ⟨hp, rfl⟩ := (pgGetpage_ok_iff h (pagingPgn_lt addr)).mp hx
    cases fpn with
    | none =>
      cases hret
      exact .inl ⟨hp, rfl⟩
    | some fpn =>
      simp only [Option.isSome_some, if_true, ne_eq, not_true_eq_false, if_false, Exec.bind_ok,
        phyAddr_eq hp.fpn_lt (pagingOffst_lt addr)] at hret
      obtain ⟨y, hy, hret⟩ := hret
      obtain ⟨-, hb, rfl⟩ := memphyWrite_ok (hp.random h) hy
      cases hret
      exact .inr ⟨fpn, c'', hp, Int.ofNat_lt.mp hb, rfl, rfl⟩
  · rintro (⟨hp, rfl⟩ | ⟨fpn, c₁, hp, hb, rfl, rfl⟩)
    · exact ⟨_, (pgGetpage_ok_iff h (pagingPgn_lt addr)).mpr ⟨hp, rfl⟩, rfl⟩
    · refine ⟨_, (pgGetpage_ok_iff h (pagingPgn_lt addr)).mpr ⟨hp, rfl⟩, ?_⟩
      have hwrite : memphyWrite (c₁.dev .mram) _ value = _ :=
        memphyWrite_random (hp.random h) (by omega) (Int.ofNat_lt.mpr hb) value
      simp only [Option.isSome_some, if_true, ne_eq, not_true_eq_false, if_false,
        phyAddr_eq hp.fpn_lt (pagingOffst_lt addr), hwrite, Exec.ok_bind, Exec.pure_eq_ok, Int.toNat_natCast,
        Caller.store]

variable {a : VmAreaStruct} {rgid offset ret : Int}

theorem read_ok_iff (hm : c.mm.Single a) (h : DevOk c.dev) {data : Option BYTE} :
    Libmem.read c 0 rgid offset = .ok (ret, data, c') ↔ ReadOutcome c rgid offset ret data c' := by
  unfold Libmem.read getSymrgByid
  by_cases hr : rgid < 0 ∨ rgid > PAGING_MAX_SYMTBL_SZ
  · simp only [hr, if_true, hm.getVmaByNum, Exec.ok_bind, Exec.pure_eq_ok, Except.ok.injEq, Prod.mk.injEq]
    constructor
    · rintro ⟨rfl, rfl, rfl⟩
      exact .refused hr
    · rintro (- | ⟨hv, -⟩ | ⟨hv, -⟩)
      · exact ⟨rfl, rfl, rfl⟩
      · exact absurd hr hv.not_refused
      · exact absurd hr hv.not_refused
  · simp only [hr, if_false, hm.getVmaByNum, Exec.ok_bind, Exec.bind_ok, MmStruct.getRg_ok_iff]
    constructor
    · rintro ⟨rg, ⟨hv, rfl⟩, ⟨r, o, c''⟩, hx, hret⟩
      cases hret
      rcases (pgGetval_ok_iff h).mp hx with ⟨hp, rfl, rfl⟩ | ⟨fpn, hp, hb, rfl, rfl⟩
      · exact .noPage hv hp
      · exact .byte hv hp hb
    · rintro (hr' | ⟨hv, hp⟩ | ⟨hv, hp, hb⟩)
      · exact absurd hr' hr
      · exact ⟨_, ⟨hv, rfl⟩, _, (pgGetval_ok_iff h).mpr (.inl ⟨hp, rfl, rfl⟩), rfl⟩
      · exact ⟨_, ⟨hv, rfl⟩, _, (pgGetval_ok_iff h).mpr (.inr ⟨_, hp, hb, rfl, rfl⟩), rfl⟩

theorem write_ok_iff (hm : c.mm.Single a) (h : DevOk c.dev) {value : BYTE} :
    Libmem.write c 0 rgid offset value = .ok (ret, c') ↔ WriteOutcome c rgid offset value ret c' := by
  unfold Libmem.write getSymrgByid
  by_cases hr : rgid < 0 ∨ rgid > PAGING_MAX_SYMTBL_SZ
  · simp only [hr, if_true, hm.getVmaByNum, Exec.ok_bind, Exec.pure_eq_ok, Except.ok.injEq, Prod.mk.injEq]
    constructor
    · rintro ⟨rfl, rfl⟩
      exact .refused hr
    · rintro (- | ⟨hv, -⟩ | ⟨hv, -⟩)
      · exact ⟨rfl, rfl⟩
      · exact absurd hr hv.not_refused
      · exact absurd hr hv.not_refused
  · simp only [hr, if_false, hm.getVmaByNum, Exec.ok_bind, Exec.bind_ok, MmStruct.getRg_ok_iff]
    constructor
    · rintro ⟨rg, ⟨hv, rfl⟩, ⟨r, c''⟩, hx, hret⟩
      cases hret
      rcases (pgSetval_ok_iff h).mp hx with ⟨hp, rfl⟩ | ⟨fpn, c₁, hp, hb, rfl, rfl⟩
      · exact .noPage hv hp
      · exact .byte hv hp hb
    · rintro (hr' | ⟨hv, hp⟩ | ⟨hv, hp, hb⟩)
      · exact absurd hr' hr
      · exact ⟨_, ⟨hv, rfl⟩, _, (pgSetval_ok_iff h).mpr (.inl ⟨hp, rfl⟩), rfl⟩
      · exact ⟨_, ⟨hv, rfl⟩, _, (pgSetval_ok_iff h).mpr (.inr ⟨_, _, hp, hb, rfl, rfl⟩), rfl⟩

/-- `libread` delivers the byte in RAM at the access, sign-extended. -/
theorem libread_ok_iff (hm : c.mm.Single a) (h : DevOk c.dev) {source offset : Nat} {value : Option Word} :
    libread c source offset = .ok (ret, value, c') ↔
      ∃ data, ReadOutcome c (toInt source) (toInt offset) ret data c' ∧ value = data.map (·.signExtend 32) := by
  simp only [libread, Exec.bind_ok]
  constructor
  · rintro ⟨⟨r, data, c''⟩, hx, hret⟩
    cases hret
    exact ⟨data, (read_ok_iff hm h).mp hx, rfl⟩
  · rintro ⟨data, hx, rfl⟩
    exact ⟨_, (read_ok_iff hm h).mpr hx, rfl⟩

/-- `libwrite` stores a byte in RAM at the access. -/
theorem libwrite_ok_iff (hm : c.mm.Single a) (h : DevOk c.dev) {data : BYTE} {destination offset : Nat} :
    libwrite c data destination offset = .ok (ret, c') ↔
      WriteOutcome c (toInt destination) (toInt offset) data ret c' := write_ok_iff hm h

end SimpleOs.Mm
