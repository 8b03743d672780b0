import SimpleOs.Mm.System

/-!
# The status of an access

* `Translates` : the RAM address `pg_getpage` gives for an access; `PageFails` : it gives none;
* `WriteHonest`, `ReadHonest` : status 0 stands for a byte stored or delivered, and a page that was not obtained for a
  failed call; `accessHonest_iff` : both calls return and are honest exactly when the access is `AccessServed`;
* `out_of_space_wraps` : an address outside that space is not refused, and reaches the byte of another one.
-/

namespace SimpleOs.Mm
open CInt

variable {c c' c₁ : Caller} {a : VmAreaStruct} {rgid offset ret : Int} {fpn : Option Nat} {data : BYTE}

/-! ## Errors of `pg_getpage` -/

def Translates (c : Caller) (rgid offset : Int) (addr : Nat) : Prop :=
  ∃ fpn c₁, pgGetpage c (accessPgn c.mm rgid offset) = .ok (0, some fpn, c₁) ∧ addr = accessPhy c.mm rgid offset fpn

def PageFails (c : Caller) (rgid offset : Int) : Prop :=
  ∃ ret fpn c₁, pgGetpage c (accessPgn c.mm rgid offset) = .ok (ret, fpn, c₁) ∧ ret ≠ 0

/-- What `c'` holds in the storage of both devices is what `c` holds. -/
def SameStorage (c c' : Caller) : Prop := ∀ d, (c'.dev d).storage = (c.dev d).storage

/-- A `libwrite` that left status `ret` and `c'`: 0 stands for a byte stored, and no page for a failure. -/
structure WriteHonest (c : Caller) (rgid offset : Int) (data : BYTE) (ret : Int) (c' : Caller) : Prop where
  stored : ret = 0 → ∃ addr, Translates c rgid offset addr ∧ (c'.dev .mram).storage addr = data
  failed : PageFails c rgid offset → ret ≠ 0 ∧ SameStorage c c'

/-- A `libread` that left status `ret`, the value `value` and `c'`: 0 stands for the byte stored, and no page for a
failure. -/
structure ReadHonest (c : Caller) (rgid offset : Int) (ret : Int) (value : Option Word) (c' : Caller) : Prop where
  delivered : ret = 0 → ∃ addr, Translates c rgid offset addr ∧
    value = some (((c'.dev .mram).storage addr).signExtend 32)
  failed : PageFails c rgid offset → ret ≠ 0 ∧ SameStorage c c'

/-- `libwrite` and `libread` of region `region` at `offset` return, and report what they did. -/
structure AccessHonest (c : Caller) (region offset : Nat) : Prop where
  write : ∀ data, ∃ ret c', libwrite c data region offset = .ok (ret, c') ∧
    WriteHonest c (toInt region) (toInt offset) data ret c'
  read : ∃ ret value c', libread c region offset = .ok (ret, value, c') ∧
    ReadHonest c (toInt region) (toInt offset) ret value c'

/-- The page of an access is present, and its byte is in RAM; or `fifo_pgn` has a victim in RAM, swap has a free frame,
and the entry of the page names a frame of swap. -/
inductive PageServed (c : Caller) (rgid offset : Int) : Prop
  | present (hp : pagingPagePresent (c.mm.pgd (accessPgn c.mm rgid offset)) = true)
      (hb : accessPhy c.mm rgid offset (pagingFpn (c.mm.pgd (accessPgn c.mm rgid offset))) < (c.dev .mram).maxsz)
  | absent {l : List Nat} {v : Nat} (hp : pagingPagePresent (c.mm.pgd (accessPgn c.mm rgid offset)) = false)
      (hq : c.mm.fifoPgn = l ++ [v]) (hv : v < PAGING_MAX_PGN) (hs : (c.dev .activeMswp).freeFpList ≠ [])
      (hvf : (pagingFpn (c.mm.pgd v) + 1) * PAGING_PAGESZ ≤ (c.dev .mram).maxsz)
      (ht : (pagingPteSwp (c.mm.pgd (accessPgn c.mm rgid offset)) + 1) * PAGING_PAGESZ ≤ (c.dev .activeMswp).maxsz)

/-- The region id of an access is refused, or `symrgtbl` has it and the page of the access is served. -/
def AccessServed (c : Caller) (rgid offset : Int) : Prop :=
  (rgid < 0 ∨ rgid > PAGING_MAX_SYMTBL_SZ) ∨ (ValidRg rgid ∧ PageServed c rgid offset)

theorem PageOutcome.translates (hd : DevOk c.dev) {f : Nat}
    (hp : PageOutcome c (accessPgn c.mm rgid offset) (some f) c₁) :
    Translates c rgid offset (accessPhy c.mm rgid offset f) :=
  ⟨f, c₁, (pgGetpage_ok_iff hd (accessPgn_lt ..)).mpr ⟨hp, rfl⟩, rfl⟩

theorem PageOutcome.not_fails (hd : DevOk c.dev) {f : Nat}
    (hp : PageOutcome c (accessPgn c.mm rgid offset) (some f) c₁) : ¬ PageFails c rgid offset := by
  rintro ⟨ret, fpn, c₂, hx, hret⟩
  cases ((pgGetpage_ok_iff hd (accessPgn_lt ..)).mpr ⟨hp, rfl⟩).symm.trans hx
  exact hret rfl

theorem PageOutcome.fails (hd : DevOk c.dev) (hp : PageOutcome c (accessPgn c.mm rgid offset) none c₁) :
    PageFails c rgid offset :=
  ⟨-1, none, c₁, (pgGetpage_ok_iff hd (accessPgn_lt ..)).mpr ⟨hp, rfl⟩, by decide⟩

theorem pageServed_iff : PageServed c rgid offset ↔ ∃ f c₁, PageOutcome c (accessPgn c.mm rgid offset) (some f) c₁ ∧
    accessPhy c.mm rgid offset f < (c₁.dev .mram).maxsz := by
  constructor
  · rintro (⟨hp, hb⟩ | ⟨hp, hq, hv, hs, hvf, ht⟩)
    · exact ⟨_, c, .hit hp, hb⟩
    · obtain ⟨s, rest, hs⟩ := List.exists_cons_of_ne_nil hs
      refine ⟨_, _, .swapIn hp hq hv hs hvf ht, ?_⟩
      have hoff := pagingOffst_lt (accessAddr c.mm rgid offset)
      show _ < (c.dev .mram).maxsz
      rw [Nat.add_mul] at hvf
      unfold accessPhy
      omega
  · rintro ⟨f, c₁, hpage, hb⟩
    cases hpage with
    | hit hp => exact .present hp hb
    | swapIn hp hq hv hs hvf ht => exact .absent hp hq hv (by simp [hs]) hvf ht

theorem accessHonest_of_refused (hm : c.mm.Single a) (hd : DevOk c.dev) {region : Nat}
    (hr : toInt region < 0 ∨ toInt region > PAGING_MAX_SYMTBL_SZ) (offset : Nat) : AccessHonest c region offset where
  write _ := ⟨-1, c, (libwrite_ok_iff hm hd).mpr (.refused hr), fun h => absurd h (by decide),
    fun _ => ⟨by decide, fun _ => rfl⟩⟩
  read := ⟨-1, none, c, (libread_ok_iff hm hd).mpr ⟨none, .refused hr, rfl⟩, fun h => absurd h (by decide),
    fun _ => ⟨by decide, fun _ => rfl⟩⟩

theorem accessHonest_of_page (hm : c.mm.Single a) (hd : DevOk c.dev) {region offset f : Nat}
    (hv : ValidRg (toInt region)) (hp : PageOutcome c (accessPgn c.mm (toInt region) (toInt offset)) (some f) c₁)
    (hb : accessPhy c.mm (toInt region) (toInt offset) f < (c₁.dev .mram).maxsz) : AccessHonest c region offset where
  write _ := ⟨0, _, (libwrite_ok_iff hm hd).mpr (.byte hv hp hb),
    fun _ => ⟨_, hp.translates hd, Caller.store_storage_self ..⟩, fun hf => absurd hf (hp.not_fails hd)⟩
  read := ⟨0, _, c₁, (libread_ok_iff hm hd).mpr ⟨_, .byte hv hp hb, rfl⟩,
    fun _ => ⟨_, hp.translates hd, rfl⟩, fun hf => absurd hf (hp.not_fails hd)⟩

/-- Memory access errors reach the caller exactly when no page is missed and the bytes touched are ones the devices
have. -/
theorem accessHonest_iff (hm : c.mm.Single a) (hd : DevOk c.dev) (region offset : Nat) :
    AccessHonest c region offset ↔ AccessServed c (toInt region) (toInt offset) := by
  constructor
  · intro hhonest
    obtain ⟨ret, value, c', hx, hread⟩ := hhonest.read
    obtain ⟨data, hout, -⟩ := (libread_ok_iff hm hd).mp hx
    cases hout with
    | refused hr => exact .inl hr
    | noPage hv hp => exact absurd rfl (hread.failed (hp.fails hd)).1
    | byte hv hp hb => exact .inr ⟨hv, pageServed_iff.mpr ⟨_, _, hp, hb⟩⟩
  · rintro (hr | ⟨hv, hpage⟩)
    · exact accessHonest_of_refused hm hd hr offset
    · obtain ⟨f, c₁, hp, hb⟩ := pageServed_iff.mp hpage
      exact accessHonest_of_page hm hd hv hp hb

/-- An access of region 3 by a new process. -/
theorem accessHonest_iff_new : AccessHonest ((MemSys.boot 512 512).caller 0) 3 5 ↔
    AccessServed ((MemSys.boot 512 512).caller 0) (toInt 3) (toInt 5) :=
  accessHonest_iff ⟨rfl, rfl⟩ (boot_ok (by decide) (by decide)).devOk 3 5

/-- A write by a new process is lost, and returns 0. -/
theorem write_without_page : ¬ ∀ c a, c.mm.Single a → DevOk c.dev → ∀ region offset, AccessHonest c region offset := by
  intro hall
  have hd : DevOk ((MemSys.boot 512 512).caller 0).dev := (boot_ok (by decide) (by decide)).devOk
  have hm : ((MemSys.boot 512 512).caller 0).mm.Single ⟨0, 0, 0, 0, [⟨0, 0, 0⟩]⟩ := ⟨rfl, rfl⟩
  have hpage : PageOutcome ((MemSys.boot 512 512).caller 0) (accessPgn (initMm .zeroed) (toInt 0) (toInt 0)) none
      ((MemSys.boot 512 512).caller 0) := .noVictim rfl rfl
  have hwrite : libwrite ((MemSys.boot 512 512).caller 0) 7 0 0 = .ok (0, (MemSys.boot 512 512).caller 0) :=
    (libwrite_ok_iff hm hd).mpr (.noPage (by decide) hpage)
  obtain ⟨ret, c', hx, hhonest⟩ := (hall _ _ hm hd 0 0).write 7
  cases hwrite.symm.trans hx
  exact (hhonest.failed (hpage.fails hd)).1 rfl

/-! ## Addresses -/

/-- A `libread` fails, and leaves what the devices hold. -/
def ReadRefused (c : Caller) (region offset : Nat) : Prop :=
  ∃ ret value c', libread c region offset = .ok (ret, value, c') ∧ ret ≠ 0 ∧ SameStorage c c'

/-- A `libwrite` fails, and leaves what the devices hold. -/
def WriteRefused (c : Caller) (data : BYTE) (region offset : Nat) : Prop :=
  ∃ ret c', libwrite c data region offset = .ok (ret, c') ∧ ret ≠ 0 ∧ SameStorage c c'

theorem not_refused_of_valid (hm : c.mm.Single a) (hd : DevOk c.dev) {region : Nat} (hv : ValidRg (toInt region))
    (offset : Nat) : ¬ ReadRefused c region offset ∧ ∀ data, ¬ WriteRefused c data region offset := by
  constructor
  · rintro ⟨ret, value, c', h, hret, -⟩
    obtain ⟨data, hx, rfl⟩ := (libread_ok_iff hm hd).mp h
    cases hx with
    | refused hr => exact hv.not_refused hr
    | noPage => exact hret rfl
    | byte => exact hret rfl
  · rintro data ⟨ret, c', h, hret, -⟩
    cases (libwrite_ok_iff hm hd).mp h with
    | refused hr => exact hv.not_refused hr
    | noPage => exact hret rfl
    | byte => exact hret rfl

/-- The exact address `rg_start + offset`, for an operand taken as signed or as unsigned. -/
def ExactAddr (rg : VmRgStruct) (offset : Nat) (x : Int) : Prop :=
  x = rg.rgStart + offset ∨ x = rg.rgStart + toInt offset

/-- Page and offset of an access are those of the address `y`. -/
def ReachesAddr (c : Caller) (rgid offset y : Int) : Prop :=
  accessPgn c.mm rgid offset = pagingPgn y ∧ pagingOffst (accessAddr c.mm rgid offset) = pagingOffst y

/-- No address outside the 22-bit space is refused: `pg_getpage` finds its page number in range, and the access
reaches the byte of another address. -/
theorem out_of_space_wraps (hm : c.mm.Single a) (hd : DevOk c.dev) {region offset : Nat} (hv : ValidRg (toInt region))
    {x : Int} (hx : ExactAddr (c.mm.symrgtbl (toInt region).toNat) offset x) (hout : ¬ (0 ≤ x ∧ x < 2 ^ 22)) :
    (¬ ReadRefused c region offset ∧ ∀ data, ¬ WriteRefused c data region offset) ∧
      accessPgn c.mm (toInt region) (toInt offset) < PAGING_MAX_PGN ∧
      ∃ y, y ≠ x ∧ (0 ≤ y ∧ y < 2 ^ 22) ∧ ReachesAddr c (toInt region) (toInt offset) y := by
  refine ⟨not_refused_of_valid hm hd hv offset, accessPgn_lt .., x % 4194304, by omega, by omega, ?_⟩
  have hemod : accessAddr c.mm (toInt region) (toInt offset) % 4194304 = x % 4194304 % 4194304 := by
    rw [accessAddr, regionAddr_emod]
    unfold ExactAddr toInt at hx
    unfold toInt
    omega
  exact paging_congr hemod

/-- Offset `2 ^ 22` of the first region of a new process. -/
theorem out_of_space_wraps_new : (¬ ReadRefused ((MemSys.boot 512 512).caller 0) 0 4194304 ∧
      ∀ data, ¬ WriteRefused ((MemSys.boot 512 512).caller 0) data 0 4194304) ∧
    accessPgn (initMm .zeroed) (toInt 0) (toInt 4194304) < PAGING_MAX_PGN ∧
    ∃ y, y ≠ 4194304 ∧ (0 ≤ y ∧ y < 2 ^ 22) ∧
      ReachesAddr ((MemSys.boot 512 512).caller 0) (toInt 0) (toInt 4194304) y :=
  out_of_space_wraps (x := 4194304) ⟨rfl, rfl⟩
    (boot_ok (by decide) (by decide)).devOk (by decide) (.inl rfl) (by decide)

/-- The byte at offset 0 is read at offset `2 ^ 22`. -/
theorem wrapped_read : (∃ h s, Run sysCall (MemSys.boot 512 512) h s ∧
      h.map Entry.act = [(0, .read 0 4194304), (0, .write 5 0 0), (0, .alloc 100 0)] ∧
      h.head?.map Entry.res = some ⟨0, some 5⟩) ∧
    ¬ ∀ c a, c.mm.Single a → DevOk c.dev → ∀ (region offset : Nat) (x : Int), ValidRg (toInt region) →
      ExactAddr (c.mm.symrgtbl (toInt region).toNat) offset x → ¬ (0 ≤ x ∧ x < 2 ^ 22) →
      ReadRefused c region offset ∧ ∀ data, WriteRefused c data region offset := by
  constructor
  · obtain ⟨h, s, hrun, hact, hp⟩ := exists_run_of_replay sysCall (MemSys.boot 512 512)
      [(0, .read 0 4194304), (0, .write 5 0 0), (0, .alloc 100 0)]
      (fun h _ => decide (h.head?.map Entry.res = some ⟨0, some 5⟩)) (by decide +kernel)
    exact ⟨h, s, hrun, hact, of_decide_eq_true hp⟩
  · intro hall
    have hm : ((MemSys.boot 512 512).caller 0).mm.Single ⟨0, 0, 0, 0, [⟨0, 0, 0⟩]⟩ := ⟨rfl, rfl⟩
    have hd : DevOk ((MemSys.boot 512 512).caller 0).dev := (boot_ok (by decide) (by decide)).devOk
    exact (not_refused_of_valid hm hd (by decide) 4194304).1
      (hall _ _ hm hd 0 4194304 4194304 (by decide) (.inl rfl) (by decide)).1

end SimpleOs.Mm
