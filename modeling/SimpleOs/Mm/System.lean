import SimpleOs.Lib.Run
import SimpleOs.Mm.AccessSpec

/-!
# Processes over shared devices

* `MemSys`, `sysCall`, `MemSys.boot` : any number of processes, each with its address space, over one
  `mram` and one `active_mswp`; a step is one call of one process;
* `memCall_ok_iff` : the outcomes of a call; `TableCase` : what they do to page table, queue and free
  frames; `RegionCase` : what they do to area and symbol table;
* `MemSys.Ok`, `run_ok` : one area each, and sound devices, in every state reached.
-/

namespace SimpleOs.Mm
open CInt

/-- The processes' address spaces and the devices they share. -/
structure MemSys where
  mm : Nat → MmStruct
  dev : Dev → MemphyStruct

def MemSys.caller (s : MemSys) (pid : Nat) : Caller := ⟨s.mm pid, s.dev⟩

def MemSys.after (s : MemSys) (pid : Nat) (c : Caller) : MemSys := ⟨Function.update s.mm pid c.mm, c.dev⟩

def sysCall (s : MemSys) (act : Nat × MemCall) : Exec (MemResult × MemSys) := do
  let (r, c) ← memCall (s.caller act.1) act.2
  return (r, s.after act.1 c)

/-- Empty address spaces over formatted devices of the given sizes. -/
def MemSys.boot (ram swp : Nat) : MemSys where
  mm := fun _ => initMm .zeroed
  dev
    | .mram => initMemphy .zeroed ram true
    | .activeMswp => initMemphy .zeroed swp true

@[simp] theorem MemSys.after_mm_self (s : MemSys) (pid : Nat) (c : Caller) : (s.after pid c).mm pid = c.mm :=
  Function.update_self ..

theorem MemSys.after_mm_of_ne (s : MemSys) {pid i : Nat} (h : i ≠ pid) (c : Caller) :
    (s.after pid c).mm i = s.mm i := Function.update_of_ne h ..

@[simp] theorem MemSys.after_dev (s : MemSys) (pid : Nat) (c : Caller) : (s.after pid c).dev = c.dev := rfl

/-! ## The outcomes of a call -/

inductive CallOutcome (c : Caller) (a : VmAreaStruct) : MemCall → MemResult → Caller → Prop
  | alloc {size regIndex : Nat} {ret : Int} {c' : Caller}
      (h : AllocOutcome c a (toInt regIndex) (toInt size) ret c') :
        CallOutcome c a (.alloc size regIndex) ⟨ret, none⟩ c'
  | free {regIndex : Nat} {ret : Int} {c' : Caller} (h : FreeOutcome c a (toInt regIndex) ret c') :
      CallOutcome c a (.free regIndex) ⟨ret, none⟩ c'
  | read {source offset : Nat} {ret : Int} {data : Option BYTE} {c' : Caller}
      (h : ReadOutcome c (toInt source) (toInt offset) ret data c') :
      CallOutcome c a (.read source offset) ⟨ret, data.map (·.signExtend 32)⟩ c'
  | write {data : BYTE} {destination offset : Nat} {ret : Int} {c' : Caller}
      (h : WriteOutcome c (toInt destination) (toInt offset) data ret c') :
      CallOutcome c a (.write data destination offset) ⟨ret, none⟩ c'

variable {c c' : Caller} {a : VmAreaStruct} {call : MemCall} {r : MemResult}

/-- A call succeeds exactly with its outcomes. -/
theorem memCall_ok_iff (hm : c.mm.Single a) (hd : DevOk c.dev) :
    memCall c call = .ok (r, c') ↔ CallOutcome c a call r c' := by
  cases call with
  | alloc size regIndex =>
    simp only [memCall, Exec.bind_ok]
    constructor
    · rintro ⟨⟨ret, c''⟩, hx, hret⟩
      cases hret
      exact .alloc ((liballoc_ok_iff hm).mp hx)
    · rintro (h | - | - | -)
      exact ⟨_, (liballoc_ok_iff hm).mpr h, rfl⟩
  | free regIndex =>
    simp only [memCall, Exec.bind_ok]
    constructor
    · rintro ⟨⟨ret, c''⟩, hx, hret⟩
      cases hret
      exact .free ((libfree_ok_iff hm).mp hx)
    · rintro (- | h | - | -)
      exact ⟨_, (libfree_ok_iff hm).mpr h, rfl⟩
  | read source offset =>
    simp only [memCall, Exec.bind_ok]
    constructor
    · rintro ⟨⟨ret, value, c''⟩, hx, hret⟩
      cases hret
      obtain ⟨data, h, rfl⟩ := (libread_ok_iff hm hd).mp hx
      exact .read h
    · rintro (- | - | h | -)
      exact ⟨_, (libread_ok_iff hm hd).mpr ⟨_, h, rfl⟩, rfl⟩
  | write data destination offset =>
    simp only [memCall, Exec.bind_ok]
    constructor
    · rintro ⟨⟨ret, c''⟩, hx, hret⟩
      cases hret
      exact .write ((libwrite_ok_iff hm hd).mp hx)
    · rintro (- | - | - | h)
      exact ⟨_, (libwrite_ok_iff hm hd).mpr h, rfl⟩

/-! ## Page table, queue and free frames -/

structure Tables where
  pgd : Nat → Word
  fifoPgn : List Nat
  ramFree : List Nat
  swpFree : List Nat

def Caller.tables (c : Caller) : Tables :=
  ⟨c.mm.pgd, c.mm.fifoPgn, (c.dev .mram).freeFpList, (c.dev .activeMswp).freeFpList⟩

def MemCall.page (call : MemCall) (mm : MmStruct) : Option Nat :=
  match call with
  | .read source offset => some (accessPgn mm (toInt source) (toInt offset))
  | .write _ destination offset => some (accessPgn mm (toInt destination) (toInt offset))
  | _ => none

/-- A `liballoc` for an entry of `symrgtbl`. -/
def MemCall.Allocates : MemCall → Prop
  | .alloc _ regIndex => ValidRg (toInt regIndex)
  | _ => False

inductive TableCase (c : Caller) (a : VmAreaStruct) (call : MemCall) : Tables → Prop
  | same (hcall : ¬ call.Allocates) : TableCase c a call c.tables
  | grow {size regIndex : Nat} (hcall : call = .alloc size regIndex) (hv : ValidRg (toInt regIndex)) :
      TableCase c a call (c.mapRam (freshStart a) (freshPages a (toInt size))).tables
  | fault {pgn : Nat} {l : List Nat} {v s : Nat} {rest : List Nat} (hpage : call.page c.mm = some pgn)
      (hp : pagingPagePresent (c.mm.pgd pgn) = false) (hq : c.mm.fifoPgn = l ++ [v]) (hv : v < PAGING_MAX_PGN)
      (hs : (c.dev .activeMswp).freeFpList = s :: rest) :
      TableCase c a call (c.swapIn pgn l v s rest).tables

theorem MemCall.not_allocates_of_page {mm : MmStruct} {pgn : Nat} (h : call.page mm = some pgn) :
    ¬ call.Allocates := by
  cases call with
  | alloc => cases h
  | free => exact id
  | read => exact id
  | write => exact id

theorem PageOutcome.tableCase {pgn : Nat} {fpn : Option Nat} (h : PageOutcome c pgn fpn c')
    (hpage : call.page c.mm = some pgn) : TableCase c a call c'.tables := by
  cases h with
  | hit => exact .same (MemCall.not_allocates_of_page hpage)
  | noVictim => exact .same (MemCall.not_allocates_of_page hpage)
  | swapIn hp hq hv hs => exact .fault hpage hp hq hv hs

@[simp] theorem Caller.store_mm (c : Caller) (addr : Nat) (value : BYTE) : (c.store addr value).mm = c.mm := rfl

theorem Caller.store_dev (c : Caller) (addr : Nat) (value : BYTE) (d : Dev) :
    (c.store addr value).dev d = { c.dev d with storage := ((c.store addr value).dev d).storage } := by
  cases d
  · simp [Caller.store]
  · simp [Caller.store]

theorem Caller.store_tables (c : Caller) (addr : Nat) (value : BYTE) : (c.store addr value).tables = c.tables := by
  rw [Caller.tables, c.store_dev, c.store_dev]
  rfl

theorem CallOutcome.tableCase (h : CallOutcome c a call r c') : TableCase c a call c'.tables := by
  rcases h with (h | ⟨hv, -, -⟩) | (- | - | -) | (- | ⟨-, hp⟩ | ⟨-, hp, -⟩) | (- | ⟨-, hp⟩ | ⟨-, hp, -⟩)
  · exact .same fun hv => hv.not_refused h
  · exact .grow rfl hv
  · exact .same id
  · exact .same id
  · exact .same id
  · exact .same id
  · exact hp.tableCase rfl
  · exact hp.tableCase rfl
  · exact .same id
  · exact hp.tableCase rfl
  · rw [Caller.store_tables]
    exact hp.tableCase rfl

theorem Caller.mapRam_of_le {startPgn n : Nat} (h : n ≤ (c.dev .mram).freeFpList.length) :
    (c.mapRam startPgn n).mm = mapPages startPgn ((c.dev .mram).freeFpList.take n).reverse c.mm := by
  rw [Caller.mapRam, if_pos h]

theorem Caller.mapRam_of_gt {startPgn n : Nat} (h : (c.dev .mram).freeFpList.length < n) :
    (c.mapRam startPgn n).mm = c.mm := by
  rw [Caller.mapRam, if_neg (by omega)]
  rfl

/-! ## Conditions on a call -/

/-- An offset inside a live region. -/
def MmStruct.InRegion (mm : MmStruct) (rgid offset : Int) : Prop :=
  ValidRg rgid ∧ 0 ≤ offset ∧ (mm.symrgtbl rgid.toNat).rgStart + offset < (mm.symrgtbl rgid.toNat).rgEnd

def MmStruct.AccessOk (mm : MmStruct) : MemCall → Prop
  | .read source offset => mm.InRegion (toInt source) (toInt offset)
  | .write _ destination offset => mm.InRegion (toInt destination) (toInt offset)
  | _ => True

/-- The entries of the pages a `liballoc` of process `pid` maps meet `P`. -/
def MemSys.GrowthOnto (s : MemSys) (pid : Nat) (P : Word → Prop) : MemCall → Prop
  | .alloc size regIndex => ∀ a ∈ (s.mm pid).mmap, ValidRg (toInt regIndex) →
    freshPages a (toInt size) ≤ (s.dev .mram).freeFpList.length →
    ∀ i < freshPages a (toInt size), P ((s.mm pid).pgd (freshStart a + i))
  | _ => True

/-- A call of process `pid` faults on its page. -/
def MemSys.faults (s : MemSys) (pid : Nat) (call : MemCall) : Bool :=
  (call.page (s.mm pid)).any fun pgn => !pagingPagePresent ((s.mm pid).pgd pgn)

/-- The victim of a fault, the last page of the queue, is in RAM. -/
def MemSys.VictimInRam (s : MemSys) (pid : Nat) (call : MemCall) : Prop :=
  s.faults pid call = true → ∀ v ∈ (s.mm pid).fifoPgn.getLast?, InRam ((s.mm pid).pgd v)

/-- The numbers of the frames growth maps fit the frame field of an entry. -/
def MemSys.FramesFit (s : MemSys) (pid : Nat) : MemCall → Prop
  | .alloc size regIndex => ∀ a ∈ (s.mm pid).mmap, ValidRg (toInt regIndex) →
    freshPages a (toInt size) ≤ (s.dev .mram).freeFpList.length →
    ∀ f ∈ (s.dev .mram).freeFpList.take (freshPages a (toInt size)), f < 2 ^ 13
  | _ => True

instance (s : MemSys) (pid : Nat) (call : MemCall) : Decidable (s.VictimInRam pid call) :=
  inferInstanceAs (Decidable (_ → _))

instance (s : MemSys) (pid : Nat) : DecidablePred (s.FramesFit pid)
  | .alloc size regIndex => inferInstanceAs (Decidable (∀ a ∈ (s.mm pid).mmap, ValidRg (toInt regIndex) →
    freshPages a (toInt size) ≤ (s.dev .mram).freeFpList.length →
    ∀ f ∈ (s.dev .mram).freeFpList.take (freshPages a (toInt size)), f < 2 ^ 13))
  | .free _ => inferInstanceAs (Decidable True)
  | .read _ _ => inferInstanceAs (Decidable True)
  | .write _ _ _ => inferInstanceAs (Decidable True)

theorem MemSys.faults_of_page {s : MemSys} {pid pgn : Nat} (hpage : call.page (s.mm pid) = some pgn)
    (hp : pagingPagePresent ((s.mm pid).pgd pgn) = false) : s.faults pid call = true := by
  rw [MemSys.faults, hpage, Option.any_some, hp]
  rfl

theorem MemSys.VictimInRam.inRam {s : MemSys} {pid pgn : Nat} {l : List Nat} {v : Nat}
    (h : s.VictimInRam pid call) (hpage : call.page (s.mm pid) = some pgn)
    (hp : pagingPagePresent ((s.mm pid).pgd pgn) = false) (hq : (s.mm pid).fifoPgn = l ++ [v]) :
    InRam ((s.mm pid).pgd v) := by
  refine h (MemSys.faults_of_page hpage hp) v ?_
  rw [hq, List.getLast?_append, List.getLast?_singleton]
  rfl

instance (mm : MmStruct) (rgid offset : Int) : Decidable (mm.InRegion rgid offset) :=
  inferInstanceAs (Decidable (_ ∧ _ ∧ _))

instance (mm : MmStruct) : DecidablePred mm.AccessOk
  | .alloc _ _ => inferInstanceAs (Decidable True)
  | .free _ => inferInstanceAs (Decidable True)
  | .read _ _ => inferInstanceAs (Decidable (mm.InRegion _ _))
  | .write _ _ _ => inferInstanceAs (Decidable (mm.InRegion _ _))

instance (s : MemSys) (pid : Nat) (P : Word → Prop) [DecidablePred P] : DecidablePred (s.GrowthOnto pid P)
  | .alloc size regIndex => inferInstanceAs (Decidable (∀ a ∈ (s.mm pid).mmap, ValidRg (toInt regIndex) →
    freshPages a (toInt size) ≤ (s.dev .mram).freeFpList.length →
    ∀ i < freshPages a (toInt size), P ((s.mm pid).pgd (freshStart a + i))))
  | .free _ => inferInstanceAs (Decidable True)
  | .read _ _ => inferInstanceAs (Decidable True)
  | .write _ _ _ => inferInstanceAs (Decidable True)

/-! ## What holds in every state -/

/-- `dev'` has the kind and size of `dev`, and of its free frames only the last ones. -/
structure DevKept (dev dev' : Dev → MemphyStruct) : Prop where
  rdmflg : ∀ d, (dev' d).rdmflg = (dev d).rdmflg
  maxsz : ∀ d, (dev' d).maxsz = (dev d).maxsz
  free : ∀ d, (dev' d).freeFpList <:+ (dev d).freeFpList

theorem DevKept.refl (dev : Dev → MemphyStruct) : DevKept dev dev :=
  ⟨fun _ => rfl, fun _ => rfl, fun _ => List.suffix_refl _⟩

theorem DevKept.trans {dev dev' dev'' : Dev → MemphyStruct} (h : DevKept dev dev') (h' : DevKept dev' dev'') :
    DevKept dev dev'' :=
  ⟨fun d => (h'.rdmflg d).trans (h.rdmflg d), fun d => (h'.maxsz d).trans (h.maxsz d),
    fun d => (h'.free d).trans (h.free d)⟩

theorem DevKept.devOk {dev dev' : Dev → MemphyStruct} (h : DevKept dev dev') (hd : DevOk dev) : DevOk dev' where
  random := fun d => (h.rdmflg d).trans (hd.random d)
  maxsz := fun d => (h.maxsz d).symm ▸ hd.maxsz d
  free := fun d f hf => (h.maxsz d).symm ▸ hd.free d f ((h.free d).subset hf)

theorem Caller.mapRam_dev (c : Caller) (startPgn n : Nat) : (c.mapRam startPgn n).dev = Function.update c.dev .mram
    { c.dev .mram with freeFpList := (c.dev .mram).freeFpList.drop n } := by
  unfold Caller.mapRam
  dsimp only
  split
  · rfl
  · next h => rw [List.drop_eq_nil_of_le (by omega)]; rfl

theorem Caller.mapRam_devKept (c : Caller) (startPgn n : Nat) : DevKept c.dev (c.mapRam startPgn n).dev := by
  rw [Caller.mapRam_dev]
  constructor <;> intro d <;> cases d
  · rfl
  · rfl
  · rfl
  · rfl
  · exact List.drop_suffix n _
  · exact List.suffix_refl _

theorem Caller.swapIn_devKept {pgn : Nat} {l : List Nat} {v s : Nat} {rest : List Nat}
    (hs : (c.dev .activeMswp).freeFpList = s :: rest) : DevKept c.dev (c.swapIn pgn l v s rest).dev := by
  constructor <;> intro d <;> cases d
  · rfl
  · rfl
  · rfl
  · rfl
  · exact List.suffix_refl _
  · exact hs ▸ List.suffix_cons s rest

theorem Caller.store_devKept (c : Caller) (addr : Nat) (value : BYTE) : DevKept c.dev (c.store addr value).dev := by
  constructor
  · intro d
    rw [Caller.store_dev]
  · intro d
    rw [Caller.store_dev]
  · intro d
    have hfree := congrArg MemphyStruct.freeFpList (c.store_dev addr value d)
    exact hfree ▸ List.suffix_refl _

theorem PageOutcome.devKept {pgn : Nat} {fpn : Option Nat} (h : PageOutcome c pgn fpn c') : DevKept c.dev c'.dev := by
  cases h with
  | hit => exact .refl _
  | noVictim => exact .refl _
  | swapIn _ _ _ hs => exact Caller.swapIn_devKept hs

theorem CallOutcome.devKept (h : CallOutcome c a call r c') : DevKept c.dev c'.dev := by
  rcases h with (- | -) | (- | - | -) | (- | ⟨-, hp⟩ | ⟨-, hp, -⟩) | (- | ⟨-, hp⟩ | ⟨-, hp, -⟩)
  · exact .refl _
  · exact c.mapRam_devKept ..
  · exact .refl _
  · exact .refl _
  · exact .refl _
  · exact .refl _
  · exact hp.devKept
  · exact hp.devKept
  · exact .refl _
  · exact hp.devKept
  · exact hp.devKept.trans (Caller.store_devKept ..)

theorem PageOutcome.mm {pgn : Nat} {fpn : Option Nat} (h : PageOutcome c pgn fpn c') :
    c'.mm.mmap = c.mm.mmap ∧ c'.mm.symrgtbl = c.mm.symrgtbl := by
  cases h <;> exact ⟨rfl, rfl⟩

/-- What a call does to the area `a` and the symbol table of `mm`: an allocation writes one region, a release moves one
to the free region list, and all else leaves both. -/
inductive RegionCase (mm : MmStruct) (a : VmAreaStruct) : MemCall → MmStruct → Prop
  | same {call : MemCall} {mm' : MmStruct} (ha : mm'.Single a) (hsym : mm'.symrgtbl = mm.symrgtbl) :
      RegionCase mm a call mm'
  | placed {size regIndex : Nat} {a' : VmAreaStruct} {rg : VmRgStruct} {mm' : MmStruct} (hv : ValidRg (toInt regIndex))
      (hcase : AllocCase a (toInt size) a' rg) (ha : mm'.Single a')
      (hsym : mm'.symrgtbl = Function.update mm.symrgtbl (toInt regIndex).toNat rg) :
      RegionCase mm a (.alloc size regIndex) mm'
  | freed {regIndex : Nat} {rg : VmRgStruct} {l : List VmRgStruct} {mm' : MmStruct} (hv : ValidRg (toInt regIndex))
      (hrg : mm.symrgtbl (toInt regIndex).toNat = rg)
      (hl : l = a.vmFreergList ∨ (rg.rgStart < rg.rgEnd ∧ l = rg :: a.vmFreergList))
      (ha : mm'.Single { a with vmFreergList := l })
      (hsym : mm'.symrgtbl = Function.update mm.symrgtbl (toInt regIndex).toNat (freedRegion rg)) :
      RegionCase mm a (.free regIndex) mm'

theorem CallOutcome.regionCase (h : CallOutcome c a call r c') (hm : c.mm.Single a) :
    RegionCase c.mm a call c'.mm := by
  have hpage : ∀ {call pgn fpn c'}, PageOutcome c pgn fpn c' → RegionCase c.mm a call c'.mm :=
    fun hp => .same ⟨hp.mm.1.trans hm.mmap, hm.vmId⟩ hp.mm.2
  rcases h with (- | ⟨hv, hcase, -⟩) | (- | ⟨hv, -⟩ | ⟨hv, hlt⟩) | (- | ⟨-, hp⟩ | ⟨-, hp, -⟩) |
    (- | ⟨-, hp⟩ | ⟨-, hp, -⟩)
  · exact .same hm rfl
  · exact .placed hv hcase ⟨rfl, hcase.vmId.trans hm.vmId⟩ (by rw [Caller.place_symrgtbl, Caller.mapRam_symrgtbl])
  · exact .same hm rfl
  · exact .freed hv rfl (.inl rfl) ⟨rfl, hm.vmId⟩ (Caller.place_symrgtbl ..)
  · exact .freed hv rfl (.inr ⟨hlt, rfl⟩) ⟨rfl, hm.vmId⟩ (Caller.place_symrgtbl ..)
  · exact .same hm rfl
  · exact hpage hp
  · exact hpage hp
  · exact .same hm rfl
  · exact hpage hp
  · rw [Caller.store_mm]
    exact hpage hp

theorem CallOutcome.single (h : CallOutcome c a call r c') (hm : c.mm.Single a) : ∃ a', c'.mm.Single a' := by
  cases h.regionCase hm with
  | same ha => exact ⟨a, ha⟩
  | placed _ _ ha => exact ⟨_, ha⟩
  | freed _ _ _ ha => exact ⟨_, ha⟩

/-- Every address space has one area, and the devices are sound and of the sizes they were started
with. -/
structure MemSys.Ok (ram swp : Nat) (s : MemSys) : Prop where
  single : ∀ pid, ∃ a, (s.mm pid).Single a
  devOk : DevOk s.dev
  ram : (s.dev .mram).maxsz = ram
  swp : (s.dev .activeMswp).maxsz = swp

variable {ram swp : Nat} {s s' : MemSys} {act : Nat × MemCall}

theorem sysCall_cases (hs : s.Ok ram swp) (h : sysCall s act = .ok (r, s')) :
    ∃ a c', (s.mm act.1).Single a ∧ CallOutcome (s.caller act.1) a act.2 r c' ∧ s' = s.after act.1 c' := by
  obtain ⟨⟨r', c'⟩, hx, hret⟩ := Exec.bind_ok.mp h
  cases hret
  obtain ⟨a, ha⟩ := hs.single act.1
  exact ⟨a, c', ha, (memCall_ok_iff ha hs.devOk).mp hx, rfl⟩

theorem boot_ok (hram : ram < 2 ^ 31) (hswp : swp < 2 ^ 31) : (MemSys.boot ram swp).Ok ram swp where
  single := fun _ => ⟨_, rfl, rfl⟩
  devOk := by
    have hfree : ∀ sz, ∀ f ∈ (initMemphy .zeroed sz true).freeFpList, (f + 1) * PAGING_PAGESZ ≤ sz := by
      intro sz f hf
      rw [initMemphy_zeroed, List.mem_range] at hf
      exact (Nat.mul_le_mul_right _ hf).trans (Nat.div_mul_le_self ..)
    constructor <;> intro d <;> cases d
    · rfl
    · rfl
    · exact hram
    · exact hswp
    · exact hfree ram
    · exact hfree swp
  ram := rfl
  swp := rfl

theorem sysCall_ok (hs : s.Ok ram swp) (h : sysCall s act = .ok (r, s')) : s'.Ok ram swp := by
  obtain ⟨a, c', ha, hc, rfl⟩ := sysCall_cases hs h
  refine ⟨fun pid => ?_, hc.devKept.devOk hs.devOk, (hc.devKept.maxsz .mram).trans hs.ram,
    (hc.devKept.maxsz .activeMswp).trans hs.swp⟩
  by_cases hpid : pid = act.1
  · subst hpid
    rw [MemSys.after_mm_self]
    exact hc.single ha
  · rw [MemSys.after_mm_of_ne _ hpid]
    exact hs.single pid

abbrev History := List (Entry MemSys (Nat × MemCall) MemResult)

/-- Every state reached is sound. -/
theorem run_ok (hram : ram < 2 ^ 31) (hswp : swp < 2 ^ 31) {h : History}
    (hrun : Run sysCall (MemSys.boot ram swp) h s) : s.Ok ram swp :=
  hrun.invariant (I := fun _ s => s.Ok ram swp) (boot_ok hram hswp) fun _ _ _ _ _ _ hs h => sysCall_ok hs h

/-- Invariants of one process: what its own calls keep, whatever the other processes do. -/
theorem run_process {pid : Nat} {I : MmStruct → Prop} {C : MemSys → MemCall → Prop} {h : History}
    (hram : ram < 2 ^ 31) (hswp : swp < 2 ^ 31) (h₀ : I (initMm .zeroed))
    (hstep : ∀ s a call r c', s.Ok ram swp → (s.mm pid).Single a → CallOutcome (s.caller pid) a call r c' →
      I (s.mm pid) → C s call → I c'.mm)
    (hrun : Run sysCall (MemSys.boot ram swp) h s) (hC : ∀ e ∈ h, e.act.1 = pid → C e.before e.act.2) :
    I (s.mm pid) := by
  refine (hrun.guarded (I := fun _ s => s.Ok ram swp ∧ I (s.mm pid))
    (C := fun s act => act.1 = pid → C s act.2) ⟨boot_ok hram hswp, h₀⟩ ?_ hC).2
  rintro - s act r s' ⟨hs, hI⟩ hCs hx
  refine ⟨sysCall_ok hs hx, ?_⟩
  obtain ⟨a, c', ha, hc, rfl⟩ := sysCall_cases hs hx
  by_cases hpid : act.1 = pid
  · subst hpid
    rw [MemSys.after_mm_self]
    exact hstep s a act.2 r c' hs ha hc hI (hCs rfl)
  · rwa [MemSys.after_mm_of_ne _ (Ne.symm hpid)]

end SimpleOs.Mm
