import Mathlib.Algebra.GroupWithZero.Nat
import SimpleOs.Mm.Cells
import SimpleOs.Mm.Regions
import SimpleOs.Mm.ReplacementQueue

/-!
# Read your writes

* `lastWrite` : the byte a process last wrote at an offset of a region since it allocated the region;
* `MemSys.Delivers` : a `libread` delivers a byte;
* `MemSys.KeepsWrites` : the calls that lose no written byte; `stored_step` : a step keeps the bytes
  written;
* `read_your_writes` : runs of such calls;
* `write_lost` : a byte whose page was swapped out.
-/

namespace SimpleOs.Mm
open CInt

/-- The byte process `pid` last wrote at `offset` of region `rgid` since it last allocated the region. -/
def lastWrite (pid : Nat) (rgid offset : Int) : History → Option BYTE
  | [] => none
  | e :: h =>
    if e.act.1 = pid then
      match e.act.2 with
      | .alloc _ regIndex => if toInt regIndex = rgid then none else lastWrite pid rgid offset h
      | .write data destination off =>
        if toInt destination = rgid ∧ toInt off = offset then some data else lastWrite pid rgid offset h
      | _ => lastWrite pid rgid offset h
    else lastWrite pid rgid offset h

/-- A `libread` of process `pid` succeeds and delivers the byte `b`. -/
def MemSys.Delivers (s : MemSys) (pid source offset : Nat) (b : BYTE) : Prop :=
  ∃ s', sysCall s (pid, .read source offset) = .ok (⟨0, some (b.signExtend 32)⟩, s')

/-! ## Addresses -/

/-- An offset inside a live region, at an address of the CPU's width. -/
def MmStruct.InReach (mm : MmStruct) (rgid offset : Int) : Prop :=
  mm.InRegion rgid offset ∧ (mm.symrgtbl rgid.toNat).rgStart + offset < 2 ^ PAGING_CPU_BUS_WIDTH

def accessCell (pid : Nat) (mm : MmStruct) (rgid offset : Int) : Cell :=
  (pid, accessPgn mm rgid offset, ⟨pagingOffst (accessAddr mm rgid offset), pagingOffst_lt _⟩)

variable {pid : Nat} {mm mm' : MmStruct} {a : VmAreaStruct} {rgid rgid' offset offset' : Int}

theorem MmStruct.InReach.addr (h : mm.InReach rgid offset) :
    accessAddr mm rgid offset = (mm.symrgtbl rgid.toNat).rgStart + offset := by
  obtain ⟨⟨-, h₀, -⟩, hlt⟩ := h
  have hw : (2 : Int) ^ PAGING_CPU_BUS_WIDTH = 4194304 := rfl
  rw [accessAddr, regionAddr, toULong_of_nonneg h₀ (by omega), toInt_of_bounds (by omega) (by omega)]

/-- Distinct accesses reach distinct cells. -/
theorem accessCell_inj (hR : Regions mm a) (h : mm.InReach rgid offset) (h' : mm.InReach rgid' offset')
    (heq : accessCell pid mm rgid offset = accessCell pid mm rgid' offset') : rgid = rgid' ∧ offset = offset' := by
  have hw : (2 : Int) ^ PAGING_CPU_BUS_WIDTH = 4194304 := rfl
  obtain ⟨hpgn, hoff⟩ := Prod.mk.inj (Prod.mk.inj heq).2
  have hoff' : pagingOffst (accessAddr mm rgid offset) = pagingOffst (accessAddr mm rgid' offset') :=
    Fin.mk.inj_iff.mp hoff
  have hp := pagingPgn_eq (accessAddr mm rgid offset)
  have hp' := pagingPgn_eq (accessAddr mm rgid' offset')
  have ho := pagingOffst_eq (accessAddr mm rgid offset)
  have ho' := pagingOffst_eq (accessAddr mm rgid' offset')
  unfold accessPgn at hpgn
  rw [h.addr] at hpgn hp hoff' ho
  rw [h'.addr] at hpgn hp' hoff' ho'
  obtain ⟨⟨hv, h₀, hend⟩, hlt⟩ := h
  obtain ⟨⟨hv', h₀', hend'⟩, hlt'⟩ := h'
  have haddr : ((mm.symrgtbl rgid.toNat).rgStart : Int) + offset = (mm.symrgtbl rgid'.toNat).rgStart + offset' := by
    omega
  have hid : rgid.toNat = rgid'.toNat := by
    by_contra hne
    have hone : ((List.range PAGING_MAX_SYMTBL_SZ).map mm.symrgtbl).countP
        (·.has ((mm.symrgtbl rgid.toNat).rgStart + offset.toNat)) ≤ 1 := by
      refine le_trans ?_ (hR.once ((mm.symrgtbl rgid.toNat).rgStart + offset.toNat))
      rw [MmStruct.regions, cover_append]
      exact Nat.le_add_right _ _
    refine not_both_of_countP_le_one hone hv.toNat_lt hv'.toNat_lt hne ⟨has_iff.mpr ?_, has_iff.mpr ?_⟩
    · omega
    · omega
  obtain ⟨hpos, -⟩ := hv
  obtain ⟨hpos', -⟩ := hv'
  have : rgid = rgid' := by omega
  subst this
  exact ⟨rfl, by omega⟩

theorem accessCell_congr (h : mm'.symrgtbl rgid.toNat = mm.symrgtbl rgid.toNat) :
    accessCell pid mm' rgid offset = accessCell pid mm rgid offset := by
  have haddr : accessAddr mm' rgid offset = accessAddr mm rgid offset := by
    rw [accessAddr, h, accessAddr]
  simp only [accessCell, accessPgn, haddr]

theorem MmStruct.InReach.congr (h : mm'.symrgtbl rgid.toNat = mm.symrgtbl rgid.toNat)
    (hreach : mm'.InReach rgid offset) : mm.InReach rgid offset := by
  unfold MmStruct.InReach MmStruct.InRegion at *
  rwa [h] at hreach

/-! ## Calls that lose no written byte -/

def MmStruct.ReachOk (mm : MmStruct) : MemCall → Prop
  | .read source offset => mm.InReach (toInt source) (toInt offset)
  | .write _ destination offset => mm.InReach (toInt destination) (toInt offset)
  | _ => True

/-- The call allocates exactly, maps only absent pages to frames their entries can name, and accesses
live regions on pages that are not marked swapped; a `libwrite` that faults finds a victim. -/
structure MemSys.KeepsWrites (s : MemSys) (pid : Nat) (call : MemCall) : Prop where
  exact : ∀ a ∈ (s.mm pid).mmap, CallExact a call
  reach : (s.mm pid).ReachOk call
  absent : s.GrowthOnto pid (pagingPagePresent · = false) call
  frames : s.FramesFit pid call
  resident : ∀ pgn ∈ call.page (s.mm pid), ¬ Swapped ((s.mm pid).pgd pgn)
  victim : call.Writes → s.faults pid call = true → (s.mm pid).fifoPgn ≠ []

/-- The bytes process `pid` has written in regions still live are on mapped pages, and in RAM if their
page is. -/
def Stored (h : History) (s : MemSys) (pid : Nat) : Prop :=
  ∀ rgid offset b, lastWrite pid rgid offset h = some b → (s.mm pid).InReach rgid offset →
    s.Mapped (accessCell pid (s.mm pid) rgid offset) ∧
      (s.byte (accessCell pid (s.mm pid) rgid offset) = none ∨
        s.byte (accessCell pid (s.mm pid) rgid offset) = some b)

instance (a : VmAreaStruct) (size : Int) : Decidable (HeapExact a size) :=
  decidable_of_iff (0 ≤ size ∧ a.sbrk + size < 2 ^ 31 ∧ size + PAGING_PAGESZ ≤ 2 ^ 31)
    ⟨fun h => ⟨h.1, h.2.1, h.2.2⟩, fun h => ⟨h.nonneg, h.brk, h.align⟩⟩

instance (a : VmAreaStruct) : DecidablePred (CallExact a)
  | .alloc size _ => inferInstanceAs (Decidable (0 ≤ toInt size ∧ a.sbrk + toInt size < 2 ^ 63 ∧
    (servedFree a (toInt size) = false → HeapExact a (toInt size))))
  | .free _ => inferInstanceAs (Decidable True)
  | .read _ _ => inferInstanceAs (Decidable True)
  | .write _ _ _ => inferInstanceAs (Decidable True)

instance (mm : MmStruct) (rgid offset : Int) : Decidable (mm.InReach rgid offset) :=
  inferInstanceAs (Decidable (_ ∧ _))

instance (mm : MmStruct) : DecidablePred mm.ReachOk
  | .alloc _ _ => inferInstanceAs (Decidable True)
  | .free _ => inferInstanceAs (Decidable True)
  | .read _ _ => inferInstanceAs (Decidable (mm.InReach _ _))
  | .write _ _ _ => inferInstanceAs (Decidable (mm.InReach _ _))

instance (s : MemSys) (pid : Nat) (call : MemCall) : Decidable (s.KeepsWrites pid call) :=
  decidable_of_iff ((∀ a ∈ (s.mm pid).mmap, CallExact a call) ∧ (s.mm pid).ReachOk call ∧
    s.GrowthOnto pid (pagingPagePresent · = false) call ∧ s.FramesFit pid call ∧
    (∀ pgn ∈ call.page (s.mm pid), ¬ Swapped ((s.mm pid).pgd pgn)) ∧
    (call.Writes → s.faults pid call = true → (s.mm pid).fifoPgn ≠ []))
    ⟨fun h => ⟨h.1, h.2.1, h.2.2.1, h.2.2.2.1, h.2.2.2.2.1, h.2.2.2.2.2⟩,
      fun h => ⟨h.exact, h.reach, h.absent, h.frames, h.resident, h.victim⟩⟩

variable {i n ram swp : Nat} {free : List Nat} {s s' : MemSys} {c c' : Caller} {call : MemCall} {r : MemResult}
  {h : History} {e : Entry MemSys (Nat × MemCall) MemResult} {b : BYTE}

/-- The last byte written is written by this call, or was written before and not given up. -/
theorem lastWrite_cons (hlast : lastWrite pid rgid offset (e :: h) = some b) :
    (∃ destination off, e.act = (pid, .write b destination off) ∧ toInt destination = rgid ∧ toInt off = offset) ∨
    (lastWrite pid rgid offset h = some b ∧
      (∀ size regIndex, e.act = (pid, .alloc size regIndex) → toInt regIndex ≠ rgid) ∧
      ∀ data destination off, e.act = (pid, .write data destination off) →
        ¬ (toInt destination = rgid ∧ toInt off = offset)) := by
  obtain ⟨before, ⟨i, call⟩, res⟩ := e
  rw [lastWrite] at hlast
  split at hlast
  · next hi =>
    dsimp only at hi
    subst hi
    cases call with
    | alloc size regIndex =>
      dsimp only at hlast
      split at hlast
      · cases hlast
      · next hne =>
        refine .inr ⟨hlast, fun _ _ he => ?_, fun _ _ _ he => (nomatch he)⟩
        cases he
        exact hne
    | free => exact .inr ⟨hlast, fun _ _ he => (nomatch he), fun _ _ _ he => (nomatch he)⟩
    | read => exact .inr ⟨hlast, fun _ _ he => (nomatch he), fun _ _ _ he => (nomatch he)⟩
    | write data destination off =>
      dsimp only at hlast
      split at hlast
      · next heq =>
        cases hlast
        exact .inl ⟨destination, off, rfl, heq⟩
      · next hne =>
        refine .inr ⟨hlast, fun _ _ he => (nomatch he), fun _ _ _ he => ?_⟩
        cases he
        exact hne
  · next hi => exact .inr ⟨hlast, fun _ _ he => absurd (congrArg Prod.fst he) hi,
      fun _ _ _ he => absurd (congrArg Prod.fst he) hi⟩

/-- A region that is live after a call, and was not allocated by it, is the one there was. -/
theorem CallOutcome.symrgtbl_eq (hout : CallOutcome c a call r c') (hm : c.mm.Single a)
    (hlive : c'.mm.InRegion rgid offset)
    (halloc : ∀ size regIndex, call = .alloc size regIndex → toInt regIndex ≠ rgid) :
    c'.mm.symrgtbl rgid.toNat = c.mm.symrgtbl rgid.toNat := by
  have hother : ∀ regIndex : Nat, ValidRg (toInt regIndex) → toInt regIndex ≠ rgid →
      rgid.toNat ≠ (toInt regIndex).toNat := by
    intro regIndex hv hne
    have := hv.1
    have := hlive.1.1
    omega
  cases hout.regionCase hm with
  | same _ hsym => rw [hsym]
  | placed hv _ _ hsym => rw [hsym, Function.update_of_ne (hother _ hv (halloc _ _ rfl))]
  | @freed regIndex _ _ _ hv _ _ _ hsym =>
    by_cases hid : toInt regIndex = rgid
    · -- a freed region is empty
      obtain ⟨-, h₀, hlt⟩ := hlive
      rw [hsym, hid, Function.update_self] at hlt
      simp only [freedRegion] at hlt
      omega
    · rw [hsym, Function.update_of_ne (hother regIndex hv hid)]

/-- A `libwrite` puts its byte in RAM, and keeps the others or swaps them out. -/
theorem CallOutcome.written {data : BYTE} {destination off : Nat}
    (hout : CallOutcome (s.caller pid) a (.write data destination off) r c') (ha : (s.mm pid).Single a)
    (hL : Ledger n (s.dev .mram).freeFpList s.ramRefs) (hk : s.KeepsWrites pid (.write data destination off))
    (hvictim : s.VictimInRam pid (.write data destination off)) :
    (s.after pid c').byte (accessCell pid (s.mm pid) (toInt destination) (toInt off)) = some data ∧
    (s.after pid c').Mapped (accessCell pid (s.mm pid) (toInt destination) (toInt off)) ∧
    ∀ x ≠ accessCell pid (s.mm pid) (toInt destination) (toInt off), s.Mapped x →
      (s.after pid c').Mapped x ∧ ((s.after pid c').byte x = none ∨ (s.after pid c').byte x = s.byte x) := by
  rcases hout with - | - | - | ⟨hr | ⟨-, hp⟩ | ⟨-, hp, -⟩⟩
  · exact absurd hr hk.reach.1.1.not_refused
  · cases hp with
    | noVictim hpres hq =>
      have hfaults : s.faults pid (.write data destination off) = true := MemSys.faults_of_page rfl hpres
      exact absurd hq (hk.victim trivial hfaults)
  · next c₁ fpn =>
    have hcase : TableCase (s.caller pid) a (.write data destination off) c₁.tables := hp.tableCase rfl
    have hL₁ : Ledger n (c₁.dev .mram).freeFpList (s.after pid c₁).ramRefs := hcase.ramLedger ha hL hk.frames hvictim
    have hcell := hp.cell (hk.resident _ rfl) ⟨pagingOffst (accessAddr (s.mm pid) (toInt destination) (toInt off)),
      pagingOffst_lt _⟩
    have hstore := byte_store hL₁ hcell data
    have hkept := hp.kept hL rfl hvictim
    refine ⟨?_, MemSys.mapped_of_cell (s := s.after pid c₁) hcell, fun x hne hx => ?_⟩
    · exact (congrFun hstore _).trans (Function.update_self ..)
    · refine ⟨(hkept x hx).1, ?_⟩
      have hbyte := (congrFun hstore x).trans (Function.update_of_ne hne ..)
      exact (hkept x hx).2.imp hbyte.trans hbyte.trans

theorem stored_step {act : Nat × MemCall} (hs : s.Ok ram swp)
    (hL : Ledger n (s.dev .mram).freeFpList s.ramRefs) (hR : ∀ a, (s.mm act.1).Single a → Regions (s.mm act.1) a)
    (hq : s.QueueAgrees act.1) (hk : s.KeepsWrites act.1 act.2) (hx : sysCall s act = .ok (r, s'))
    (hst : Stored h s pid) : Stored (⟨s, act, r⟩ :: h) s' pid := by
  obtain ⟨a, c', ha, hout, rfl⟩ := sysCall_cases hs hx
  obtain ⟨i, call⟩ := act
  have hvictim : s.VictimInRam i call := hq.victimInRam
  intro rgid offset b hlast hreach
  rcases lastWrite_cons hlast with ⟨destination, off, hact, rfl, rfl⟩ | ⟨hlast, halloc, hwrite⟩
  · cases hact
    obtain ⟨hbyte, hmapped, -⟩ := hout.written ha hL hk hvictim
    rw [MemSys.after_mm_self] at hreach ⊢
    have hsym := hout.symrgtbl_eq ha hreach.1 fun _ _ he => (nomatch he)
    rw [accessCell_congr hsym]
    exact ⟨hmapped, .inr hbyte⟩
  · have hsym : ((s.after i c').mm pid).symrgtbl rgid.toNat = (s.mm pid).symrgtbl rgid.toNat := by
      by_cases hi : i = pid
      · subst hi
        rw [MemSys.after_mm_self] at hreach ⊢
        exact hout.symrgtbl_eq ha hreach.1 fun size regIndex he => halloc size regIndex (he ▸ rfl)
      · rw [MemSys.after_mm_of_ne _ (Ne.symm hi)]
    have hreach₀ := hreach.congr hsym
    obtain ⟨hmapped, hbyte⟩ := hst rgid offset b hlast hreach₀
    rw [accessCell_congr hsym]
    have hkept : (s.after i c').Mapped (accessCell pid (s.mm pid) rgid offset) ∧
        ((s.after i c').byte (accessCell pid (s.mm pid) rgid offset) = none ∨
          (s.after i c').byte (accessCell pid (s.mm pid) rgid offset) =
            s.byte (accessCell pid (s.mm pid) rgid offset)) := by
      by_cases hw : call.Writes
      · cases call with
        | write data destination off =>
          refine (hout.written ha hL hk hvictim).2.2 _ (fun heq => ?_) hmapped
          have hi : pid = i := congrArg Prod.fst heq
          subst hi
          obtain ⟨hid, hoff⟩ := accessCell_inj (hR a ha) hreach₀ hk.reach heq
          exact hwrite data destination off rfl ⟨hid.symm, hoff.symm⟩
        | alloc => exact absurd hw id
        | free => exact absurd hw id
        | read => exact absurd hw id
      · exact hout.kept ha hL hvictim hk.absent hw _ hmapped
    refine ⟨hkept.1, ?_⟩
    rcases hkept.2 with hnone | hsame
    · exact .inl hnone
    · rw [hsame]
      exact hbyte

/-! ## Runs -/

structure WritesInv (ram swp : Nat) (h : History) (s : MemSys) : Prop where
  ok : s.Ok ram swp
  ledger : Ledger (ram / PAGING_PAGESZ) (s.dev .mram).freeFpList s.ramRefs
  queue : ∀ pid, s.QueueAgrees pid
  regions : ∀ pid a, (s.mm pid).Single a → Regions (s.mm pid) a
  stored : ∀ pid, Stored h s pid

theorem boot_writesInv (hram : ram < 2 ^ 31) (hswp : swp < 2 ^ 31) : WritesInv ram swp [] (.boot ram swp) where
  ok := boot_ok hram hswp
  ledger := boot_ramLedger ram swp
  queue := fun _ => queueAgrees_boot
  regions := by
    intro pid a ha
    obtain ⟨b, hb, hR⟩ := initMm_regions
    have hab : [b] = [a] := hb.mmap.symm.trans ha.mmap
    cases hab
    exact hR
  stored := fun _ _ _ _ hlast => (nomatch hlast)

theorem writesInv_step {act : Nat × MemCall} (hI : WritesInv ram swp h s) (hk : s.KeepsWrites act.1 act.2)
    (hx : sysCall s act = .ok (r, s')) : WritesInv ram swp (⟨s, act, r⟩ :: h) s' := by
  have hqueue : ∀ pid, s'.QueueAgrees pid := fun pid =>
    (queueAgrees_step hI.ok hx (hI.queue pid)).mpr fun hpid =>
      hpid ▸ hk.absent.mono fun pte hp hram => by rw [hram.1] at hp; cases hp
  have hstored : ∀ pid, Stored (⟨s, act, r⟩ :: h) s' pid := fun pid =>
    stored_step hI.ok hI.ledger (hI.regions act.1) (hI.queue act.1) hk hx (hI.stored pid)
  refine ⟨sysCall_ok hI.ok hx, ?_, hqueue, ?_, hstored⟩
  · obtain ⟨a, c', ha, hout, rfl⟩ := sysCall_cases hI.ok hx
    exact hout.tableCase.ramLedger ha hI.ledger hk.frames (hI.queue act.1).victimInRam
  · obtain ⟨a, c', ha, hout, rfl⟩ := sysCall_cases hI.ok hx
    intro pid b hb
    by_cases hpid : pid = act.1
    · subst hpid
      rw [MemSys.after_mm_self] at hb ⊢
      obtain ⟨a', ha', hR, -⟩ := hout.regions ha (hI.regions act.1 a ha)
        (hk.exact a (ha.mmap ▸ List.mem_singleton_self a))
      cases ha'.mmap.symm.trans hb.mmap
      exact hR
    · rw [MemSys.after_mm_of_ne _ hpid] at hb ⊢
      exact hI.regions pid b hb

theorem delivers_of_stored {source off : Nat} (hI : WritesInv ram swp h s)
    (hk : s.KeepsWrites pid (.read source off)) (hlast : lastWrite pid (toInt source) (toInt off) h = some b) :
    s.Delivers pid source off b := by
  obtain ⟨a, ha⟩ := hI.ok.single pid
  obtain ⟨hmapped, hbyte⟩ := hI.stored pid _ _ b hlast hk.reach
  have hram : InRam ((s.mm pid).pgd (accessPgn (s.mm pid) (toInt source) (toInt off))) :=
    ((present_iff _).mp hmapped).resolve_right (hk.resident _ rfl)
  have hcell : s.cell (accessCell pid (s.mm pid) (toInt source) (toInt off)) =
      some (accessPhy (s.mm pid) (toInt source) (toInt off)
        (pagingFpn ((s.mm pid).pgd (accessPgn (s.mm pid) (toInt source) (toInt off))))) := MemSys.cell_of_inRam hram
  rw [MemSys.byte, view_of_some hcell] at hbyte
  have hb := Option.some_inj.mp (hbyte.resolve_left (by simp))
  have hhit : PageOutcome (s.caller pid) (accessPgn (s.mm pid) (toInt source) (toInt off)) _ _ := .hit hmapped
  have hsz : ((s.caller pid).dev .mram).maxsz = ram := hI.ok.ram
  have hread : ReadOutcome (s.caller pid) (toInt source) (toInt off) 0 _ (s.caller pid) :=
    .byte hk.reach.1.1 hhit (hsz ▸ MemSys.cell_lt hI.ledger hcell)
  have hcall := (memCall_ok_iff ha hI.ok.devOk).mpr (.read hread)
  rw [← hb]
  exact ⟨s.after pid (s.caller pid), Exec.bind_ok.mpr ⟨_, hcall, rfl⟩⟩

/-- Read your writes: in every run of calls that lose no written byte, a `libread` in reach of a page
that is not marked swapped delivers the byte last written there since the region was allocated. -/
theorem read_your_writes {source off : Nat} (hram : ram < 2 ^ 31) (hswp : swp < 2 ^ 31)
    (hrun : Run sysCall (MemSys.boot ram swp) h s) (hC : ∀ e ∈ h, e.before.KeepsWrites e.act.1 e.act.2)
    (hread : s.KeepsWrites pid (.read source off))
    (hlast : lastWrite pid (toInt source) (toInt off) h = some b) : s.Delivers pid source off b := by
  have hI := hrun.guarded (C := fun s act => s.KeepsWrites act.1 act.2) (boot_writesInv hram hswp)
    (fun _ _ _ _ _ hI hk hx => writesInv_step hI hk hx) hC
  exact delivers_of_stored hI hread hlast

theorem read_your_writes_fault : ∃ h s, Run sysCall (MemSys.boot 2048 4096) h s ∧
    h.map Entry.act = [(0, .write 9 1 3), (0, .alloc 256 1), (0, .alloc 256 0)] ∧ s.Delivers 0 1 3 9 := by
  obtain ⟨h, s, hrun, hact, hp⟩ := exists_run_of_replay sysCall (MemSys.boot 2048 4096)
    [(0, .write 9 1 3), (0, .alloc 256 1), (0, .alloc 256 0)]
    (fun h s => decide ((∀ e ∈ h, e.before.KeepsWrites e.act.1 e.act.2) ∧ s.KeepsWrites 0 (.read 1 3) ∧
      lastWrite 0 (toInt (1 : Nat)) (toInt (3 : Nat)) h = some 9)) (by decide +kernel)
  obtain ⟨hC, hread, hlast⟩ := of_decide_eq_true hp
  exact ⟨h, s, hrun, hact, read_your_writes (by decide) (by decide) hrun hC hread hlast⟩

def pagesAsked (h : History) : Nat :=
  (h.map fun e => match e.act.2 with
    | .alloc size _ => (size + PAGING_PAGESZ - 1) / PAGING_PAGESZ
    | _ => 0).sum

/-- The page of region 0 is swapped out by the access to region 4, and read through the slot number its
entry then holds. -/
theorem write_lost : ¬ ∀ ram swp : Nat, ram < 2 ^ 31 → swp < 2 ^ 31 → ∀ h s,
    Run sysCall (MemSys.boot ram swp) h s → (∀ e ∈ h, e.act.1 = 0 ∧ (e.before.mm 0).AccessOk e.act.2) →
    pagesAsked h ≤ ram / PAGING_PAGESZ + swp / PAGING_PAGESZ →
    ∀ source offset b, (s.mm 0).AccessOk (.read source offset) →
      lastWrite 0 (toInt source) (toInt offset) h = some b → s.Delivers 0 source offset b := by
  intro hall
  obtain ⟨h, s, hrun, -, hp⟩ := exists_run_of_replay sysCall (MemSys.boot 2048 4096)
    [(0, .write 5 4 212), (0, .write 7 0 0), (0, .alloc 300 4), (0, .alloc 300 0)]
    (fun h s => decide ((∀ e ∈ h, e.act.1 = 0 ∧ (e.before.mm 0).AccessOk e.act.2) ∧
      pagesAsked h ≤ 2048 / PAGING_PAGESZ + 4096 / PAGING_PAGESZ ∧ (s.mm 0).AccessOk (.read 0 0) ∧
      lastWrite 0 (toInt (0 : Nat)) (toInt (0 : Nat)) h = some 7 ∧
      (sysCall s (0, .read 0 0)).toOption.map (fun x => x.1.value) = some (some 0))) (by decide +kernel)
  obtain ⟨haccess, hpages, hread, hlast, hvalue⟩ := of_decide_eq_true hp
  obtain ⟨s', hs'⟩ := hall 2048 4096 (by decide) (by decide) h s hrun haccess hpages 0 0 7 hread hlast
  rw [hs'] at hvalue
  have hseven : some (some ((7 : BYTE).signExtend 32)) = some (some 0) := hvalue
  exact absurd hseven (by decide)

end SimpleOs.Mm
