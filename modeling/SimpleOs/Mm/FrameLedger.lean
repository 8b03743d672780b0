import SimpleOs.Lib.Ledger
import SimpleOs.Mm.System

/-!
# The frames of both devices as a ledger

Page table entries own the frames they name; the free lists are the pools.

* `frameRefs`, `MemSys.ramRefs`, `MemSys.swpRefs` : the owner map of a device;
* `mapPages_ledger`, `swapIn_ledger` : what growth and faults do to the ledger of RAM;
* `mapPages_full`, `swapIn_full`, `swapIn_swpRefs` : the same for lost frames and for swap;
* `TableCase.ramLedger`, `ramLedger_step` : a call keeps the ledger of RAM.
-/

namespace SimpleOs.Mm
open CInt

/-- The frame entry `x.2` of process `x.1` names, read by `g`. -/
def frameRefs (g : Word → Option Nat) (mms : Nat → MmStruct) (x : Nat × Nat) : Option Nat := g ((mms x.1).pgd x.2)

/-- The RAM frames the entries of the processes name. -/
def MemSys.ramRefs (s : MemSys) : Nat × Nat → Option Nat := frameRefs ramFrame s.mm

def MemSys.swpRefs (s : MemSys) : Nat × Nat → Option Nat := frameRefs swpFrame s.mm

variable {mms : Nat → MmStruct} {pid pgn : Nat} {mm mm' : MmStruct}

theorem frameRefs_setPte (g : Word → Option Nat) {pte : Word} (h : mm'.pgd = Function.update mm.pgd pgn pte) :
    frameRefs g (Function.update mms pid mm') =
      Function.update (frameRefs g (Function.update mms pid mm)) (pid, pgn) (g pte) := by
  funext ⟨i, p⟩
  by_cases hi : i = pid
  · subst hi
    by_cases hp : p = pgn
    · subst hp
      simp only [frameRefs, Function.update_self, h]
    · rw [Function.update_of_ne (fun he => hp (Prod.mk.inj he).2)]
      simp only [frameRefs, Function.update_self, h, Function.update_of_ne hp]
  · rw [Function.update_of_ne (fun he => hi (Prod.mk.inj he).1)]
    simp only [frameRefs, Function.update_of_ne hi]

theorem frameRefs_congr {g : Word → Option Nat} (h : mm'.pgd = mm.pgd) :
    frameRefs g (Function.update mms pid mm') = frameRefs g (Function.update mms pid mm) := by
  funext ⟨i, p⟩
  by_cases hi : i = pid
  · subst hi
    simp only [frameRefs, Function.update_self, h]
  · simp only [frameRefs, Function.update_of_ne hi]

/-! ## Growth -/

variable {n : Nat} {frames rest : List Nat}

theorem mapPages_ledger (hsmall : ∀ f ∈ frames, f < 2 ^ 13)
    (h : Ledger n (frames ++ rest) (frameRefs ramFrame (Function.update mms pid mm))) :
    Ledger n rest (frameRefs ramFrame (Function.update mms pid (mapPages pgn frames mm))) := by
  induction frames generalizing pgn mm with
  | nil => exact h
  | cons fpn frames ih =>
    rw [List.forall_mem_cons] at hsmall
    have hgrant := Ledger.grant (pid, pgn) h
    refine ih hsmall.2 ?_
    rw [frameRefs_setPte ramFrame (mapPage_pgd mm pgn fpn), ramFrame_setFpn, Nat.mod_eq_of_lt hsmall.1]
    exact hgrant

theorem mapPages_full (hsmall : ∀ f ∈ frames, f < 2 ^ 13)
    (habs : ∀ i < frames.length, pagingPagePresent (mm.pgd (pgn + i)) = false)
    (h : Ledger.Full n (frames ++ rest) (frameRefs ramFrame (Function.update mms pid mm))) :
    Ledger.Full n rest (frameRefs ramFrame (Function.update mms pid (mapPages pgn frames mm))) := by
  induction frames generalizing pgn mm with
  | nil => exact h
  | cons fpn frames ih =>
    rw [List.forall_mem_cons] at hsmall
    rw [List.length_cons] at habs
    have hnone : frameRefs ramFrame (Function.update mms pid mm) (pid, pgn) = none := by
      simp only [frameRefs, Function.update_self]
      exact (frames_of_not_present (habs 0 (by omega))).1
    have hgrant := Ledger.Full.grant h hnone
    refine ih hsmall.2 (fun i hi => ?_) ?_
    · simp only [mapPage]
      rw [Function.update_of_ne (by omega), show pgn + 1 + i = pgn + (i + 1) by omega]
      exact habs (i + 1) (by omega)
    · rw [frameRefs_setPte ramFrame (mapPage_pgd mm pgn fpn), ramFrame_setFpn, Nat.mod_eq_of_lt hsmall.1]
      exact hgrant

theorem mapPages_swpRefs (habs : ∀ i < frames.length, pagingPagePresent (mm.pgd (pgn + i)) = false) :
    frameRefs swpFrame (Function.update mms pid (mapPages pgn frames mm)) =
      frameRefs swpFrame (Function.update mms pid mm) := by
  induction frames generalizing pgn mm with
  | nil => rfl
  | cons fpn frames ih =>
    rw [List.length_cons] at habs
    have hnone : frameRefs swpFrame (Function.update mms pid mm) (pid, pgn) = none := by
      simp only [frameRefs, Function.update_self]
      exact (frames_of_not_present (habs 0 (by omega))).2
    rw [mapPages, ih, frameRefs_setPte swpFrame (mapPage_pgd mm pgn fpn), swpFrame_setFpn, ← hnone,
      Function.update_eq_self]
    intro i hi
    simp only [mapPage]
    rw [Function.update_of_ne (by omega), show pgn + 1 + i = pgn + (i + 1) by omega]
    exact habs (i + 1) (by omega)

/-! ## Faults -/

variable {c c' : Caller} {l : List Nat} {v slot : Nat} {free : List Nat}

theorem swapIn_refs (g : Word → Option Nat) (hne : pgn ≠ v) :
    frameRefs g (Function.update mms pid (c.swapIn pgn l v slot rest).mm) =
      Function.update (Function.update (frameRefs g (Function.update mms pid c.mm)) (pid, v)
        (g (pteSetSwap (c.mm.pgd v) 0 slot))) (pid, pgn)
        (g (pteSetFpn (c.mm.pgd pgn) (pagingFpn (c.mm.pgd v)))) := by
  let mid : MmStruct := { c.mm with pgd := Function.update c.mm.pgd v (pteSetSwap (c.mm.pgd v) 0 slot) }
  have hmid : (c.swapIn pgn l v slot rest).mm.pgd =
      Function.update mid.pgd pgn (pteSetFpn (c.mm.pgd pgn) (pagingFpn (c.mm.pgd v))) := by
    simp only [Caller.swapIn, mid, Function.update_of_ne hne]
  rw [frameRefs_setPte g hmid, frameRefs_setPte g (show mid.pgd = _ from rfl)]

theorem ne_of_not_present {pgd : Nat → Word} {p q : Nat} (hp : pagingPagePresent (pgd p) = false)
    (hq : InRam (pgd q)) : p ≠ q := by
  rintro rfl
  rw [hq.1] at hp
  cases hp

theorem frameRefs_victim (hv : InRam (c.mm.pgd v)) :
    frameRefs ramFrame (Function.update mms pid c.mm) (pid, v) = some (pagingFpn (c.mm.pgd v)) := by
  simp only [frameRefs, Function.update_self, ramFrame_eq_some, and_true]
  exact hv

theorem swapIn_ledger (hp : pagingPagePresent (c.mm.pgd pgn) = false) (hv : InRam (c.mm.pgd v))
    (h : Ledger n free (frameRefs ramFrame (Function.update mms pid c.mm))) :
    Ledger n free (frameRefs ramFrame (Function.update mms pid (c.swapIn pgn l v slot rest).mm)) := by
  rw [swapIn_refs ramFrame (ne_of_not_present hp hv), ramFrame_setSwap, ramFrame_setFpn,
    Nat.mod_eq_of_lt (pagingFpn_lt _)]
  exact (h.release (frameRefs_victim hv)).grant (pid, pgn)

theorem swapIn_full (hp : pagingPagePresent (c.mm.pgd pgn) = false) (hv : InRam (c.mm.pgd v))
    (h : Ledger.Full n free (frameRefs ramFrame (Function.update mms pid c.mm))) :
    Ledger.Full n free (frameRefs ramFrame (Function.update mms pid (c.swapIn pgn l v slot rest).mm)) := by
  have hne := ne_of_not_present hp hv
  rw [swapIn_refs ramFrame hne, ramFrame_setSwap, ramFrame_setFpn, Nat.mod_eq_of_lt (pagingFpn_lt _)]
  refine (h.release (frameRefs_victim hv)).grant ?_
  rw [Function.update_of_ne (fun he => hne (Prod.mk.inj he).2)]
  simp only [frameRefs, Function.update_self]
  exact (frames_of_not_present hp).1

theorem swapIn_swpRefs (hslot : slot < 2 ^ 21) (hp : pagingPagePresent (c.mm.pgd pgn) = false)
    (hv : InRam (c.mm.pgd v)) :
    frameRefs swpFrame (Function.update mms pid (c.swapIn pgn l v slot rest).mm) =
      Function.update (frameRefs swpFrame (Function.update mms pid c.mm)) (pid, v) (some slot) := by
  have hne := ne_of_not_present hp hv
  have hnone : Function.update (frameRefs swpFrame (Function.update mms pid c.mm)) (pid, v) (some slot) (pid, pgn) =
      none := by
    rw [Function.update_of_ne (fun he => hne (Prod.mk.inj he).2)]
    simp only [frameRefs, Function.update_self]
    exact (frames_of_not_present hp).2
  rw [swapIn_refs swpFrame hne, swpFrame_setSwap, swpFrame_setFpn, Nat.mod_eq_of_lt hslot, ← hnone,
    Function.update_eq_self]

theorem swpFrame_victim (hv : InRam (c.mm.pgd v)) :
    frameRefs swpFrame (Function.update mms pid c.mm) (pid, v) = none := by
  simp only [frameRefs, Function.update_self]
  exact if_neg fun h => not_inRam_of_swapped h hv

/-! ## Calls -/

variable {s s' : MemSys} {a : VmAreaStruct} {call : MemCall}

theorem update_caller (s : MemSys) (pid : Nat) : Function.update s.mm pid (s.caller pid).mm = s.mm :=
  Function.update_eq_self ..

theorem MemSys.after_caller (s : MemSys) (pid : Nat) : s.after pid (s.caller pid) = s := by
  rw [MemSys.after, update_caller]
  rfl

/-- A call keeps the ledger of RAM: no frame is named twice, or named and free. -/
theorem TableCase.ramLedger (ha : (s.mm pid).Single a) (h : TableCase (s.caller pid) a call c'.tables)
    (hL : Ledger n (s.dev .mram).freeFpList s.ramRefs) (hfits : s.FramesFit pid call)
    (hvictim : s.VictimInRam pid call) :
    Ledger n (c'.dev .mram).freeFpList (s.after pid c').ramRefs := by
  have hL' : Ledger n (s.dev .mram).freeFpList (frameRefs ramFrame (Function.update s.mm pid (s.caller pid).mm)) := by
    rw [update_caller]
    exact hL
  generalize ht : c'.tables = t at h
  cases h with
  | same =>
    obtain ⟨hpgd, -, hfree, -⟩ := Tables.mk.inj ht
    rw [hfree, MemSys.ramRefs, MemSys.after, frameRefs_congr hpgd]
    exact hL'
  | @grow size regIndex hcall hv =>
    obtain ⟨hpgd, -, hfree, -⟩ := Tables.mk.inj ht
    rw [hfree, MemSys.ramRefs, MemSys.after, frameRefs_congr hpgd, Caller.mapRam_dev, Function.update_self]
    subst hcall
    by_cases hn : freshPages a (toInt size) ≤ (s.dev .mram).freeFpList.length
    · rw [Caller.mapRam_of_le hn]
      have hsmall := hfits a (ha.mmap ▸ List.mem_singleton_self a) hv hn
      refine mapPages_ledger (fun f hf => hsmall f (List.mem_reverse.mp hf)) (hL'.perm ?_)
      conv_lhs => rw [← List.take_append_drop (freshPages a (toInt size)) (s.dev .mram).freeFpList]
      exact (List.reverse_perm _).symm.append_right _
    · rw [Caller.mapRam_of_gt (Nat.lt_of_not_le hn)]
      exact hL'.sublist (List.drop_sublist ..)
  | fault hpage hp hq =>
    obtain ⟨hpgd, -, hfree, -⟩ := Tables.mk.inj ht
    rw [hfree, MemSys.ramRefs, MemSys.after, frameRefs_congr hpgd]
    exact swapIn_ledger hp (hvictim.inRam hpage hp hq) hL'

theorem boot_refs {g : Word → Option Nat} (hg : g 0 = none) (ram swp : Nat) (x : Nat × Nat) :
    frameRefs g (MemSys.boot ram swp).mm x = none := hg

theorem boot_ledger {g : Word → Option Nat} (hg : g 0 = none) (ram swp sz : Nat) :
    Ledger (sz / PAGING_PAGESZ) (initMemphy .zeroed sz true).freeFpList (frameRefs g (MemSys.boot ram swp).mm) := by
  have hnone : ∀ x f, frameRefs g (MemSys.boot ram swp).mm x ≠ some f := by
    intro x f
    rw [boot_refs hg]
    exact Option.some_ne_none f |>.symm
  rw [initMemphy_zeroed]
  exact ⟨List.nodup_range, fun f => List.mem_range.mp, fun x f hx => absurd hx (hnone x f),
    fun x y f hx => absurd hx (hnone x f), fun x f hx => absurd hx (hnone x f)⟩

theorem boot_full (ref : Nat × Nat → Option Nat) (sz : Nat) :
    Ledger.Full (sz / PAGING_PAGESZ) (initMemphy .zeroed sz true).freeFpList ref := by
  intro f hf
  rw [initMemphy_zeroed]
  exact .inl (List.mem_range.mpr hf)

theorem boot_ramLedger (ram swp : Nat) :
    Ledger (ram / PAGING_PAGESZ) ((MemSys.boot ram swp).dev .mram).freeFpList (MemSys.boot ram swp).ramRefs :=
  boot_ledger (by decide) ram swp ram

theorem ramLedger_step {ram swp : Nat} {act : Nat × MemCall} {r : MemResult} (hs : s.Ok ram swp)
    (hx : sysCall s act = .ok (r, s')) (hL : Ledger n (s.dev .mram).freeFpList s.ramRefs)
    (hfits : s.FramesFit act.1 act.2) (hvictim : s.VictimInRam act.1 act.2) :
    Ledger n (s'.dev .mram).freeFpList s'.ramRefs := by
  obtain ⟨a, c', ha, hc, rfl⟩ := sysCall_cases hs hx
  exact hc.tableCase.ramLedger ha hL hfits hvictim

end SimpleOs.Mm
