import SimpleOs.Mm.FrameLedger
import SimpleOs.Mm.ReplacementQueue

/-!
# Frame conservation on both devices

* `Host`, `hostStep` : the processes with their end, which gives back nothing but the `pcb_t`;
* `Host.Accounts` : every frame is free or named by one entry of an unfinished process;
* `MemSys.Conserves` : the calls that lose no frame; `conserved_step` : they keep both ledgers full;
* `frame_conservation` : runs of such calls, in which finishing processes have touched no page.
-/

namespace SimpleOs.Mm
open CInt

/-! ## Calls that lose no frame -/

/-- Growth finds all the frames it asks for, or none at all. -/
def MemSys.GrowthWhole (s : MemSys) (pid : Nat) : MemCall → Prop
  | .alloc size regIndex => ∀ a ∈ (s.mm pid).mmap, ValidRg (toInt regIndex) →
    freshPages a (toInt size) ≤ (s.dev .mram).freeFpList.length ∨ (s.dev .mram).freeFpList = []
  | _ => True

/-- The number of the slot a fault takes fits the slot field of an entry. -/
def MemSys.SlotFits (s : MemSys) (pid : Nat) (call : MemCall) : Prop :=
  s.faults pid call = true → ∀ slot ∈ (s.dev .activeMswp).freeFpList.head?, slot < 2 ^ 21

/-- The call asks RAM for frames that are all there (or finds none), maps them to absent pages, and
every frame it names fits its field. -/
structure MemSys.Conserves (s : MemSys) (pid : Nat) (call : MemCall) : Prop where
  whole : s.GrowthWhole pid call
  absent : s.GrowthOnto pid (pagingPagePresent · = false) call
  frames : s.FramesFit pid call
  slot : s.SlotFits pid call

instance (s : MemSys) (pid : Nat) : DecidablePred (s.GrowthWhole pid)
  | .alloc size regIndex => inferInstanceAs (Decidable (∀ a ∈ (s.mm pid).mmap, ValidRg (toInt regIndex) →
    freshPages a (toInt size) ≤ (s.dev .mram).freeFpList.length ∨ (s.dev .mram).freeFpList = []))
  | .free _ => inferInstanceAs (Decidable True)
  | .read _ _ => inferInstanceAs (Decidable True)
  | .write _ _ _ => inferInstanceAs (Decidable True)

instance (s : MemSys) (pid : Nat) (call : MemCall) : Decidable (s.SlotFits pid call) :=
  inferInstanceAs (Decidable (_ → _))

instance (s : MemSys) (pid : Nat) (call : MemCall) : Decidable (s.Conserves pid call) :=
  decidable_of_iff (s.GrowthWhole pid call ∧ s.GrowthOnto pid (pagingPagePresent · = false) call ∧
    s.FramesFit pid call ∧ s.SlotFits pid call)
    ⟨fun h => ⟨h.1, h.2.1, h.2.2.1, h.2.2.2⟩, fun h => ⟨h.whole, h.absent, h.frames, h.slot⟩⟩

structure MemSys.Conserved (ram swp : Nat) (s : MemSys) : Prop where
  ramLedger : Ledger (ram / PAGING_PAGESZ) (s.dev .mram).freeFpList s.ramRefs
  ramFull : Ledger.Full (ram / PAGING_PAGESZ) (s.dev .mram).freeFpList s.ramRefs
  swpLedger : Ledger (swp / PAGING_PAGESZ) (s.dev .activeMswp).freeFpList s.swpRefs
  swpFull : Ledger.Full (swp / PAGING_PAGESZ) (s.dev .activeMswp).freeFpList s.swpRefs
  queue : ∀ pid, s.QueueAgrees pid

variable {ram swp n pid : Nat} {s s' : MemSys} {a : VmAreaStruct} {call : MemCall} {c' : Caller}

/-- A call that asks for whole growth onto absent pages loses no RAM frame. -/
theorem TableCase.ramFull (ha : (s.mm pid).Single a) (h : TableCase (s.caller pid) a call c'.tables)
    (hF : Ledger.Full n (s.dev .mram).freeFpList s.ramRefs) (hc : s.Conserves pid call)
    (hvictim : s.VictimInRam pid call) :
    Ledger.Full n (c'.dev .mram).freeFpList (s.after pid c').ramRefs := by
  have hF' : Ledger.Full n (s.dev .mram).freeFpList
      (frameRefs ramFrame (Function.update s.mm pid (s.caller pid).mm)) := by
    rw [update_caller]
    exact hF
  generalize ht : c'.tables = t at h
  cases h with
  | same =>
    obtain ⟨hpgd, -, hfree, -⟩ := Tables.mk.inj ht
    rw [hfree, MemSys.ramRefs, MemSys.after, frameRefs_congr hpgd]
    exact hF'
  | @grow size regIndex hcall hv =>
    obtain ⟨hpgd, -, hfree, -⟩ := Tables.mk.inj ht
    rw [hfree, MemSys.ramRefs, MemSys.after, frameRefs_congr hpgd, Caller.mapRam_dev, Function.update_self]
    subst hcall
    have ham := ha.mmap ▸ List.mem_singleton_self a
    by_cases hn : freshPages a (toInt size) ≤ (s.dev .mram).freeFpList.length
    · rw [Caller.mapRam_of_le hn]
      have hsmall := hc.frames a ham hv hn
      have hlen : ((s.dev .mram).freeFpList.take (freshPages a (toInt size))).reverse.length =
          freshPages a (toInt size) := by
        rw [List.length_reverse, List.length_take]; omega
      refine mapPages_full (fun f hf => hsmall f (List.mem_reverse.mp hf)) ?_ (hF'.perm ?_)
      · intro i hi
        exact hc.absent a ham hv hn i (hlen ▸ hi)
      · conv_lhs => rw [← List.take_append_drop (freshPages a (toInt size)) (s.dev .mram).freeFpList]
        exact (List.reverse_perm _).symm.append_right _
    · have hnil := (hc.whole a ham hv).resolve_left hn
      rw [Caller.mapRam_of_gt (Nat.lt_of_not_le hn)]
      rw [hnil] at hF'
      rw [show (s.caller pid).dev = s.dev from rfl, hnil, List.drop_nil]
      exact hF'
  | fault hpage hp hq =>
    obtain ⟨hpgd, -, hfree, -⟩ := Tables.mk.inj ht
    rw [hfree, MemSys.ramRefs, MemSys.after, frameRefs_congr hpgd]
    exact swapIn_full hp (hvictim.inRam hpage hp hq) hF'

/-- The slots of swap after a call: growth leaves them, a fault moves one slot to its victim. -/
theorem TableCase.swpLedger (ha : (s.mm pid).Single a) (h : TableCase (s.caller pid) a call c'.tables)
    (hL : Ledger n (s.dev .activeMswp).freeFpList s.swpRefs)
    (hF : Ledger.Full n (s.dev .activeMswp).freeFpList s.swpRefs) (hc : s.Conserves pid call)
    (hvictim : s.VictimInRam pid call) :
    Ledger n (c'.dev .activeMswp).freeFpList (s.after pid c').swpRefs ∧
      Ledger.Full n (c'.dev .activeMswp).freeFpList (s.after pid c').swpRefs := by
  have hrefs : s.swpRefs = frameRefs swpFrame (Function.update s.mm pid (s.caller pid).mm) := by
    rw [update_caller]
    rfl
  rw [hrefs] at hL hF
  generalize ht : c'.tables = t at h
  cases h with
  | same =>
    obtain ⟨hpgd, -, -, hfree⟩ := Tables.mk.inj ht
    rw [hfree, MemSys.swpRefs, MemSys.after, frameRefs_congr hpgd]
    exact ⟨hL, hF⟩
  | @grow size regIndex hcall hv =>
    obtain ⟨hpgd, -, -, hfree⟩ := Tables.mk.inj ht
    rw [hfree, MemSys.swpRefs, MemSys.after, frameRefs_congr hpgd, Caller.mapRam_dev,
      Function.update_of_ne (by decide)]
    subst hcall
    by_cases hn : freshPages a (toInt size) ≤ (s.dev .mram).freeFpList.length
    · have hlen : ((s.dev .mram).freeFpList.take (freshPages a (toInt size))).reverse.length =
          freshPages a (toInt size) := by
        rw [List.length_reverse, List.length_take]; omega
      rw [Caller.mapRam_of_le hn, mapPages_swpRefs]
      · exact ⟨hL, hF⟩
      · intro i hi
        exact hc.absent a (ha.mmap ▸ List.mem_singleton_self a) hv hn i (hlen ▸ hi)
    · rw [Caller.mapRam_of_gt (Nat.lt_of_not_le hn)]
      exact ⟨hL, hF⟩
  | fault hpage hp hq _ hs =>
    obtain ⟨hpgd, -, -, hfree⟩ := Tables.mk.inj ht
    have hv := hvictim.inRam hpage hp hq
    have hslot := hc.slot (MemSys.faults_of_page hpage hp) _ (by rw [show s.dev = (s.caller pid).dev from rfl, hs]; rfl)
    rw [show s.dev = (s.caller pid).dev from rfl, hs] at hL hF
    rw [hfree, MemSys.swpRefs, MemSys.after, frameRefs_congr hpgd, swapIn_swpRefs hslot hp hv]
    exact ⟨hL.grant _, hF.grant (swpFrame_victim hv)⟩

theorem boot_conserved (ram swp : Nat) : (MemSys.boot ram swp).Conserved ram swp where
  ramLedger := boot_ramLedger ram swp
  ramFull := boot_full _ ram
  swpLedger := boot_ledger (by decide) ram swp swp
  swpFull := boot_full _ swp
  queue := fun _ => queueAgrees_boot

theorem conserved_step {act : Nat × MemCall} {r : MemResult} (hs : s.Ok ram swp) (hI : s.Conserved ram swp)
    (hc : s.Conserves act.1 act.2) (hx : sysCall s act = .ok (r, s')) : s'.Conserved ram swp := by
  have hqueue : ∀ pid, s'.QueueAgrees pid := fun pid =>
    (queueAgrees_step hs hx (hI.queue pid)).mpr fun hpid =>
      hpid ▸ hc.absent.mono fun pte hp hram => by rw [hram.1] at hp; cases hp
  have hvictim : s.VictimInRam act.1 act.2 := (hI.queue act.1).victimInRam
  obtain ⟨a, c', ha, hout, rfl⟩ := sysCall_cases hs hx
  obtain ⟨hswpL, hswpF⟩ := hout.tableCase.swpLedger ha hI.swpLedger hI.swpFull hc hvictim
  exact ⟨hout.tableCase.ramLedger ha hI.ramLedger hc.frames hvictim,
    hout.tableCase.ramFull ha hI.ramFull hc hvictim, hswpL, hswpF, hqueue⟩

/-! ## Processes that finish -/

structure Host where
  sys : MemSys
  finished : Nat → Bool

inductive HostAct
  | call (pid : Nat) (call : MemCall)
  /-- `cpu_routine` finds the process at the end of its code -/
  | finish (pid : Nat)

/-- A process makes a call, or finishes: `cpu_routine` then frees its `pcb_t` and leaves address space
and devices as they are. -/
def hostStep (s : Host) : HostAct → Exec (Option MemResult × Host)
  | .call pid call =>
    if s.finished pid then .error (.finished pid)
    else do
      let (r, sys) ← sysCall s.sys (pid, call)
      return (some r, { s with sys := sys })
  | .finish pid =>
    if s.finished pid then .error (.finished pid)
    else .ok (none, { s with finished := Function.update s.finished pid true })

def Host.boot (ram swp : Nat) : Host := ⟨.boot ram swp, fun _ => false⟩

/-- The owner map of the entries of unfinished processes. -/
def Host.refs (s : Host) (g : Word → Option Nat) : Nat × Nat → Option Nat :=
  fun x => if s.finished x.1 then none else frameRefs g s.sys.mm x

/-- Every frame of either device is once in its free list, or named by exactly one entry of an
unfinished process. -/
def Host.Accounts (ram swp : Nat) (s : Host) : Prop :=
  (∀ f < ram / PAGING_PAGESZ, Accounted (s.sys.dev .mram).freeFpList (s.refs ramFrame) f) ∧
  ∀ f < swp / PAGING_PAGESZ, Accounted (s.sys.dev .activeMswp).freeFpList (s.refs swpFrame) f

/-- A call conserves the frames; a process that finishes has no page. -/
def Host.Conserves (s : Host) : HostAct → Prop
  | .call pid call => s.sys.Conserves pid call
  | .finish pid => ∀ p, pagingPagePresent ((s.sys.mm pid).pgd p) = false

structure Host.Inv (ram swp : Nat) (s : Host) : Prop where
  ok : s.sys.Ok ram swp
  conserved : s.sys.Conserved ram swp
  gone : ∀ pid, s.finished pid = true → ∀ p, pagingPagePresent ((s.sys.mm pid).pgd p) = false

theorem Host.Inv.refs {s : Host} (h : s.Inv ram swp) {g : Word → Option Nat}
    (hg : ∀ pte, pagingPagePresent pte = false → g pte = none) : s.refs g = frameRefs g s.sys.mm := by
  funext x
  rw [Host.refs]
  split
  · next hx => exact (hg _ (h.gone x.1 hx x.2)).symm
  · rfl

theorem Host.Inv.accounts {s : Host} (h : s.Inv ram swp) : s.Accounts ram swp := by
  constructor
  · intro f hf
    rw [h.refs fun pte hp => (frames_of_not_present hp).1]
    exact h.conserved.ramLedger.accounted h.conserved.ramFull hf
  · intro f hf
    rw [h.refs fun pte hp => (frames_of_not_present hp).2]
    exact h.conserved.swpLedger.accounted h.conserved.swpFull hf

theorem hostStep_inv {s s' : Host} {act : HostAct} {r : Option MemResult} (h : s.Inv ram swp)
    (hc : s.Conserves act) (hx : hostStep s act = .ok (r, s')) : s'.Inv ram swp := by
  cases act with
  | call pid call =>
    rw [hostStep] at hx
    split at hx
    · cases hx
    · next hpid =>
      obtain ⟨⟨r', sys⟩, hcall, hret⟩ := Exec.bind_ok.mp hx
      cases hret
      have hcons : sys.Conserved ram swp :=
        conserved_step h.ok h.conserved (show s.sys.Conserves (pid, call).1 (pid, call).2 from hc) hcall
      refine ⟨sysCall_ok h.ok hcall, hcons, fun i hi => ?_⟩
      obtain ⟨a, c', -, -, rfl⟩ := sysCall_cases h.ok hcall
      have hne : i ≠ pid := fun he => hpid (he ▸ hi)
      rw [MemSys.after_mm_of_ne _ hne]
      exact h.gone i hi
  | finish pid =>
    rw [hostStep] at hx
    split at hx
    · cases hx
    · cases hx
      refine ⟨h.ok, h.conserved, fun i hi => ?_⟩
      by_cases hne : i = pid
      · subst hne
        exact hc
      · have hi' : Function.update s.finished pid true i = true := hi
        rw [Function.update_of_ne hne] at hi'
        exact h.gone i hi'

/-- Frame conservation in every run whose growth asks for whole runs of absent pages, whose frame
numbers fit their fields, and whose finishing processes have touched no page. -/
theorem frame_conservation {s : Host} {h : List (Entry Host HostAct (Option MemResult))} (hram : ram < 2 ^ 31)
    (hswp : swp < 2 ^ 31) (hrun : Run hostStep (Host.boot ram swp) h s)
    (hC : ∀ e ∈ h, e.before.Conserves e.act) : s.Accounts ram swp :=
  (hrun.guarded (I := fun _ (s : Host) => s.Inv ram swp)
    ⟨boot_ok hram hswp, boot_conserved ram swp, fun _ h => Bool.noConfusion h⟩
    (fun _ _ _ _ _ hI hc hx => hostStep_inv hI hc hx) hC).accounts

theorem mm_of_no_call {s : Host} {h : List (Entry Host HostAct (Option MemResult))} {i : Nat} (hram : ram < 2 ^ 31)
    (hswp : swp < 2 ^ 31) (hrun : Run hostStep (Host.boot ram swp) h s)
    (hno : ∀ e ∈ h, ∀ call, e.act ≠ .call i call) : s.sys.mm i = initMm .zeroed := by
  refine (hrun.guarded (I := fun _ (s : Host) => s.sys.Ok ram swp ∧ s.sys.mm i = initMm .zeroed)
    (C := fun _ act => ∀ call, act ≠ .call i call) ⟨boot_ok hram hswp, rfl⟩ ?_ hno).2
  intro _ s act r s' hI hC hx
  obtain ⟨hs, hi⟩ := hI
  cases act with
  | call pid call =>
    rw [hostStep] at hx
    split at hx
    · cases hx
    · obtain ⟨⟨r', sys⟩, hcall, hret⟩ := Exec.bind_ok.mp hx
      cases hret
      refine ⟨sysCall_ok hs hcall, ?_⟩
      obtain ⟨a, c', -, -, rfl⟩ := sysCall_cases hs hcall
      have hne : i ≠ pid := fun he => hC call (he ▸ rfl)
      rw [MemSys.after_mm_of_ne _ hne]
      exact hi
  | finish pid =>
    rw [hostStep] at hx
    split at hx
    · cases hx
    · cases hx
      exact ⟨hs, hi⟩

/-- Two faults of process 0 while process 1 allocates. -/
theorem frame_conservation_faults : ∃ h s, Run hostStep (Host.boot 2048 4096) h s ∧
    h.map Entry.act = [.call 0 (.read 0 0), .call 1 (.alloc 300 0), .call 0 (.write 5 1 0), .call 0 (.alloc 600 1),
      .call 0 (.alloc 256 0)] ∧ s.Accounts 2048 4096 := by
  obtain ⟨h, s, hrun, hact, hp⟩ := exists_run_of_replay hostStep (Host.boot 2048 4096)
    [.call 0 (.read 0 0), .call 1 (.alloc 300 0), .call 0 (.write 5 1 0), .call 0 (.alloc 600 1),
      .call 0 (.alloc 256 0)]
    (fun h _ => h.all fun e => match e.act with
      | .call pid call => decide (e.before.sys.Conserves pid call)
      | .finish _ => false)
    (by decide +kernel)
  refine ⟨h, s, hrun, hact, frame_conservation (by decide) (by decide) hrun fun e he => ?_⟩
  have htest := List.all_eq_true.mp hp e he
  cases hcase : e.act with
  | call pid call =>
    rw [hcase] at htest
    exact of_decide_eq_true (p := e.before.sys.Conserves pid call) htest
  | finish pid =>
    rw [hcase] at htest
    cases htest

/-- A process allocates one page and finishes: its frame is neither free nor named by an unfinished
process. -/
theorem frame_lost_at_finish : ¬ ∀ ram swp : Nat, ram < 2 ^ 31 → swp < 2 ^ 31 → ∀ h s,
    Run hostStep (Host.boot ram swp) h s → s.Accounts ram swp := by
  intro hall
  obtain ⟨h, s, hrun, hact, hp⟩ := exists_run_of_replay hostStep (Host.boot 512 512)
    [.finish 0, .call 0 (.alloc 256 0)]
    (fun _ s => decide (s.finished 0 = true ∧ (s.sys.dev .mram).freeFpList.count 0 = 0)) (by decide +kernel)
  obtain ⟨hfinished, hcount⟩ := of_decide_eq_true hp
  rcases (hall 512 512 (by decide) (by decide) h s hrun).1 0 (by decide) with ⟨hone, -⟩ | ⟨-, x, hx, -⟩
  · rw [hcount] at hone
    cases hone
  · have hx' : s.refs ramFrame x = some 0 := hx
    rw [Host.refs] at hx'
    split at hx'
    · cases hx'
    · next hunfinished =>
      have hne : x.1 ≠ 0 := fun he => hunfinished (he ▸ hfinished)
      have hmm : s.sys.mm x.1 = initMm .zeroed := by
        refine mm_of_no_call (by decide) (by decide) hrun fun e he call hcall => ?_
        have hmem : e.act ∈ h.map Entry.act := List.mem_map_of_mem he
        rw [hact, hcall, List.mem_cons, List.mem_singleton] at hmem
        rcases hmem with hfin | hcall0
        · cases hfin
        · exact hne (HostAct.call.inj hcall0).1
      rw [frameRefs, hmm,
        show ramFrame ((initMm .zeroed).pgd x.2) = none from (show ramFrame 0 = none by decide)] at hx'
      cases hx'

end SimpleOs.Mm
