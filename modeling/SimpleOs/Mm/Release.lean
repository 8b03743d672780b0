import Mathlib.Data.List.Nodup
import SimpleOs.Mm.Structs

/-!
# The frames of a finished process (`free_pcb_memph`)

* `freePcbMemph` : every entry of the page table puts one frame on a free list, an absent one a frame of RAM, a present
  one a frame of swap;
* `residentFrames`, `swappedFrames` : the frames the entries name; `ReleasesExactly` : they are what the lists gain;
* `freePcbMemph_mram`, `freePcbMemph_swp` : what the lists gain, `absentFields` and `presentFields`;
* `releasesExactly_iff` : the two agree on the processes that are wholly swapped.
-/

namespace SimpleOs.Mm

/-- The rounds of `free_pcb_memph` from page `pagenum` on. -/
def freePcbMemphLoop (pagenum : Nat) : Nat → Caller → Caller
  | 0, c => c
  | left + 1, c =>
    let pte := c.mm.pgd pagenum
    if !pagingPagePresent pte then
      let fpn := pagingFpn pte
      freePcbMemphLoop (pagenum + 1) left (c.setDev .mram (memphyPutFreefp (c.dev .mram) fpn).2)
    else
      let fpn := pagingPteSwp pte
      freePcbMemphLoop (pagenum + 1) left (c.setDev .activeMswp (memphyPutFreefp (c.dev .activeMswp) fpn).2)

/-- `free_pcb_memph` : status and devices. -/
def freePcbMemph (c : Caller) : Int × Caller := (0, freePcbMemphLoop 0 PAGING_MAX_PGN c)

/-- The RAM frames of the resident pages. -/
def MmStruct.residentFrames (mm : MmStruct) : List Nat :=
  (List.range PAGING_MAX_PGN).filterMap fun p => ramFrame (mm.pgd p)

/-- The swap frames of the swapped pages. -/
def MmStruct.swappedFrames (mm : MmStruct) : List Nat :=
  (List.range PAGING_MAX_PGN).filterMap fun p => swpFrame (mm.pgd p)

/-- No frame is named twice, and none is free. -/
structure Caller.OwnsFrames (c : Caller) : Prop where
  resident : c.mm.residentFrames.Nodup
  swapped : c.mm.swappedFrames.Nodup
  notFree : ∀ f ∈ c.mm.residentFrames, f ∉ (c.dev .mram).freeFpList
  notFreeSwp : ∀ f ∈ c.mm.swappedFrames, f ∉ (c.dev .activeMswp).freeFpList

/-- The free lists gain the frames of the process and nothing else. -/
def ReleasesExactly (c : Caller) : Prop :=
  ((freePcbMemph c).2.dev .mram).freeFpList.Perm (c.mm.residentFrames ++ (c.dev .mram).freeFpList) ∧
    ((freePcbMemph c).2.dev .activeMswp).freeFpList.Perm (c.mm.swappedFrames ++ (c.dev .activeMswp).freeFpList)

/-! ## What the lists gain -/

def absentField (pte : Word) : Option Nat := if pagingPagePresent pte then none else some (pagingFpn pte)

def presentField (pte : Word) : Option Nat := if pagingPagePresent pte then some (pagingPteSwp pte) else none

variable {c : Caller} {pagenum left : Nat}

theorem freePcbMemphLoop_free (pagenum left : Nat) (c : Caller) :
    ((freePcbMemphLoop pagenum left c).dev .mram).freeFpList =
        ((List.range' pagenum left).filterMap fun p => absentField (c.mm.pgd p)).reverse ++ (c.dev .mram).freeFpList ∧
      ((freePcbMemphLoop pagenum left c).dev .activeMswp).freeFpList =
        ((List.range' pagenum left).filterMap fun p => presentField (c.mm.pgd p)).reverse ++
          (c.dev .activeMswp).freeFpList := by
  induction left generalizing pagenum c with
  | zero => exact ⟨rfl, rfl⟩
  | succ left ih =>
    rw [freePcbMemphLoop, List.range'_succ]
    by_cases hp : pagingPagePresent (c.mm.pgd pagenum) = true
    · have habs : absentField (c.mm.pgd pagenum) = none := if_pos hp
      have hpres : presentField (c.mm.pgd pagenum) = some (pagingPteSwp (c.mm.pgd pagenum)) := if_pos hp
      rw [if_neg (by rw [hp]; decide), (ih ..).1, (ih ..).2]
      simp only [List.filterMap_cons, habs, hpres, List.reverse_cons, List.append_assoc, Caller.setDev_mm,
        Caller.setDev_dev_self, Caller.setDev_swp_mram, memphyPutFreefp, List.singleton_append, and_self]
    · rw [Bool.not_eq_true] at hp
      have habs : absentField (c.mm.pgd pagenum) = some (pagingFpn (c.mm.pgd pagenum)) := by rw [absentField, hp]; rfl
      have hpres : presentField (c.mm.pgd pagenum) = none := by rw [presentField, hp]; rfl
      rw [if_pos (by rw [hp]; rfl), (ih ..).1, (ih ..).2]
      simp only [List.filterMap_cons, habs, hpres, List.reverse_cons, List.append_assoc, Caller.setDev_mm,
        Caller.setDev_dev_self, Caller.setDev_mram_swp, memphyPutFreefp, List.singleton_append, and_self]

theorem freePcbMemph_mram (c : Caller) :
    ((freePcbMemph c).2.dev .mram).freeFpList.Perm
      (((List.range PAGING_MAX_PGN).filterMap fun p => absentField (c.mm.pgd p)) ++ (c.dev .mram).freeFpList) := by
  rw [freePcbMemph, (freePcbMemphLoop_free ..).1, List.range_eq_range']
  exact (List.reverse_perm _).append_right _

theorem freePcbMemph_swp (c : Caller) :
    ((freePcbMemph c).2.dev .activeMswp).freeFpList.Perm
      (((List.range PAGING_MAX_PGN).filterMap fun p => presentField (c.mm.pgd p)) ++
        (c.dev .activeMswp).freeFpList) := by
  rw [freePcbMemph, (freePcbMemphLoop_free ..).2, List.range_eq_range']
  exact (List.reverse_perm _).append_right _

theorem releasesExactly_iff_perm : ReleasesExactly c ↔
    ((List.range PAGING_MAX_PGN).filterMap fun p => absentField (c.mm.pgd p)).Perm c.mm.residentFrames ∧
      ((List.range PAGING_MAX_PGN).filterMap fun p => presentField (c.mm.pgd p)).Perm c.mm.swappedFrames :=
  and_congr ((List.Perm.congr_left (freePcbMemph_mram c) _).trans (List.perm_append_right_iff _))
    ((List.Perm.congr_left (freePcbMemph_swp c) _).trans (List.perm_append_right_iff _))

/-! ## When they are the frames of the process -/

theorem entry_cases (pte : Word) :
    (absentField pte = some (pagingFpn pte) ∧ presentField pte = none ∧ ramFrame pte = none ∧ swpFrame pte = none) ∨
      (absentField pte = none ∧ presentField pte = some (pagingPteSwp pte) ∧ ramFrame pte = some (pagingFpn pte) ∧
        swpFrame pte = none) ∨
      (absentField pte = none ∧ presentField pte = some (pagingPteSwp pte) ∧ ramFrame pte = none ∧
        swpFrame pte = some (pagingPteSwp pte)) := by
  by_cases hp : pagingPagePresent pte = true
  · by_cases hs : pte &&& PAGING_PTE_SWAPPED_MASK = 0#32
    · exact .inr (.inl ⟨if_pos hp, if_pos hp, if_pos ⟨hp, hs⟩, if_neg fun h => h.2 hs⟩)
    · exact .inr (.inr ⟨if_pos hp, if_pos hp, if_neg fun h => hs h.2, if_pos ⟨hp, hs⟩⟩)
  · exact .inl ⟨if_neg hp, if_neg hp, if_neg fun h => hp h.1, if_neg fun h => hp h.1⟩

theorem length_fields (pgd : Nat → Word) (l : List Nat) :
    (l.filterMap fun p => presentField (pgd p)).length =
        (l.filterMap fun p => ramFrame (pgd p)).length + (l.filterMap fun p => swpFrame (pgd p)).length ∧
      (l.filterMap fun p => absentField (pgd p)).length + (l.filterMap fun p => presentField (pgd p)).length =
        l.length := by
  induction l with
  | nil => exact ⟨rfl, rfl⟩
  | cons p l ih =>
    obtain ⟨ih₁, ih₂⟩ := ih
    rcases entry_cases (pgd p) with ⟨ha, hp, hr, hs⟩ | ⟨ha, hp, hr, hs⟩ | ⟨ha, hp, hr, hs⟩ <;>
      simp only [List.filterMap_cons, ha, hp, hr, hs, List.length_cons] <;> omega

theorem presentField_of_swapped {pte : Word} (h : Swapped pte) : presentField pte = swpFrame pte := by
  rw [presentField, swpFrame, if_pos h.1, if_pos h]

theorem absentField_of_swapped {pte : Word} (h : Swapped pte) : absentField pte = none := if_pos h.1

theorem ramFrame_of_swapped {pte : Word} (h : Swapped pte) : ramFrame pte = none := if_neg fun hr => h.2 hr.2

/-- A process gives back its frames and nothing else if and only if every page of its address space is swapped. -/
theorem releasesExactly_iff (c : Caller) : ReleasesExactly c ↔ ∀ p < PAGING_MAX_PGN, Swapped (c.mm.pgd p) := by
  rw [releasesExactly_iff_perm]
  constructor
  · rintro ⟨hram, hswp⟩
    have hram := hram.length_eq
    have hswp := hswp.length_eq
    obtain ⟨hsum, htotal⟩ := length_fields c.mm.pgd (List.range PAGING_MAX_PGN)
    rw [MmStruct.residentFrames] at hram
    rw [MmStruct.swappedFrames] at hswp
    have hall : (c.mm.swappedFrames).length = (List.range PAGING_MAX_PGN).length := by
      rw [MmStruct.swappedFrames]; omega
    intro p hp
    have hsome := List.filterMap_length_eq_length.mp hall p (List.mem_range.mpr hp)
    rw [swpFrame, Option.isSome_ite] at hsome
    exact hsome
  · intro hswapped
    have hmem : ∀ p ∈ List.range PAGING_MAX_PGN, Swapped (c.mm.pgd p) := fun p hp => hswapped p (List.mem_range.mp hp)
    have habs : (List.range PAGING_MAX_PGN).filterMap (fun p => absentField (c.mm.pgd p)) = c.mm.residentFrames :=
      List.filterMap_congr fun p hp => (absentField_of_swapped (hmem p hp)).trans (ramFrame_of_swapped (hmem p hp)).symm
    have hpres : (List.range PAGING_MAX_PGN).filterMap (fun p => presentField (c.mm.pgd p)) = c.mm.swappedFrames :=
      List.filterMap_congr fun p hp => presentField_of_swapped (hmem p hp)
    exact ⟨.of_eq habs, .of_eq hpres⟩

/-- A new process on a machine with 4096 bytes of RAM and no swap. -/
def newProcess : Caller where
  mm := initMm .zeroed
  dev := fun d => initMemphy .zeroed (if d = .mram then 4096 else 0) true

theorem newProcess_pgd (p : Nat) : newProcess.mm.pgd p = 0#32 := rfl

theorem newProcess_residentFrames : newProcess.mm.residentFrames = [] :=
  List.filterMap_eq_nil_iff.mpr fun p _ => by rw [newProcess_pgd]; decide

theorem newProcess_swappedFrames : newProcess.mm.swappedFrames = [] :=
  List.filterMap_eq_nil_iff.mpr fun p _ => by rw [newProcess_pgd]; decide

theorem newProcess_ownsFrames : newProcess.OwnsFrames := by
  refine ⟨?_, ?_, ?_, ?_⟩
  · rw [newProcess_residentFrames]
    exact .nil
  · rw [newProcess_swappedFrames]
    exact .nil
  · rw [newProcess_residentFrames]
    exact fun f hf => absurd hf List.not_mem_nil
  · rw [newProcess_swappedFrames]
    exact fun f hf => absurd hf List.not_mem_nil

/-- Page 0 was never mapped, and its entry puts frame 0 on the list. -/
theorem release_new_process : ¬ ∀ c : Caller, c.OwnsFrames → ReleasesExactly c := by
  intro h
  have hgain := (releasesExactly_iff_perm.mp (h newProcess newProcess_ownsFrames)).1
  rw [newProcess_residentFrames] at hgain
  have hnil := List.filterMap_eq_nil_iff.mp hgain.eq_nil 0 (List.mem_range.mpr (by decide))
  rw [newProcess_pgd] at hnil
  revert hnil
  decide

end SimpleOs.Mm
