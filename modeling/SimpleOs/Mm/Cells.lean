import SimpleOs.Lib.View
import SimpleOs.Mm.FrameLedger

/-!
# The bytes of the processes

* `Cell` : an offset in a page of a process; `MemSys.cell` : the RAM address its entry translates it to,
  `MemSys.byte` : the byte there;
* `MemSys.cell_inj` : the ledger of RAM makes the translation injective;
* `CallOutcome.kept` : calls keep the bytes of mapped pages or swap them out; `WriteOutcome.byte` : a
  `libwrite` changes its own byte.
-/

namespace SimpleOs.Mm
open CInt

/-- A process, one of its pages and an offset in it. -/
abbrev Cell := Nat × Nat × Fin PAGING_PAGESZ

def MemSys.cell (s : MemSys) (x : Cell) : Option Nat :=
  (s.ramRefs (x.1, x.2.1)).map (· * PAGING_PAGESZ + x.2.2)

/-- The byte in RAM of a cell. -/
def MemSys.byte (s : MemSys) : Cell → Option BYTE := view s.cell (s.dev .mram).storage

def MemSys.Mapped (s : MemSys) (x : Cell) : Prop := pagingPagePresent ((s.mm x.1).pgd x.2.1) = true

/-- Mapped pages stay mapped, and their bytes are kept or swapped out. -/
def MemSys.Kept (s s' : MemSys) : Prop :=
  ∀ x, s.Mapped x → s'.Mapped x ∧ (s'.byte x = none ∨ s'.byte x = s.byte x)

variable {n pid : Nat} {free : List Nat} {s s' : MemSys} {c c' : Caller} {a : VmAreaStruct} {call : MemCall}

theorem cell_eq_some {x : Cell} {l : Nat} :
    s.cell x = some l ↔ ∃ f, s.ramRefs (x.1, x.2.1) = some f ∧ f * PAGING_PAGESZ + x.2.2 = l := Option.map_eq_some_iff

theorem MemSys.cell_inj (hL : Ledger n free s.ramRefs) {x y : Cell} {l : Nat} (hx : s.cell x = some l)
    (hy : s.cell y = some l) : y = x := by
  obtain ⟨f, hf, rfl⟩ := cell_eq_some.mp hx
  obtain ⟨g, hg, he⟩ := cell_eq_some.mp hy
  have hxo := x.2.2.isLt
  have hyo := y.2.2.isLt
  unfold PAGING_PAGESZ at he hxo hyo
  have hfg : g = f := by omega
  subst hfg
  obtain ⟨hp, hq⟩ := Prod.mk.inj (hL.inj _ _ _ hg hf)
  exact Prod.ext hp (Prod.ext hq (Fin.ext (by omega)))

theorem MemSys.cell_of_inRam {x : Cell} (h : InRam ((s.mm x.1).pgd x.2.1)) :
    s.cell x = some (pagingFpn ((s.mm x.1).pgd x.2.1) * PAGING_PAGESZ + x.2.2) :=
  cell_eq_some.mpr ⟨_, ramFrame_eq_some.mpr ⟨h, rfl⟩, rfl⟩

theorem MemSys.cell_div {x : Cell} {l : Nat} (h : s.cell x = some l) :
    s.ramRefs (x.1, x.2.1) = some (l / PAGING_PAGESZ) := by
  obtain ⟨f, hf, rfl⟩ := cell_eq_some.mp h
  have ho := x.2.2.isLt
  rw [hf]
  unfold PAGING_PAGESZ at *
  congr 1
  omega

theorem MemSys.cell_lt {ram : Nat} (hL : Ledger (ram / PAGING_PAGESZ) free s.ramRefs) {x : Cell} {l : Nat}
    (h : s.cell x = some l) : l < ram := Nat.lt_of_div_lt_div (hL.ref_lt _ _ (MemSys.cell_div h))

theorem MemSys.mapped_of_cell {x : Cell} {l : Nat} (h : s.cell x = some l) : s.Mapped x := by
  obtain ⟨f, hf, -⟩ := cell_eq_some.mp h
  exact (ramFrame_eq_some.mp hf).1.1

theorem kept_of_entries (hpgd : ∀ i p, pagingPagePresent ((s.mm i).pgd p) = true →
    (s'.mm i).pgd p = (s.mm i).pgd p) (hsto : (s'.dev .mram).storage = (s.dev .mram).storage) : s.Kept s' := by
  intro x hx
  have he := hpgd x.1 x.2.1 hx
  refine ⟨by rw [MemSys.Mapped, he]; exact hx, .inr ?_⟩
  refine view_congr ?_ fun l _ => by rw [hsto]
  simp only [MemSys.cell, MemSys.ramRefs, frameRefs, he]

theorem kept_of_pgd (hpgd : c'.mm.pgd = (s.mm pid).pgd) (hsto : (c'.dev .mram).storage = (s.dev .mram).storage) :
    s.Kept (s.after pid c') := by
  refine kept_of_entries (fun i p _ => ?_) hsto
  by_cases hi : i = pid
  · subst hi
    rw [MemSys.after_mm_self, hpgd]
  · rw [MemSys.after_mm_of_ne _ hi]

theorem Kept.refl (s : MemSys) : s.Kept s := fun _ hx => ⟨hx, .inr rfl⟩

/-! ## Growth -/

theorem kept_mapPages {frames : List Nat} {pgn : Nat} (hpgd : c'.mm.pgd = (mapPages pgn frames (s.mm pid)).pgd)
    (hsto : (c'.dev .mram).storage = (s.dev .mram).storage)
    (habs : ∀ i < frames.length, pagingPagePresent ((s.mm pid).pgd (pgn + i)) = false) : s.Kept (s.after pid c') := by
  refine kept_of_entries (fun i p hp => ?_) hsto
  by_cases hi : i = pid
  · subst hi
    rw [MemSys.after_mm_self, hpgd]
    refine mapPages_pgd_of_notMem ?_
    by_contra hin
    rw [not_or, Nat.not_lt, Nat.not_le] at hin
    have := habs (p - pgn) (by omega)
    rw [Nat.add_sub_cancel' hin.1, hp] at this
    cases this
  · rw [MemSys.after_mm_of_ne _ hi]

theorem kept_grow {size regIndex : Nat} (ha : (s.mm pid).Single a)
    (habs : s.GrowthOnto pid (pagingPagePresent · = false) (.alloc size regIndex)) (hv : ValidRg (toInt regIndex))
    (hpgd : c'.mm.pgd = ((s.caller pid).mapRam (freshStart a) (freshPages a (toInt size))).mm.pgd)
    (hsto : (c'.dev .mram).storage = (s.dev .mram).storage) : s.Kept (s.after pid c') := by
  by_cases hn : freshPages a (toInt size) ≤ (s.dev .mram).freeFpList.length
  · rw [Caller.mapRam_of_le hn] at hpgd
    refine kept_mapPages hpgd hsto fun i hi => ?_
    rw [List.length_reverse, List.length_take] at hi
    exact habs a (ha.mmap ▸ List.mem_singleton_self a) hv hn i (by omega)
  · rw [Caller.mapRam_of_gt (Nat.lt_of_not_le hn)] at hpgd
    exact kept_of_pgd hpgd hsto

/-! ## Accesses -/

theorem kept_swapIn {pgn v slot : Nat} {l rest : List Nat} (hL : Ledger n free s.ramRefs)
    (hp : pagingPagePresent ((s.mm pid).pgd pgn) = false) (hv : InRam ((s.mm pid).pgd v)) :
    s.Kept (s.after pid ((s.caller pid).swapIn pgn l v slot rest)) := by
  have hne := ne_of_not_present hp hv
  intro x hx
  by_cases hpid : x.1 = pid ∧ (x.2.1 = pgn ∨ x.2.1 = v)
  · obtain ⟨rfl, rfl | hxv⟩ := hpid
    · rw [MemSys.Mapped, hp] at hx
      cases hx
    · have hsw : Swapped (((s.after x.1 ((s.caller x.1).swapIn pgn l v slot rest)).mm x.1).pgd x.2.1) := by
        rw [MemSys.after_mm_self, hxv, Caller.swapIn_pgd_victim _ hne]
        exact swapped_setSwap ..
      refine ⟨(present_iff _).mpr (.inr hsw), .inl (view_of_none (Option.map_eq_none_iff.mpr ?_))⟩
      exact if_neg (not_inRam_of_swapped hsw)
  · have he : ((s.after pid ((s.caller pid).swapIn pgn l v slot rest)).mm x.1).pgd x.2.1 = (s.mm x.1).pgd x.2.1 := by
      by_cases hi : x.1 = pid
      · subst hi
        rw [not_and_or, not_or] at hpid
        obtain ⟨hxp, hxv⟩ := hpid.resolve_left fun h => h rfl
        rw [MemSys.after_mm_self]
        exact Caller.swapIn_pgd_of_ne _ hxp hxv ..
      · rw [MemSys.after_mm_of_ne _ hi]
    refine ⟨by rw [MemSys.Mapped, he]; exact hx, .inr (view_congr ?_ fun l' hl' => ?_)⟩
    · simp only [MemSys.cell, MemSys.ramRefs, frameRefs, he]
    · refine copyFrame_of_ne fun hf => hpid ?_
      have hvic : s.ramRefs (pid, v) = some (pagingFpn ((s.mm pid).pgd v)) := ramFrame_eq_some.mpr ⟨hv, rfl⟩
      obtain ⟨hi, hxv⟩ := Prod.mk.inj (hL.inj _ _ _ (hf ▸ MemSys.cell_div hl') hvic)
      exact ⟨hi, .inr hxv⟩

theorem PageOutcome.kept {pgn : Nat} {fpn : Option Nat} (h : PageOutcome (s.caller pid) pgn fpn c')
    (hL : Ledger n free s.ramRefs) (hpage : call.page (s.mm pid) = some pgn) (hvictim : s.VictimInRam pid call) :
    s.Kept (s.after pid c') := by
  cases h with
  | hit => exact (s.after_caller pid).symm ▸ Kept.refl s
  | noVictim => exact (s.after_caller pid).symm ▸ Kept.refl s
  | swapIn hp hq => exact kept_swapIn hL hp (hvictim.inRam hpage hp hq)

/-- The page reached is in RAM, in the frame found, unless it was marked swapped. -/
theorem PageOutcome.cell {pgn fpn : Nat} (h : PageOutcome (s.caller pid) pgn (some fpn) c')
    (hres : ¬ Swapped ((s.mm pid).pgd pgn)) (o : Fin PAGING_PAGESZ) :
    (s.after pid c').cell (pid, pgn, o) = some (fpn * PAGING_PAGESZ + o) := by
  have hram : InRam (((s.after pid c').mm pid).pgd pgn) ∧ pagingFpn (((s.after pid c').mm pid).pgd pgn) = fpn := by
    rw [MemSys.after_mm_self]
    cases h with
    | hit hp => exact ⟨((present_iff _).mp hp).resolve_right hres, rfl⟩
    | swapIn =>
      refine ⟨?_, swapIn_fpn ..⟩
      simp only [Caller.swapIn, Function.update_self]
      exact inRam_setFpn ..
  rw [MemSys.cell_of_inRam hram.1, hram.2]

/-- The process holds the frame of an access whose page was not marked swapped. -/
theorem PageOutcome.ramRefs {pgn fpn : Nat} (h : PageOutcome (s.caller pid) pgn (some fpn) c')
    (hres : ¬ Swapped ((s.mm pid).pgd pgn)) (mm : MmStruct) (rgid offset : Int) :
    (s.after pid c').ramRefs (pid, pgn) = some (accessPhy mm rgid offset fpn / PAGING_PAGESZ) :=
  MemSys.cell_div (x := (pid, pgn, ⟨_, pagingOffst_lt _⟩)) (h.cell hres _)

/-- A `libwrite` that finds a page in RAM changes its own byte. -/
theorem byte_store {x : Cell} {addr : Nat} (hL : Ledger n free (s.after pid c).ramRefs)
    (hx : (s.after pid c).cell x = some addr) (value : BYTE) :
    (s.after pid (c.store addr value)).byte = Function.update (s.after pid c).byte x (some value) := by
  have hsto : (((s.after pid (c.store addr value)).dev .mram).storage) =
      Function.update ((s.after pid c).dev .mram).storage addr value := by
    simp [Caller.store]
  rw [MemSys.byte, hsto]
  exact view_store (fun y hy => MemSys.cell_inj hL hx hy) hx value

/-! ## Calls -/

def MemCall.Writes : MemCall → Prop
  | .write _ _ _ => True
  | _ => False

instance : DecidablePred MemCall.Writes
  | .alloc _ _ => inferInstanceAs (Decidable False)
  | .free _ => inferInstanceAs (Decidable False)
  | .read _ _ => inferInstanceAs (Decidable False)
  | .write _ _ _ => inferInstanceAs (Decidable True)

/-- Calls other than `libwrite` keep the bytes of mapped pages or swap them out. -/
theorem CallOutcome.kept {r : MemResult} (h : CallOutcome (s.caller pid) a call r c') (ha : (s.mm pid).Single a)
    (hL : Ledger n free s.ramRefs) (hvictim : s.VictimInRam pid call)
    (habs : s.GrowthOnto pid (pagingPagePresent · = false) call) (hw : ¬ call.Writes) : s.Kept (s.after pid c') := by
  rcases h with (- | ⟨hv, -, -⟩) | (- | - | -) | (- | ⟨-, hp⟩ | ⟨-, hp, -⟩) | -
  · exact kept_of_pgd rfl rfl
  · exact kept_grow ha habs hv rfl (by rw [Caller.place, Caller.mapRam_dev, Function.update_self]; rfl)
  · exact kept_of_pgd rfl rfl
  · exact kept_of_pgd rfl rfl
  · exact kept_of_pgd rfl rfl
  · exact kept_of_pgd rfl rfl
  · exact hp.kept hL rfl hvictim
  · exact hp.kept hL rfl hvictim
  · exact absurd trivial hw

end SimpleOs.Mm
