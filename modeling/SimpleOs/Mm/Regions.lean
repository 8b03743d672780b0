import SimpleOs.Lib.Cover
import SimpleOs.Mm.FreeSearch

/-!
# Regions of an address space

* `VmRgStruct.has`, `MmStruct.regions` : the bytes of a region, and all live and free regions;
* `searchFrom_cut` : a free range that serves a request is cut off one entry of the free region list;
* `AllocCase.placed` : an allocation covers no byte that was covered by another region;
* `Regions` : the invariant joining symbol table, free region list and break; `CallOutcome.regions` : a
  call keeps it;
* `regions_disjoint` : live and free regions never overlap.
-/

namespace SimpleOs.Mm
open CInt

/-- Byte `x` lies in the half-open range of a region. -/
def VmRgStruct.has (rg : VmRgStruct) (x : Nat) : Bool := rg.rgStart ≤ x && x < rg.rgEnd

/-- The regions of `symrgtbl` and of the free region list `l`. -/
def MmStruct.regions (mm : MmStruct) (l : List VmRgStruct) : List VmRgStruct :=
  (List.range PAGING_MAX_SYMTBL_SZ).map mm.symrgtbl ++ l

/-- How many regions of `l` hold byte `x`. -/
def cover (l : List VmRgStruct) (x : Nat) : Nat := l.countP (·.has x)

def within (lo hi x : Nat) : Nat := if lo ≤ x ∧ x < hi then 1 else 0

theorem cover_cons (rg : VmRgStruct) (l : List VmRgStruct) (x : Nat) :
    cover (rg :: l) x = cover l x + within rg.rgStart rg.rgEnd x := by
  unfold cover within VmRgStruct.has
  rw [List.countP_cons]
  simp only [Bool.and_eq_true, decide_eq_true_eq]

theorem cover_append (l l' : List VmRgStruct) (x : Nat) : cover (l ++ l') x = cover l x + cover l' x :=
  List.countP_append

theorem within_split {lo mid hi : Nat} (h₁ : lo ≤ mid) (h₂ : mid ≤ hi) (x : Nat) :
    within lo hi x = within lo mid x + within mid hi x := by
  unfold within
  split_ifs <;> omega

theorem within_self (lo x : Nat) : within lo lo x = 0 := if_neg (by omega)

/-! ## The search of the free region list -/

def FreeOk (b : Nat) (l : List VmRgStruct) : Prop := ∀ rg ∈ l, rg.rgStart ≤ rg.rgEnd ∧ rg.rgEnd ≤ b

theorem FreeOk.cons {b : Nat} {rg : VmRgStruct} {l : List VmRgStruct} :
    FreeOk b (rg :: l) ↔ (rg.rgStart ≤ rg.rgEnd ∧ rg.rgEnd ≤ b) ∧ FreeOk b l := List.forall_mem_cons

theorem FreeOk.mono {b b' : Nat} {l : List VmRgStruct} (h : FreeOk b l) (hb : b ≤ b') : FreeOk b' l :=
  fun rg hrg => ⟨(h rg hrg).1, (h rg hrg).2.trans hb⟩

/-- The range `nr` was cut out of the free regions `l`, leaving `l'`. -/
structure Cut (b : Nat) (size : Int) (l l' : List VmRgStruct) (nr : Nat × Nat) : Prop where
  size : (nr.2 : Int) = nr.1 + size
  bound : nr.2 ≤ b
  free : FreeOk b l'
  cover : ∀ x, Mm.cover l' x + within nr.1 nr.2 x ≤ Mm.cover l x

theorem toULong_add {m : Nat} {size : Int} (h₀ : 0 ≤ size) (hm : m + size < 18446744073709551616) :
    (toULong (m + toULong size) : Int) = m + size := by
  rw [toULong_of_nonneg (x := size) h₀ (by omega)]
  exact toULong_of_nonneg (by omega) hm

variable {b : Nat} {vmaid size : Int} {nr newrg : Nat × Nat} {l l' rgNext : List VmRgStruct} {rgit : VmRgStruct}
  {x : FreeSearch}

theorem fitEnd_eq (rg : VmRgStruct) (h₀ : 0 ≤ size) (h : rg.rgStart + size < 2 ^ 64) :
    (fitEnd size rg : Int) = rg.rgStart + size :=
  toULong_add h₀ h

def SearchCut (b : Nat) (size : Int) (l : List VmRgStruct) (newrg : Nat × Nat) (x : FreeSearch) : Prop :=
  Cut b size l x.2.2 x.2.1 ∨ (x.1 = false ∧ x.2.1 = newrg ∧ x.2.2 = l)

theorem cut_head (h₀ : 0 ≤ size) (hb : b + size < 18446744073709551616) (hok : FreeOk b (rgit :: rgNext))
    (hfit : Fits size rgit) : Cut b size (rgit :: rgNext) ({ rgit with rgStart := fitEnd size rgit } :: rgNext)
      (rgit.rgStart, fitEnd size rgit) := by
  rw [FreeOk.cons] at hok
  have hend := fitEnd_eq rgit h₀ (by omega)
  refine ⟨hend, hfit.trans hok.1.2, FreeOk.cons.mpr ⟨⟨hfit, hok.1.2⟩, hok.2⟩, fun x => ?_⟩
  have hsplit := within_split (show rgit.rgStart ≤ fitEnd size rgit by omega) hfit x
  rw [cover_cons, cover_cons rgit]
  dsimp only
  omega

theorem searchCut_cons (h₀ : 0 ≤ size) (hb : b + size < 18446744073709551616) (hok : FreeOk b (rgit :: rgNext))
    (hne : fitEnd size rgit ≠ rgit.rgEnd)
    (hnext : ∀ y, searchFrom vmaid size rgNext newrg = .ok y → SearchCut b size rgNext newrg y)
    (h : searchFrom vmaid size (rgit :: rgNext) newrg = .ok x) : SearchCut b size (rgit :: rgNext) newrg x := by
  by_cases hv : rgit.vmaid = toULong vmaid
  · by_cases hfit : fitEnd size rgit < rgit.rgEnd
    · rw [searchFrom_shrink hv hfit] at h
      cases h
      exact .inl (cut_head h₀ hb hok hfit.le)
    · rw [searchFrom_skip hv (by omega)] at h
      obtain ⟨y, hy, hx⟩ := Exec.bind_ok.mp h
      cases hx
      rcases hnext y hy with hcut | ⟨hfound, hnr, hl⟩
      · refine .inl ⟨hcut.size, hcut.bound, FreeOk.cons.mpr ⟨(FreeOk.cons.mp hok).1, hcut.free⟩, fun x => ?_⟩
        have := hcut.cover x
        dsimp only
        rw [cover_cons, cover_cons rgit]
        omega
      · exact .inr ⟨hfound, hnr, congrArg _ hl⟩
  · rw [searchFrom_vmaid hv] at h
    cases h
    exact .inr ⟨rfl, rfl, rfl⟩

/-- A node that is taken whole is replaced by its successor, and the search goes on there. -/
theorem searchCut_take {next : VmRgStruct} (h₀ : 0 ≤ size) (hb : b + size < 18446744073709551616)
    (hok : FreeOk b (rgit :: next :: rgNext)) (hfit : fitEnd size rgit = rgit.rgEnd)
    (hrec : SearchCut b size ({ rgit with rgStart := next.rgStart, rgEnd := next.rgEnd } :: rgNext)
      (rgit.rgStart, rgit.rgEnd) x) : SearchCut b size (rgit :: next :: rgNext) newrg x := by
  rw [FreeOk.cons] at hok
  have hend := fitEnd_eq rgit h₀ (by omega)
  rw [hfit] at hend
  have hsucc : ∀ x, cover ({ rgit with rgStart := next.rgStart, rgEnd := next.rgEnd } :: rgNext) x +
      within rgit.rgStart rgit.rgEnd x = cover (rgit :: next :: rgNext) x := by
    intro x
    rw [cover_cons, cover_cons, cover_cons]
  rcases hrec with hcut | ⟨-, hnr, hl⟩
  · refine .inl ⟨hcut.size, hcut.bound, hcut.free, fun x => ?_⟩
    have := hcut.cover x
    have := hsucc x
    omega
  · rw [SearchCut, hnr, hl]
    have hnext := FreeOk.cons.mp hok.2
    exact .inl ⟨hend, hok.1.2, FreeOk.cons.mpr ⟨hnext.1, hnext.2⟩, fun x => (hsucc x).le⟩

/-- The search cuts one range out of the free regions, or leaves them. -/
theorem searchFrom_cut (h₀ : 0 ≤ size) (hb : b + size < 18446744073709551616) (hok : FreeOk b l)
    (h : searchFrom vmaid size l newrg = .ok x) : SearchCut b size l newrg x := by
  induction hn : l.length using Nat.strong_induction_on generalizing l newrg x with
  | _ n ih =>
  subst hn
  cases l with
  | nil =>
    cases h
    exact .inr ⟨rfl, rfl, rfl⟩
  | cons rgit rgNext =>
    have hcons := FreeOk.cons.mp hok
    by_cases hfit : fitEnd size rgit = rgit.rgEnd
    · by_cases hv : rgit.vmaid = toULong vmaid
      · cases rgNext with
        | nil =>
          -- the last node is taken whole and looked at again, now empty
          have hdummy := fitEnd_eq (dummyOf rgit) h₀ (by dsimp only [dummyOf]; omega)
          dsimp only [dummyOf] at hdummy
          rw [searchFrom_dummy hv hfit] at h
          split at h
          · cases h
          · have hdv : (dummyOf rgit).vmaid = toULong vmaid := hv
            rw [searchFrom_skip hdv (by dsimp only [dummyOf] at *; omega), searchFrom, Exec.ok_bind] at h
            cases h
            have hcut := cut_head h₀ hb hok hfit.le
            rw [hfit] at hcut
            exact .inl hcut
        | cons next rgNext =>
          rw [searchFrom_take hv hfit] at h
          have hnext := FreeOk.cons.mp hcons.2
          exact searchCut_take h₀ hb hok hfit
            (ih _ (Nat.lt_succ_self _) (FreeOk.cons.mpr ⟨hnext.1, hnext.2⟩) h rfl)
      · rw [searchFrom_vmaid hv] at h
        cases h
        exact .inr ⟨rfl, rfl, rfl⟩
    · exact searchCut_cons h₀ hb hok hfit (fun y hy => ih _ (Nat.lt_succ_self _) hcons.2 hy rfl) h

theorem freeSearchList_spec {ret : Int} {o : Option (Nat × Nat)} (h₀ : 0 ≤ size)
    (hb : b + size < 18446744073709551616) (hok : FreeOk b l)
    (h : freeSearchList vmaid size l = .ok (ret, o, l')) :
    (ret = 0 ∧ ∃ nr, o = some nr ∧ Cut b size l l' nr) ∨
      (ret = -1 ∧ FreeOk b l' ∧ ∀ x, cover l' x ≤ cover l x) := by
  by_cases hnil : l = []
  · subst hnil
    cases h
    exact .inr ⟨rfl, hok, fun _ => le_rfl⟩
  · rw [freeSearchList_eq hnil] at h
    obtain ⟨⟨found, nr, l''⟩, hx, h⟩ := Exec.bind_ok.mp h
    simp only [Except.ok.injEq, Prod.mk.injEq] at h
    obtain ⟨hret, rfl, rfl⟩ := h
    rcases searchFrom_cut h₀ hb hok hx with hcut | ⟨hfound, hnr, hl⟩
    · by_cases hunset : found = false ∧ nr.1 = toULong (-1)
      · rw [if_pos hunset] at hret
        refine .inr ⟨hret.symm, hcut.free, fun x => ?_⟩
        have := hcut.cover x
        dsimp only at this
        omega
      · rw [if_neg hunset] at hret
        exact .inl ⟨hret.symm, nr, rfl, hcut⟩
    · dsimp only at hfound hnr hl
      subst hfound hnr hl
      rw [if_pos ⟨rfl, rfl⟩] at hret
      exact .inr ⟨hret.symm, hok, fun _ => le_rfl⟩

/-! ## Placing a region -/

/-- A request of `size` bytes is served from the free region list. -/
def servedFree (a : VmAreaStruct) (size : Int) : Bool :=
  match freeSearchList 0 size a.vmFreergList with
  | .ok (ret, _, _) => ret = 0
  | .error _ => false

/-- The break arithmetic of a request is exact. -/
structure HeapExact (a : VmAreaStruct) (size : Int) : Prop where
  nonneg : 0 ≤ size
  brk : a.sbrk + size < 2 ^ 31
  align : size + PAGING_PAGESZ ≤ 2 ^ 31

/-- The region `rg` was placed: the break did not move down, and the bytes of `rg` were free or above
the break. -/
structure Placed (a a' : VmAreaStruct) (size : Int) (rg : VmRgStruct) : Prop where
  brk : a.sbrk ≤ a'.sbrk
  size : (rg.rgEnd : Int) = rg.rgStart + size
  bound : rg.rgEnd ≤ a'.sbrk
  free : FreeOk a'.sbrk a'.vmFreergList
  cover : ∀ x, cover a'.vmFreergList x + within rg.rgStart rg.rgEnd x ≤
    cover a.vmFreergList x + within a.sbrk a'.sbrk x

variable {a a' : VmAreaStruct} {rg : VmRgStruct}

theorem growthAmt_spec (h₀ : 0 ≤ size) (h : size + PAGING_PAGESZ ≤ 2 ^ 31) :
    size ≤ growthAmt size ∧ growthAmt size < size + PAGING_PAGESZ ∧ (PAGING_PAGESZ : Int) ∣ growthAmt size := by
  have hsz : (PAGING_PAGESZ : Int) = 256 := rfl
  unfold growthAmt pagingPageAlignsz
  rw [hsz] at h ⊢
  have h₁ := alignUp_bounds (show (0 : Int) < 256 by decide) h₀ (by omega)
  have h₂ := alignUp_bounds (show (0 : Int) < 256 by decide) (show 0 ≤ alignUp size 256 by omega) (by omega)
  omega

theorem HeapExact.brkRegion (h : HeapExact a size) :
    (brkRegion a size).rgStart = a.sbrk ∧ ((brkRegion a size).rgEnd : Int) = a.sbrk + size := by
  have := h.nonneg
  have := h.brk
  have hstart : toInt a.sbrk = a.sbrk := toInt_of_bounds (by omega) (by omega)
  rw [Mm.brkRegion, hstart, toInt_of_bounds (by omega) (by omega)]
  exact ⟨toULong_natCast (by omega), toULong_of_nonneg (by omega) (by omega)⟩

theorem HeapExact.advance (h : HeapExact a size) : ((advance a size).sbrk : Int) = a.sbrk + size :=
  toULong_add h.nonneg (by have := h.brk; omega)

theorem grownArea_sbrk (a : VmAreaStruct) (inc : Int) : (grownArea a inc).sbrk = brkEnd a inc := by
  unfold grownArea
  split <;> rfl

theorem grownArea_free (a : VmAreaStruct) (inc : Int) : (grownArea a inc).vmFreergList = a.vmFreergList := by
  unfold grownArea
  split <;> rfl

theorem grow_sbrk (l : List VmRgStruct) (h₀ : 0 ≤ size) (hinc : 0 ≤ growthAmt size)
    (hb : a.sbrk + growthAmt size + size < 18446744073709551616) :
    ((advance (grownArea { a with vmFreergList := l } (growthAmt size)) size).sbrk : Int) =
      a.sbrk + growthAmt size + size := by
  have hend : (brkEnd { a with vmFreergList := l } (growthAmt size) : Int) = a.sbrk + growthAmt size :=
    toULong_add hinc (by dsimp only; omega)
  simp only [advance, grownArea_sbrk]
  rw [toULong_add h₀ (by omega), hend]

theorem placed_brk (h : HeapExact a size) {l : List VmRgStruct} (hok : FreeOk a.sbrk l)
    (hcover : ∀ x, cover l x ≤ cover a.vmFreergList x) (hl : a'.vmFreergList = l)
    (hbrk : (a.sbrk : Int) + size ≤ a'.sbrk) : Placed a a' size (brkRegion a size) := by
  obtain ⟨hstart, hend⟩ := h.brkRegion
  have h₀ := h.nonneg
  refine ⟨by omega, by omega, by omega, hl ▸ hok.mono (by omega), fun x => ?_⟩
  have hsplit := within_split (show a.sbrk ≤ (brkRegion a size).rgEnd by omega) (show _ ≤ a'.sbrk by omega) x
  have := hcover x
  rw [hl, hstart]
  omega

/-- A request is placed on free bytes. -/
theorem AllocCase.placed (h : AllocCase a size a' rg) (h₀ : 0 ≤ size) (hb : a.sbrk + size < 18446744073709551616)
    (hok : FreeOk a.sbrk a.vmFreergList) (hexact : servedFree a size = false → HeapExact a size) :
    Placed a a' size rg := by
  cases h with
  | reuse hfs =>
    rcases freeSearchList_spec h₀ hb hok hfs with ⟨-, nr, hnr, hcut⟩ | ⟨hret, -⟩
    · cases hnr
      refine ⟨le_rfl, hcut.size, hcut.bound, hcut.free, fun x => ?_⟩
      have := hcut.cover x
      rw [within_self]
      exact this
    · cases hret
  | gap hfs hret =>
    have hx := hexact (by simp only [servedFree, hfs, hret, decide_false])
    rcases freeSearchList_spec h₀ hb hok hfs with ⟨hret', -⟩ | ⟨-, hok', hcover⟩
    · exact absurd hret' hret
    · exact placed_brk hx hok' hcover rfl (Int.le_of_eq hx.advance.symm)
  | grow hfs hret =>
    have hx := hexact (by simp only [servedFree, hfs, hret, decide_false])
    have hinc := growthAmt_spec hx.nonneg hx.align
    rcases freeSearchList_spec h₀ hb hok hfs with ⟨hret', -⟩ | ⟨-, hok', hcover⟩
    · exact absurd hret' hret
    · refine placed_brk hx hok' hcover (grownArea_free ..) ?_
      have := hx.brk
      have := hx.align
      unfold PAGING_PAGESZ at *
      rw [grow_sbrk _ h₀ (by omega) (by omega)]
      omega

/-! ## The invariant -/

structure Regions (mm : MmStruct) (a : VmAreaStruct) : Prop where
  once : ∀ x, cover (mm.regions a.vmFreergList) x ≤ 1
  below : ∀ i < PAGING_MAX_SYMTBL_SZ, (mm.symrgtbl i).rgStart < (mm.symrgtbl i).rgEnd →
    (mm.symrgtbl i).rgEnd ≤ a.sbrk
  free : FreeOk a.sbrk a.vmFreergList

variable {mm mm' : MmStruct} {i : Nat}

theorem has_iff {x : Nat} : rg.has x = true ↔ rg.rgStart ≤ x ∧ x < rg.rgEnd := by
  rw [VmRgStruct.has, Bool.and_eq_true, decide_eq_true_eq, decide_eq_true_eq]

theorem cover_update (hi : i < PAGING_MAX_SYMTBL_SZ)
    (hsym : mm'.symrgtbl = Function.update mm.symrgtbl i rg) (l l' : List VmRgStruct) (x : Nat) :
    cover (mm'.regions l') x + within (mm.symrgtbl i).rgStart (mm.symrgtbl i).rgEnd x + cover l x =
      cover (mm.regions l) x + within rg.rgStart rg.rgEnd x + cover l' x := by
  have hup := countP_map_update (f := mm.symrgtbl) hi rg (p := (·.has x))
  simp only [has_iff] at hup
  unfold MmStruct.regions
  rw [cover_append, cover_append, hsym]
  unfold cover within
  omega

theorem Regions.cover_above (h : Regions mm a) {x : Nat} (hx : a.sbrk ≤ x) :
    cover (mm.regions a.vmFreergList) x = 0 := by
  refine List.countP_eq_zero.mpr fun rg hrg hhas => ?_
  rw [has_iff] at hhas
  rcases List.mem_append.mp hrg with hm | hm
  · obtain ⟨j, hj, rfl⟩ := List.mem_map.mp hm
    have := h.below j (List.mem_range.mp hj) (by omega)
    omega
  · have := (h.free rg hm).2
    omega

theorem Regions.place (h : Regions mm a) (hi : i < PAGING_MAX_SYMTBL_SZ) (hp : Placed a a' size rg)
    (hsym : mm'.symrgtbl = Function.update mm.symrgtbl i rg) : Regions mm' a' := by
  refine ⟨fun x => ?_, fun j hj hlt => ?_, hp.free⟩
  · have hup := cover_update hi hsym a.vmFreergList a'.vmFreergList x
    have hcover := hp.cover x
    have hone := h.once x
    by_cases hx : a.sbrk ≤ x
    · have habove := h.cover_above hx
      have hbrk : within a.sbrk a'.sbrk x ≤ 1 := by unfold within; split <;> omega
      omega
    · have hbrk : within a.sbrk a'.sbrk x = 0 := if_neg (by omega)
      omega
  · rw [hsym] at hlt ⊢
    by_cases hji : j = i
    · subst hji
      rw [Function.update_self]
      exact hp.bound
    · rw [Function.update_of_ne hji] at hlt ⊢
      exact (h.below j hj hlt).trans hp.brk

theorem Regions.freed (h : Regions mm a) (hi : i < PAGING_MAX_SYMTBL_SZ)
    (hsym : mm'.symrgtbl = Function.update mm.symrgtbl i (freedRegion (mm.symrgtbl i)))
    (ha : a'.sbrk = a.sbrk) (hl : a'.vmFreergList = a.vmFreergList ∨
      (mm.symrgtbl i).rgStart < (mm.symrgtbl i).rgEnd ∧ a'.vmFreergList = mm.symrgtbl i :: a.vmFreergList) :
    Regions mm' a' := by
  refine ⟨fun x => ?_, fun j hj hlt => ?_, ?_⟩
  · have hup := cover_update hi hsym a.vmFreergList a'.vmFreergList x
    have hone := h.once x
    have hfreed : within (freedRegion (mm.symrgtbl i)).rgStart (freedRegion (mm.symrgtbl i)).rgEnd x = 0 :=
      within_self _ x
    rcases hl with hl | ⟨-, hl⟩
    · rw [hl] at hup ⊢
      omega
    · have hc := cover_cons (mm.symrgtbl i) a.vmFreergList x
      rw [hl] at hup ⊢
      omega
  · rw [ha]
    rw [hsym] at hlt ⊢
    by_cases hji : j = i
    · subst hji
      rw [Function.update_self] at hlt
      exact absurd hlt (Nat.lt_irrefl _)
    · rw [Function.update_of_ne hji] at hlt ⊢
      exact h.below j hj hlt
  · rw [ha]
    rcases hl with hl | ⟨hlt, hl⟩
    · exact hl ▸ h.free
    · rw [hl, FreeOk.cons]
      exact ⟨⟨hlt.le, h.below i hi hlt⟩, h.free⟩

theorem Regions.same (h : Regions mm a) (hsym : mm'.symrgtbl = mm.symrgtbl) : Regions mm' a := by
  have hreg : mm'.regions = mm.regions := by
    funext l
    rw [MmStruct.regions, hsym, MmStruct.regions]
  exact ⟨fun x => hreg ▸ h.once x, fun j hj => hsym ▸ h.below j hj, h.free⟩

def CallExact (a : VmAreaStruct) : MemCall → Prop
  | .alloc size _ => 0 ≤ toInt size ∧ a.sbrk + toInt size < 2 ^ 63 ∧
    (servedFree a (toInt size) = false → HeapExact a (toInt size))
  | _ => True

variable {c c' : Caller} {call : MemCall} {r : MemResult}

/-- A call keeps the regions apart. -/
theorem CallOutcome.regions (h : CallOutcome c a call r c') (hm : c.mm.Single a) (hR : Regions c.mm a)
    (hcall : CallExact a call) : ∃ a', c'.mm.Single a' ∧ Regions c'.mm a' ∧ a.sbrk ≤ a'.sbrk := by
  cases h.regionCase hm with
  | same ha hsym => exact ⟨a, ha, hR.same hsym, le_rfl⟩
  | placed hv hcase ha hsym =>
    obtain ⟨h₀, hb, hexact⟩ := hcall
    have hp := hcase.placed h₀ (by omega) hR.free hexact
    exact ⟨_, ha, hR.place hv.toNat_lt hp hsym, hp.brk⟩
  | freed hv hrg hl ha hsym =>
    subst hrg
    exact ⟨_, ha, hR.freed hv.toNat_lt hsym rfl hl, le_rfl⟩

/-! ## Runs -/

/-- No byte lies in two of the regions of `symrgtbl` and the free region list. An empty region holds
no byte. -/
def RegionsDisjoint (mm : MmStruct) : Prop :=
  ∀ a ∈ mm.mmap, (mm.regions a.vmFreergList).Pairwise fun rg rg' => ∀ x, ¬ (rg.has x = true ∧ rg'.has x = true)

/-- The size of a `liballoc` is between 1 and `2 ^ 20`. -/
def MemCall.SizeOk : MemCall → Prop
  | .alloc size _ => 1 ≤ size ∧ size ≤ 2 ^ 20
  | _ => True

instance : DecidablePred MemCall.SizeOk
  | .alloc _ _ => inferInstanceAs (Decidable (_ ∧ _))
  | .free _ => inferInstanceAs (Decidable True)
  | .read _ _ => inferInstanceAs (Decidable True)
  | .write _ _ _ => inferInstanceAs (Decidable True)

theorem SizeOk.toInt {size regIndex : Nat} (h : (MemCall.alloc size regIndex).SizeOk) : toInt size = size :=
  toInt_of_bounds (by have := h.1; omega) (by have := h.2; omega)

theorem callExact_of_sizeOk (h : call.SizeOk) (hs : a.sbrk < 2 ^ 22) : CallExact a call := by
  cases call with
  | alloc size regIndex =>
    have hle := h.2
    rw [CallExact, SizeOk.toInt h]
    refine ⟨by omega, by omega, fun _ => ⟨by omega, by omega, ?_⟩⟩
    unfold PAGING_PAGESZ
    omega
  | free => trivial
  | read => trivial
  | write => trivial

theorem initMm_regions : ∃ a, (initMm .zeroed).Single a ∧ Regions (initMm .zeroed) a := by
  refine ⟨_, ⟨rfl, rfl⟩, fun x => ?_, fun i _ h => absurd h (Nat.lt_irrefl _), ?_⟩
  · refine (List.countP_eq_zero.mpr fun rg hrg hhas => ?_).trans_le (Nat.zero_le 1)
    have hempty : rg = ⟨0, 0, 0⟩ := by
      rcases List.mem_append.mp hrg with hm | hm
      · obtain ⟨j, -, rfl⟩ := List.mem_map.mp hm
        rfl
      · exact List.mem_singleton.mp hm
    rw [has_iff, hempty] at hhas
    exact absurd hhas.2 (Nat.not_lt_zero x)
  · intro rg hrg
    rw [List.mem_singleton.mp hrg]
    exact ⟨le_rfl, le_rfl⟩

theorem Regions.disjoint (hm : mm.Single a) (h : Regions mm a) : RegionsDisjoint mm := by
  intro b hb
  rw [hm.mmap, List.mem_singleton] at hb
  subst hb
  exact pairwise_of_countP_le_one h.once

theorem regions_run {ram swp pid : Nat} {h : History} {s : MemSys} (hram : ram < 2 ^ 31)
    (hswp : swp < 2 ^ 31) (hrun : Run sysCall (MemSys.boot ram swp) h s)
    (hsize : ∀ e ∈ h, e.act.1 = pid → e.act.2.SizeOk)
    (hsbrk : ∀ e ∈ h, ∀ a ∈ (e.before.mm pid).mmap, a.sbrk < 2 ^ 22) :
    ∃ a, (s.mm pid).Single a ∧ Regions (s.mm pid) a := by
  refine run_process (I := fun mm => ∃ a, mm.Single a ∧ Regions mm a)
    (C := fun s call => call.SizeOk ∧ ∀ a ∈ (s.mm pid).mmap, a.sbrk < 2 ^ 22) hram hswp initMm_regions ?_ hrun
    fun e he hpid => ⟨hsize e he hpid, hsbrk e he⟩
  rintro s a call r c' - ha hc ⟨b, hb, hR⟩ ⟨hcall, hs⟩
  cases hb.mmap.symm.trans ha.mmap
  obtain ⟨a', ha', hR', -⟩ := hc.regions ha hR
    (callExact_of_sizeOk hcall (hs a (ha.mmap ▸ List.mem_singleton_self a)))
  exact ⟨a', ha', hR'⟩

/-- Regions never overlap: as long as `sbrk` is below `2 ^ 22` when a call is made, the regions of
a process are pairwise disjoint. -/
theorem regions_disjoint {ram swp pid : Nat} {h : History} {s : MemSys} (hram : ram < 2 ^ 31)
    (hswp : swp < 2 ^ 31) (hrun : Run sysCall (MemSys.boot ram swp) h s)
    (hsize : ∀ e ∈ h, e.act.1 = pid → e.act.2.SizeOk)
    (hsbrk : ∀ e ∈ h, ∀ a ∈ (e.before.mm pid).mmap, a.sbrk < 2 ^ 22) : RegionsDisjoint (s.mm pid) := by
  obtain ⟨a, ha, hR⟩ := regions_run hram hswp hrun hsize hsbrk
  exact hR.disjoint ha

theorem regions_disjoint_reuse : ∃ h s, Run sysCall (MemSys.boot 4096 4096) h s ∧
    h.map Entry.act = [(0, .alloc 100 2), (0, .free 0), (0, .alloc 200 1), (0, .alloc 300 0)] ∧
    RegionsDisjoint (s.mm 0) := by
  obtain ⟨h, s, hrun, hact, hp⟩ := exists_run_of_replay sysCall (MemSys.boot 4096 4096)
    [(0, .alloc 100 2), (0, .free 0), (0, .alloc 200 1), (0, .alloc 300 0)]
    (fun h _ => decide ((∀ e ∈ h, e.act.1 = 0 → e.act.2.SizeOk) ∧
      ∀ e ∈ h, ∀ a ∈ (e.before.mm 0).mmap, a.sbrk < 2 ^ 22)) (by decide +kernel)
  obtain ⟨hsize, hsbrk⟩ := of_decide_eq_true hp
  exact ⟨h, s, hrun, hact, regions_disjoint (by decide) (by decide) hrun hsize hsbrk⟩

end SimpleOs.Mm
