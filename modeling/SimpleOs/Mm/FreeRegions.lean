import SimpleOs.Mm.FreeSearch
import SimpleOs.Mm.Regions

/-!
# Free regions in every state reached

* `RegionsWf` : the regions of a process belong to area 0 and have their bounds in order; `regionsWf_run`;
* `SearchEnds` : the loop of `get_free_vmrg_area` ends; `searchEnds_iff` : when it does;
* `freed_reused` : the bytes of a freed region serve the next request.
-/

namespace SimpleOs.Mm
open CInt StateTransition

variable {vmaid size : Int} {v : Nat} {rgit rg : VmRgStruct} {l l' : List VmRgStruct} {newrg nr : Nat × Nat}
  {x : FreeSearch}

/-! ## Regions with their bounds in order -/

theorem fitEnd_lt (size : Int) (rg : VmRgStruct) : fitEnd size rg < 18446744073709551616 := toULong_lt _

theorem VmRgStruct.Wf.shrink (h : rg.Wf v) (hfit : fitEnd size rg < rg.rgEnd) :
    VmRgStruct.Wf v { rg with rgStart := fitEnd size rg } := ⟨h.vmaid, hfit.le, h.bound⟩

theorem VmRgStruct.Wf.dummy (h : rg.Wf v) : (dummyOf rg).Wf v := ⟨h.vmaid, le_rfl, h.bound⟩

/-- What the search leaves of the well-formed list `l`, and the end of what it delivers. -/
structure SearchWf (v : Nat) (l : List VmRgStruct) (x : FreeSearch) : Prop where
  left : ∀ rg ∈ x.2.2, rg.Wf v
  bound : x.2.1.2 < 18446744073709551616
  nonempty : l ≠ [] → x.2.2 ≠ []

theorem SearchWf.cons (h : SearchWf v l x) (hrg : rg.Wf v) : SearchWf v (rg :: l) (x.1, x.2.1, rg :: x.2.2) :=
  ⟨List.forall_mem_cons.mpr ⟨hrg, h.left⟩, h.bound, fun _ => List.cons_ne_nil _ _⟩

/-- The search keeps the free regions well-formed. -/
theorem searchFrom_wf (h : searchFrom vmaid size l newrg = .ok x) (hl : ∀ rg ∈ l, rg.Wf v)
    (hnr : newrg.2 < 18446744073709551616) : SearchWf v l x := by
  induction l generalizing newrg x with
  | nil =>
    cases h
    exact ⟨hl, hnr, id⟩
  | cons rgit rgNext ih =>
    have hall := hl
    rw [List.forall_mem_cons] at hl
    have hcons : ∀ {rg : VmRgStruct} {l : List VmRgStruct}, rgit :: rgNext ≠ [] → rg :: l ≠ [] :=
      fun _ => List.cons_ne_nil _ _
    by_cases hv : rgit.vmaid = toULong vmaid
    · rcases Nat.lt_trichotomy (fitEnd size rgit) rgit.rgEnd with hfit | hfit | hfit
      · rw [searchFrom_shrink hv hfit] at h
        cases h
        exact ⟨List.forall_mem_cons.mpr ⟨hl.1.shrink hfit, hl.2⟩, fitEnd_lt size rgit, hcons⟩
      · cases rgNext with
        | nil =>
          rw [searchFrom_dummy hv hfit] at h
          have hdv : (dummyOf rgit).vmaid = toULong vmaid := hv
          split at h
          · cases h
          · next hagain =>
            rcases Nat.lt_or_gt_of_ne hagain with hdummy | hdummy
            · rw [searchFrom_shrink hdv hdummy] at h
              cases h
              exact ⟨List.forall_mem_cons.mpr ⟨hl.1.dummy.shrink hdummy, hl.2⟩, fitEnd_lt .., hcons⟩
            · rw [searchFrom_skip hdv hdummy.not_ge, searchFrom, Exec.ok_bind] at h
              cases h
              exact ⟨List.forall_mem_cons.mpr ⟨hl.1.dummy, hl.2⟩, hl.1.bound, hcons⟩
        | cons next rgNext =>
          have hn := (List.forall_mem_cons.mp hl.2).1
          rw [searchFrom_drop hv (hn.vmaid.trans (hl.1.vmaid.symm.trans hv)) hfit] at h
          have hrec := ih h hl.2 hl.1.bound
          exact ⟨hrec.left, hrec.bound, fun _ => hrec.nonempty (List.cons_ne_nil _ _)⟩
      · rw [searchFrom_skip hv hfit.not_ge] at h
        obtain ⟨y, hy, hx⟩ := Exec.bind_ok.mp h
        cases hx
        exact (ih hy hl.2 hnr).cons hl.1
    · rw [searchFrom_vmaid hv] at h
      cases h
      exact ⟨hall, hnr, hcons⟩

/-- The regions of a process: of area 0, with their bounds in order, and a free list that is never empty. -/
structure RegionsWf (mm : MmStruct) (a : VmAreaStruct) : Prop where
  free : ∀ rg ∈ a.vmFreergList, rg.Wf 0
  nonempty : a.vmFreergList ≠ []
  vmaid : ∀ i < PAGING_MAX_SYMTBL_SZ, (mm.symrgtbl i).vmaid = 0
  bound : ∀ i < PAGING_MAX_SYMTBL_SZ, (mm.symrgtbl i).rgEnd < 18446744073709551616

theorem freeSearchList_wf {ret : Int} {o : Option (Nat × Nat)} (h : freeSearchList vmaid size l = .ok (ret, o, l'))
    (hl : ∀ rg ∈ l, rg.Wf v) (hne : l ≠ []) :
    (∀ rg ∈ l', rg.Wf v) ∧ l' ≠ [] ∧ ∀ nr, o = some nr → nr.2 < 18446744073709551616 := by
  rw [freeSearchList_eq hne] at h
  obtain ⟨x, hx, h⟩ := Exec.bind_ok.mp h
  have hwf := searchFrom_wf hx hl (show toULong (-1) < _ from toULong_lt (-1))
  cases h
  refine ⟨hwf.left, hwf.nonempty hne, fun nr hnr => ?_⟩
  cases hnr
  exact hwf.bound

variable {a a' : VmAreaStruct} {mm mm' : MmStruct} {c c' : Caller} {call : MemCall} {r : MemResult} {i : Nat}

theorem brkRegion_bound (a : VmAreaStruct) (size : Int) : (brkRegion a size).rgEnd < 18446744073709551616 := by
  unfold brkRegion
  dsimp only
  exact toULong_lt _

theorem freedRegion_bound (rg : VmRgStruct) : (freedRegion rg).rgEnd < 18446744073709551616 :=
  show toULong (-1) < _ from toULong_lt _

/-- An allocation leaves the free list, and places its region, well-formed. -/
theorem AllocCase.wf (h : AllocCase a size a' rg) (hl : ∀ rg ∈ a.vmFreergList, rg.Wf 0) (hne : a.vmFreergList ≠ []) :
    (∀ rg ∈ a'.vmFreergList, rg.Wf 0) ∧ a'.vmFreergList ≠ [] ∧ rg.vmaid = 0 ∧ rg.rgEnd < 18446744073709551616 := by
  cases h with
  | reuse hfs =>
    obtain ⟨hl', hne', hnr⟩ := freeSearchList_wf hfs hl hne
    exact ⟨hl', hne', rfl, hnr _ rfl⟩
  | gap hfs =>
    obtain ⟨hl', hne', -⟩ := freeSearchList_wf hfs hl hne
    exact ⟨hl', hne', rfl, brkRegion_bound a size⟩
  | grow hfs =>
    obtain ⟨hl', hne', -⟩ := freeSearchList_wf hfs hl hne
    rw [advance, grownArea_free]
    exact ⟨hl', hne', rfl, brkRegion_bound a size⟩

theorem RegionsWf.update (h : RegionsWf mm a) (hfree : ∀ rg ∈ a'.vmFreergList, rg.Wf 0) (hne : a'.vmFreergList ≠ [])
    (hsym : mm'.symrgtbl = Function.update mm.symrgtbl i rg) (hv : rg.vmaid = 0)
    (hb : rg.rgEnd < 18446744073709551616) : RegionsWf mm' a' where
  free := hfree
  nonempty := hne
  vmaid := fun j hj => by
    rw [hsym]
    by_cases hji : j = i
    · rw [hji, Function.update_self]
      exact hv
    · rw [Function.update_of_ne hji]
      exact h.vmaid j hj
  bound := fun j hj => by
    rw [hsym]
    by_cases hji : j = i
    · rw [hji, Function.update_self]
      exact hb
    · rw [Function.update_of_ne hji]
      exact h.bound j hj

theorem RegionsWf.same (h : RegionsWf mm a) (hsym : mm'.symrgtbl = mm.symrgtbl) : RegionsWf mm' a :=
  ⟨h.free, h.nonempty, hsym ▸ h.vmaid, hsym ▸ h.bound⟩

theorem RegionsWf.wf (h : RegionsWf mm a) (hi : i < PAGING_MAX_SYMTBL_SZ)
    (hlive : (mm.symrgtbl i).rgStart < (mm.symrgtbl i).rgEnd) : (mm.symrgtbl i).Wf 0 :=
  ⟨h.vmaid i hi, hlive.le, h.bound i hi⟩

/-- A call keeps the regions well-formed. -/
theorem CallOutcome.regionsWf (h : CallOutcome c a call r c') (hm : c.mm.Single a) (hR : RegionsWf c.mm a) :
    ∃ a', c'.mm.Single a' ∧ RegionsWf c'.mm a' := by
  cases h.regionCase hm with
  | same ha hsym => exact ⟨a, ha, hR.same hsym⟩
  | placed hv hcase ha hsym =>
    obtain ⟨hfree, hne, hvm, hb⟩ := hcase.wf hR.free hR.nonempty
    exact ⟨_, ha, hR.update hfree hne hsym hvm hb⟩
  | freed hv hrg hl ha hsym =>
    subst hrg
    have hvm := hR.vmaid _ hv.toNat_lt
    refine ⟨_, ha, ?_⟩
    rcases hl with rfl | ⟨hlt, rfl⟩
    · exact hR.update hR.free hR.nonempty hsym hvm (freedRegion_bound _)
    · have hfree := List.forall_mem_cons.mpr ⟨hR.wf hv.toNat_lt hlt, hR.free⟩
      exact hR.update hfree (List.cons_ne_nil _ _) hsym hvm (freedRegion_bound _)

theorem initMm_regionsWf : ∃ a, (initMm .zeroed).Single a ∧ RegionsWf (initMm .zeroed) a := by
  refine ⟨_, ⟨rfl, rfl⟩, fun rg hrg => ?_, List.cons_ne_nil _ _, fun _ _ => rfl, fun _ _ => Nat.zero_lt_succ _⟩
  rw [List.mem_singleton.mp hrg]
  exact ⟨rfl, le_rfl, Nat.zero_lt_succ _⟩

variable {ram swp pid : Nat} {h : History} {s : MemSys}

theorem regionsWf_run (hram : ram < 2 ^ 31) (hswp : swp < 2 ^ 31) (hrun : Run sysCall (MemSys.boot ram swp) h s)
    (pid : Nat) : ∃ a, (s.mm pid).Single a ∧ RegionsWf (s.mm pid) a := by
  refine run_process (I := fun mm => ∃ a, mm.Single a ∧ RegionsWf mm a) (C := fun _ _ => True) hram hswp
    initMm_regionsWf ?_ hrun fun _ _ _ => trivial
  rintro s a call r c' - ha hc ⟨b, hb, hR⟩ -
  cases hb.mmap.symm.trans ha.mmap
  exact hc.regionsWf ha hR

/-! ## The end of the search -/

theorem fitEnd_zero (h : rg.Wf v) : fitEnd 0 rg = rg.rgStart := by
  have := h.order
  have := h.bound
  unfold fitEnd
  rw [show toULong 0 = 0 from rfl]
  exact toULong_natCast (by omega)

theorem searchFrom_zero (newrg : Nat × Nat) (hl : ∀ rg ∈ l, rg.Wf (toULong vmaid))
    (hne : ∃ rg ∈ l, rg.rgStart < rg.rgEnd) :
    ∃ x, searchFrom vmaid 0 l newrg = .ok x := by
  induction l generalizing newrg with
  | nil =>
    obtain ⟨_, h, -⟩ := hne
    exact nomatch h
  | cons rgit rgNext ih =>
    rw [List.forall_mem_cons] at hl
    have hfit := fitEnd_zero hl.1
    rcases Nat.lt_or_eq_of_le hl.1.order with hlt | heq
    · exact ⟨_, searchFrom_shrink hl.1.vmaid (by omega)⟩
    · obtain ⟨rg, hrg, hlt⟩ := hne
      rcases List.mem_cons.mp hrg with rfl | hmem
      · omega
      · cases rgNext with
        | nil => exact nomatch hmem
        | cons next rgNext =>
          rw [searchFrom_drop hl.1.vmaid (List.forall_mem_cons.mp hl.2).1.vmaid (by omega)]
          exact ih _ hl.2 ⟨rg, hmem, hlt⟩

/-- Over empty regions it never stops: the last one fits exactly again and again. -/
theorem searchFrom_zero_loop (hl : ∀ rg ∈ l, rg.Wf (toULong vmaid)) (hne : l ≠ [])
    (hempty : ∀ rg ∈ l, rg.rgStart = rg.rgEnd) : searchFrom vmaid 0 l newrg = .error .loop := by
  induction l generalizing newrg with
  | nil => exact absurd rfl hne
  | cons rgit rgNext ih =>
    rw [List.forall_mem_cons] at hl hempty
    have hfit := fitEnd_zero hl.1
    cases rgNext with
    | nil =>
      have hdummy : fitEnd 0 (dummyOf rgit) = rgit.rgEnd := fitEnd_zero hl.1.dummy
      rw [searchFrom_dummy hl.1.vmaid (by omega), if_pos hdummy]
    | cons next rgNext =>
      rw [searchFrom_drop hl.1.vmaid (List.forall_mem_cons.mp hl.2).1.vmaid (by omega)]
      exact ih hl.2 (List.cons_ne_nil _ _) hempty.2

theorem RegionsWf.search_ok (hR : RegionsWf mm a) (h₀ : 0 ≤ size) (h₁ : size < 2 ^ 31)
    (h : size ≠ 0 ∨ ∃ rg ∈ a.vmFreergList, rg.rgStart < rg.rgEnd) (newrg : Nat × Nat) :
    ∃ x, searchFrom 0 size a.vmFreergList newrg = .ok x := by
  by_cases hsize : size = 0
  · subst hsize
    exact searchFrom_zero newrg hR.free (h.resolve_left fun hne => hne rfl)
  · have hvm : ∀ rg ∈ a.vmFreergList, rg.vmaid = toULong 0 := fun rg hrg => (hR.free rg hrg).vmaid
    obtain ⟨x, hx, -⟩ := searchFrom_case newrg (show 0 < size by omega) (by omega) hvm
    exact ⟨x, hx⟩

theorem RegionsWf.search_loops (hR : RegionsWf mm a) (hne : ¬ ∃ rg ∈ a.vmFreergList, rg.rgStart < rg.rgEnd) :
    searchFrom 0 0 a.vmFreergList newrg = .error .loop := by
  have hempty : ∀ rg ∈ a.vmFreergList, rg.rgStart = rg.rgEnd := fun rg hrg =>
    Nat.le_antisymm (hR.free rg hrg).order (Nat.not_lt.mp fun hlt => hne ⟨rg, hrg, hlt⟩)
  exact searchFrom_zero_loop hR.free hR.nonempty hempty

theorem RegionsWf.allocCase_iff (hR : RegionsWf mm a) (h₀ : 0 ≤ size) (h₁ : size < 2 ^ 31) :
    (∃ a' rg, AllocCase a size a' rg) ↔ size ≠ 0 ∨ ∃ rg ∈ a.vmFreergList, rg.rgStart < rg.rgEnd := by
  have hfs : freeSearchList 0 size a.vmFreergList = _ := freeSearchList_eq hR.nonempty
  constructor
  · rintro ⟨a', rg, hcase⟩
    by_contra hno
    obtain ⟨hsize, hne⟩ := not_or.mp hno
    obtain rfl := not_not.mp hsize
    rw [hR.search_loops hne, Exec.error_bind] at hfs
    cases hcase with
    | reuse h => cases hfs.symm.trans h
    | gap h => cases hfs.symm.trans h
    | grow h => cases hfs.symm.trans h
  · intro h
    obtain ⟨x, hx⟩ := hR.search_ok h₀ h₁ h (toULong (-1), toULong (-1))
    rw [hx, Exec.ok_bind] at hfs
    by_cases hfound : x.1 = false ∧ x.2.1.1 = toULong (-1)
    · rw [if_pos hfound] at hfs
      by_cases hgap : size ≤ gapSize a (toInt a.sbrk)
      · exact ⟨_, _, .gap hfs (by decide) hgap⟩
      · exact ⟨_, _, .grow hfs (by decide) hgap⟩
    · rw [if_neg hfound] at hfs
      exact ⟨_, _, .reuse hfs⟩

/-- The loop of `get_free_vmrg_area` over the free list of area `a` ends. -/
def SearchEnds (a : VmAreaStruct) (size : Int) : Prop :=
  (eval (searchStep 0 size) ⟨[], a.vmFreergList, (toULong (-1), toULong (-1)), false⟩).Dom

/-- The search ends if and only if bytes are asked for or some free region is not empty. -/
theorem searchEnds_iff (hram : ram < 2 ^ 31) (hswp : swp < 2 ^ 31) (hrun : Run sysCall (MemSys.boot ram swp) h s)
    (ha : (s.mm pid).Single a) (h₀ : 0 ≤ size) (h₁ : size < 2 ^ 31) :
    SearchEnds a size ↔ size ≠ 0 ∨ ∃ rg ∈ a.vmFreergList, rg.rgStart < rg.rgEnd := by
  obtain ⟨b, hb, hR⟩ := regionsWf_run hram hswp hrun pid
  cases hb.mmap.symm.trans ha.mmap
  constructor
  · intro hends
    by_contra hno
    obtain ⟨hsize, hne⟩ := not_or.mp hno
    obtain rfl := not_not.mp hsize
    exact searchFrom_spins (hR.search_loops hne) hends
  · intro hfree
    obtain ⟨x, hx⟩ := hR.search_ok h₀ h₁ hfree (toULong (-1), toULong (-1))
    obtain ⟨t, ht, -⟩ := searchFrom_ends hx
    exact Part.dom_iff_mem.mpr ⟨t, ht⟩

/-- A request of no bytes, with a freed region in the list. -/
theorem searchEnds_iff_freed : ∃ h s a, Run sysCall (MemSys.boot 4096 4096) h s ∧
    h.map Entry.act = [(0, .free 0), (0, .alloc 200 1), (0, .alloc 300 0)] ∧ (s.mm 0).Single a ∧
    (∃ rg ∈ a.vmFreergList, rg.rgStart < rg.rgEnd) ∧
    (SearchEnds a 0 ↔ (0 : Int) ≠ 0 ∨ ∃ rg ∈ a.vmFreergList, rg.rgStart < rg.rgEnd) := by
  obtain ⟨h, s, hrun, hact, hp⟩ := exists_run_of_replay sysCall (MemSys.boot 4096 4096)
    [(0, .free 0), (0, .alloc 200 1), (0, .alloc 300 0)]
    (fun _ s => decide (∀ a ∈ (s.mm 0).mmap, ∃ rg ∈ a.vmFreergList, rg.rgStart < rg.rgEnd)) (by decide +kernel)
  obtain ⟨a, ha⟩ := (run_ok (by decide) (by decide) hrun).single 0
  have hfreed := of_decide_eq_true hp a (ha.mmap ▸ List.mem_singleton_self a)
  exact ⟨h, s, a, hrun, hact, ha, hfreed, searchEnds_iff (by decide) (by decide) hrun ha le_rfl (by decide)⟩

/-- A request of no bytes by a new process never returns. -/
theorem search_spins : ¬ ∀ ram swp : Nat, ram < 2 ^ 31 → swp < 2 ^ 31 → ∀ h s, Run sysCall (MemSys.boot ram swp) h s →
    ∀ pid a, (s.mm pid).Single a → ∀ size : Int, 0 ≤ size → size < 2 ^ 31 → SearchEnds a size := by
  intro hall
  refine searchFrom_spins (l := [⟨0, 0, 0⟩]) (searchFrom_zero_loop (fun rg hrg => ?_) (List.cons_ne_nil _ _) ?_)
    (hall 512 512 (by decide) (by decide) [] _ .start 0 _ ⟨rfl, rfl⟩ 0 le_rfl (by decide))
  · rw [List.mem_singleton.mp hrg]
    exact ⟨rfl, le_rfl, Nat.zero_lt_succ _⟩
  · intro rg hrg
    rw [List.mem_singleton.mp hrg]

/-! ## Freed bytes serve the next request -/

/-- A region that fits exactly does not start at the value that stands for no region. -/
theorem VmRgStruct.Wf.start_ne (h : rg.Wf v) (h₀ : 0 < size) (h₁ : size < 2147483648)
    (hfit : fitEnd size rg = rg.rgEnd) : rg.rgStart ≠ toULong (-1) := by
  have := h.order
  have := h.bound
  unfold fitEnd toULong at hfit
  unfold toULong
  omega

/-- The search succeeds when a region fits. -/
theorem freeSearchList_found (hl : ∀ rg ∈ l, rg.Wf (toULong vmaid)) (h₀ : 0 < size) (h₁ : size < 2147483648)
    (hfit : ∃ rg ∈ l, Fits size rg) : ∃ nr l', freeSearchList vmaid size l = .ok (0, some nr, l') := by
  have hne : l ≠ [] := by
    rintro rfl
    obtain ⟨_, h, -⟩ := hfit
    exact nomatch h
  obtain ⟨x, hx, hcase⟩ := searchFrom_case (toULong (-1), toULong (-1)) h₀ h₁ fun rg hrg => (hl rg hrg).vmaid
  refine ⟨x.2.1, x.2.2, ?_⟩
  rw [freeSearchList_eq hne, hx, Exec.ok_bind, if_neg]
  rintro ⟨hfound, hunset⟩
  cases hcase with
  | none hno =>
    obtain ⟨rg, hrg, hfit⟩ := hfit
    exact hno rg hrg hfit
  | shrink => cases hfound
  | take _ _ hexact => exact (hl _ (List.mem_append_right _ (List.mem_cons_self ..))).start_ne h₀ h₁ hexact hunset
  | last _ _ hexact => exact (hl _ (List.mem_append_right _ (List.mem_cons_self ..))).start_ne h₀ h₁ hexact hunset
  | wrap => cases hfound

/-- Break, end, page table, queue and free frames of RAM are as in `c`. -/
structure HeapKept (c : Caller) (a : VmAreaStruct) (c' : Caller) : Prop where
  area : ∃ a', c'.mm.Single a' ∧ a'.sbrk = a.sbrk ∧ a'.vmEnd = a.vmEnd
  pgd : c'.mm.pgd = c.mm.pgd
  fifoPgn : c'.mm.fifoPgn = c.mm.fifoPgn
  free : (c'.dev .mram).freeFpList = (c.dev .mram).freeFpList

theorem toInt_regIndex {n : Nat} (hn : n < PAGING_MAX_SYMTBL_SZ) : toInt n = n ∧ ValidRg (toInt n) := by
  have hsz : PAGING_MAX_SYMTBL_SZ = 30 := rfl
  have h : toInt n = n := toInt_of_bounds (by omega) (by omega)
  rw [h]
  exact ⟨rfl, by omega, by omega⟩

theorem liballoc_reuse {m regIndex : Nat} {nr : Nat × Nat} (hm : c.mm.Single a) (hreg : regIndex < PAGING_MAX_SYMTBL_SZ)
    (hfs : freeSearchList 0 (toInt m) a.vmFreergList = .ok (0, some nr, l')) :
    liballoc c m regIndex =
      .ok (0, c.place { a with vmFreergList := l' } (toInt regIndex) ⟨0, nr.1, nr.2⟩) := by
  have hfresh : freshPages a (toInt m) = 0 := by simp only [freshPages, hfs, true_or, if_true]
  refine (liballoc_ok_iff hm).mpr ?_
  have hout := AllocOutcome.placed (c := c) (toInt_regIndex hreg).2
    (.reuse hfs) (by rw [hfresh]; exact fun _ => .inl rfl)
  rwa [hfresh, Caller.mapRam_zero] at hout

/-- Freed space is reused before the heap grows. -/
theorem freed_reused (hram : ram < 2 ^ 31) (hswp : swp < 2 ^ 31) (hrun : Run sysCall (MemSys.boot ram swp) h s)
    (hsize : ∀ e ∈ h, e.act.1 = pid → e.act.2.SizeOk)
    (hsbrk : ∀ e ∈ h, ∀ a ∈ (e.before.mm pid).mmap, a.sbrk < 2 ^ 22) (ha : (s.mm pid).Single a) (hbrk : a.sbrk < 2 ^ 22)
    {rid m regIndex : Nat} (hrid : rid < PAGING_MAX_SYMTBL_SZ)
    (hlive : ((s.mm pid).symrgtbl rid).rgStart < ((s.mm pid).symrgtbl rid).rgEnd) (hm₀ : 0 < m)
    (hm₁ : ((s.mm pid).symrgtbl rid).rgStart + m ≤ ((s.mm pid).symrgtbl rid).rgEnd)
    (hreg : regIndex < PAGING_MAX_SYMTBL_SZ) :
    ∃ c₁ c₂, libfree (s.caller pid) rid = .ok (0, c₁) ∧ liballoc c₁ m regIndex = .ok (0, c₂) ∧
      HeapKept (s.caller pid) a c₁ ∧ HeapKept (s.caller pid) a c₂ := by
  obtain ⟨b, hb, hwf⟩ := regionsWf_run hram hswp hrun pid
  obtain ⟨b', hb', hR⟩ := regions_run hram hswp hrun hsize hsbrk
  cases hb.mmap.symm.trans ha.mmap
  cases hb'.mmap.symm.trans ha.mmap
  have hbelow := hR.below rid hrid hlive
  have hrg := hwf.wf hrid hlive
  obtain ⟨hrid', hv⟩ := toInt_regIndex hrid
  have hm : toInt m = m := toInt_of_bounds (by omega) (by omega)
  generalize hsym : (s.mm pid).symrgtbl rid = rg at *
  have hget : (s.caller pid).mm.symrgtbl (toInt rid).toNat = rg := by
    rw [hrid', Int.toNat_natCast]
    exact hsym
  have hfree := FreeOutcome.freed (c := s.caller pid) (a := a) hv (by rw [hget]; exact hlive)
  rw [hget] at hfree
  have hfit : Fits m rg := by
    have hsum : (toULong (rg.rgStart + toULong m) : Int) = rg.rgStart + m := toULong_add (by omega) (by omega)
    show toULong (rg.rgStart + toULong m) ≤ rg.rgEnd
    omega
  have hl : ∀ q ∈ rg :: a.vmFreergList, q.Wf 0 := List.forall_mem_cons.mpr ⟨hrg, hwf.free⟩
  have hfound : ∃ nr l', freeSearchList 0 m (rg :: a.vmFreergList) = .ok (0, some nr, l') :=
    freeSearchList_found hl (by omega) (by omega) ⟨rg, List.mem_cons_self .., hfit⟩
  obtain ⟨nr, l', hfs⟩ := hfound
  rw [← hm] at hfs
  refine ⟨_, _, (libfree_ok_iff ha).mpr hfree, liballoc_reuse (a := { a with vmFreergList := rg :: a.vmFreergList })
    ⟨rfl, ha.vmId⟩ hreg hfs, ⟨⟨_, ⟨rfl, ha.vmId⟩, rfl, rfl⟩, rfl, rfl, rfl⟩,
      ⟨⟨_, ⟨rfl, ha.vmId⟩, rfl, rfl⟩, rfl, rfl, rfl⟩⟩

/-- A region of 100 bytes freed, and 60 bytes of it allocated again. -/
theorem freed_reused_run : ∃ h s a, Run sysCall (MemSys.boot 4096 4096) h s ∧
    h.map Entry.act = [(0, .alloc 100 2), (0, .free 0), (0, .alloc 200 1), (0, .alloc 300 0)] ∧
    (s.mm 0).Single a ∧ ∃ c₁ c₂, libfree (s.caller 0) 2 = .ok (0, c₁) ∧ liballoc c₁ 60 5 = .ok (0, c₂) ∧
      HeapKept (s.caller 0) a c₁ ∧ HeapKept (s.caller 0) a c₂ := by
  obtain ⟨h, s, hrun, hact, hp⟩ := exists_run_of_replay sysCall (MemSys.boot 4096 4096)
    [(0, .alloc 100 2), (0, .free 0), (0, .alloc 200 1), (0, .alloc 300 0)]
    (fun h s => decide ((∀ e ∈ h, e.act.1 = 0 → e.act.2.SizeOk) ∧
      (∀ e ∈ h, ∀ a ∈ (e.before.mm 0).mmap, a.sbrk < 2 ^ 22) ∧ (∀ a ∈ (s.mm 0).mmap, a.sbrk < 2 ^ 22) ∧
      ((s.mm 0).symrgtbl 2).rgStart < ((s.mm 0).symrgtbl 2).rgEnd ∧
      ((s.mm 0).symrgtbl 2).rgStart + 60 ≤ ((s.mm 0).symrgtbl 2).rgEnd)) (by decide +kernel)
  obtain ⟨hsize, hsbrk, hbrk, hlive, hm₁⟩ := of_decide_eq_true hp
  obtain ⟨a, ha⟩ := (run_ok (by decide) (by decide) hrun).single 0
  exact ⟨h, s, a, hrun, hact, ha, freed_reused (by decide) (by decide) hrun hsize hsbrk ha
    (hbrk a (ha.mmap ▸ List.mem_singleton_self a)) (by decide) hlive (by decide) hm₁ (by decide)⟩

end SimpleOs.Mm
