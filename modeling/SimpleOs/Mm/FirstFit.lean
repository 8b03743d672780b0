import SimpleOs.Mm.FreeRegions

/-!
# What the search of the free region list takes

* `Covered l x` : byte `x` lies in a region of `l`; `Takes` : a range was taken out of a list and nothing else;
* `OneFit` : the first region that fits has room to spare or is the only one that fits, and no sum wraps;
* `takesExactly_iff` : `get_free_vmrg_area` takes exactly what it returns if and only if the list is `OneFit`.
-/

namespace SimpleOs.Mm
open CInt

/-- Byte `x` lies in a region of `l`. -/
def Covered (l : List VmRgStruct) (x : Nat) : Prop := ∃ rg ∈ l, rg.has x = true

/-- No two regions of `l` share a byte. -/
def Apart (l : List VmRgStruct) : Prop := l.Pairwise fun rg rg' => ∀ x, ¬ (rg.has x = true ∧ rg'.has x = true)

/-- `size` bytes `nr` inside one region of `l` were taken out, which leaves `l'`. -/
structure Takes (size : Int) (l l' : List VmRgStruct) (nr : Nat × Nat) : Prop where
  size : (nr.2 : Int) = nr.1 + size
  inside : ∃ rg ∈ l, rg.rgStart ≤ nr.1 ∧ nr.2 ≤ rg.rgEnd
  covered : ∀ x, Covered l' x ↔ Covered l x ∧ ¬ (nr.1 ≤ x ∧ x < nr.2)

/-- The status `ret`, the range `o` and the list `l'` of a search of `l`: it takes exactly what it returns. -/
structure TakesExactly (size : Int) (l l' : List VmRgStruct) (ret : Int) (o : Option (Nat × Nat)) : Prop where
  status : ret = 0 ∨ ret = -1
  found : ret = 0 ↔ ∃ rg ∈ l, (rg.rgStart : Int) + size ≤ rg.rgEnd
  takes : ret = 0 → ∃ nr, o = some nr ∧ Takes size l l' nr
  failed : ret = -1 → ∀ x, Covered l' x ↔ Covered l x

/-- The first region that fits has room to spare, or is the only one that fits; and no sum wraps. -/
def OneFit (size : Int) (l : List VmRgStruct) : Prop :=
  ∀ pre rg post, l = pre ++ rg :: post → (∀ q ∈ pre, ¬ Fits size q) → Fits size rg →
    rg.rgStart + size < 2 ^ 64 ∧ (rg.rgStart + size < rg.rgEnd ∨
      ((∀ q ∈ post, ¬ Fits size q) ∧ (post = [] → rg.rgEnd + size < 2 ^ 64)))

variable {vmaid size : Int} {v : Nat} {rg q : VmRgStruct} {l l' mid pre post : List VmRgStruct} {newrg nr : Nat × Nat}
  {x : FreeSearch}

/-! ## Bytes covered -/

theorem covered_append {y : Nat} : Covered (l ++ l') y ↔ Covered l y ∨ Covered l' y := by
  simp only [Covered, List.mem_append, or_and_right, exists_or]

theorem covered_cons {y : Nat} : Covered (rg :: l) y ↔ rg.has y = true ∨ Covered l y := by
  simp only [Covered, List.mem_cons, or_and_right, exists_or, exists_eq_left]

theorem covered_nil (y : Nat) : ¬ Covered [] y := by
  rintro ⟨_, h, -⟩
  exact nomatch h

theorem Apart.split (h : Apart (pre ++ rg :: post)) {y : Nat} (hy : rg.has y = true) :
    ¬ Covered pre y ∧ ¬ Covered post y := by
  obtain ⟨-, hcons, hpre⟩ := List.pairwise_append.mp h
  constructor
  · rintro ⟨q, hq, hqy⟩
    exact hpre q hq rg (List.mem_cons_self ..) y ⟨hqy, hy⟩
  · rintro ⟨q, hq, hqy⟩
    exact (List.pairwise_cons.mp hcons).1 q hq y ⟨hy, hqy⟩

theorem takes_of_mid (mid : List VmRgStruct) (h : Apart (pre ++ rg :: post)) (hsize : (nr.2 : Int) = nr.1 + size)
    (h₁ : rg.rgStart ≤ nr.1)
    (h₂ : nr.2 ≤ rg.rgEnd) (hmid : ∀ y, Covered mid y ↔ rg.has y = true ∧ ¬ (nr.1 ≤ y ∧ y < nr.2)) :
    Takes size (pre ++ rg :: post) (pre ++ (mid ++ post)) nr := by
  refine ⟨hsize, ⟨rg, List.mem_append_right _ (List.mem_cons_self ..), h₁, h₂⟩, fun y => ?_⟩
  rw [covered_append, covered_append, covered_append, covered_cons, hmid]
  by_cases hy : nr.1 ≤ y ∧ y < nr.2
  · have hhas : rg.has y = true := has_iff.mpr (by omega)
    obtain ⟨hpre, hpost⟩ := h.split hhas
    simp only [hy, hpre, hpost, and_self, not_true_eq_false, and_false, or_self]
  · simp only [hy, not_false_eq_true, and_true]

/-! ## The search up to the first region that fits -/

theorem first_fit (size : Int) (l : List VmRgStruct) : (∀ q ∈ l, ¬ Fits size q) ∨
    ∃ pre rg post, l = pre ++ rg :: post ∧ (∀ q ∈ pre, ¬ Fits size q) ∧ Fits size rg := by
  cases hf : l.find? fun q => Fits size q with
  | none =>
    have hall := List.find?_eq_none.mp hf
    exact .inl fun q hq => by simpa only [decide_eq_true_eq] using hall q hq
  | some rg =>
    obtain ⟨hrg, pre, post, hl, hpre⟩ := List.find?_eq_some_iff_append.mp hf
    refine .inr ⟨pre, rg, post, hl, fun q hq => ?_, of_decide_eq_true hrg⟩
    simpa only [Bool.not_eq_true', decide_eq_false_iff_not] using hpre q hq

theorem searchFrom_pre (l : List VmRgStruct) (newrg : Nat × Nat) (hv : ∀ q ∈ pre, q.vmaid = toULong vmaid)
    (hpre : ∀ q ∈ pre, ¬ Fits size q) :
    searchFrom vmaid size (pre ++ l) newrg = behind pre (searchFrom vmaid size l newrg) := by
  induction pre with
  | nil =>
    rw [List.nil_append, behind]
    cases searchFrom vmaid size l newrg with
    | error => rw [Exec.error_bind]
    | ok => rw [Exec.ok_bind, List.nil_append]
  | cons q pre ih =>
    rw [List.forall_mem_cons] at hv hpre
    rw [List.cons_append, searchFrom_skip hv.1 hpre.1, ih hv.2 hpre.2, behind, behind]
    cases searchFrom vmaid size l newrg with
    | error => simp only [Exec.error_bind]
    | ok => simp only [Exec.ok_bind, List.cons_append]

theorem freeSearchList_pre (hl : ∀ q ∈ pre ++ rg :: post, q.Wf (toULong vmaid)) (h₀ : 0 < size) (h₁ : size < 2147483648)
    (hpre : ∀ q ∈ pre, ¬ Fits size q) (hrg : Fits size rg)
    (hx : searchFrom vmaid size (rg :: post) (toULong (-1), toULong (-1)) = .ok x) :
    freeSearchList vmaid size (pre ++ rg :: post) = .ok (0, some x.2.1, pre ++ x.2.2) := by
  have hmem : rg ∈ pre ++ rg :: post := List.mem_append_right _ (List.mem_cons_self ..)
  obtain ⟨nr, l', hfs⟩ := freeSearchList_found hl h₀ h₁ ⟨rg, hmem, hrg⟩
  have heq : freeSearchList vmaid size (pre ++ rg :: post) = _ := freeSearchList_eq (List.ne_nil_of_mem hmem)
  rw [searchFrom_pre _ _ (fun q hq => (hl q (List.mem_append_left _ hq)).vmaid) hpre, hx, behind, Exec.ok_bind,
    Exec.ok_bind, hfs] at heq
  simp only [Except.ok.injEq, Prod.mk.injEq, Option.some.injEq] at heq
  obtain ⟨-, hnr, hl'⟩ := heq
  rw [hfs, hnr, hl']

/-! ## The region that is taken -/

theorem fitEnd_exact (rg : VmRgStruct) (h₀ : 0 ≤ size) (h₁ : size < 2147483648) (hrg : rg.rgStart < 2 ^ 64)
    (h : rg.rgStart ≤ fitEnd size rg) : rg.rgStart + size < 2 ^ 64 := by
  unfold fitEnd toULong at h
  omega

/-- Where the search of a list in which some region fits took a range of `size` bytes: at the start of a region, and
nothing new is covered. -/
theorem SearchCase.at_start (h : SearchCase size newrg l x) (h₀ : 0 < size)
    (hfits : ∃ q ∈ l, Fits size q) (hsize : (x.2.1.2 : Int) = x.2.1.1 + size) :
    Covered l x.2.1.1 ∧ ∀ y, Covered x.2.2 y → Covered l y := by
  have hsmall : ∀ {pre : List VmRgStruct} {y : Nat}, Covered (tooSmall size pre) y → Covered pre y := by
    rintro pre y ⟨q, hq, hy⟩
    exact ⟨q, List.mem_of_mem_filter hq, hy⟩
  cases h with
  | none hno =>
    obtain ⟨q, hq, hfit⟩ := hfits
    exact absurd hfit (hno q hq)
  | @shrink pre post rg _ hfit =>
    dsimp only at hsize ⊢
    refine ⟨⟨rg, List.mem_append_right _ (List.mem_cons_self ..), has_iff.mpr (by omega)⟩, fun y hy => ?_⟩
    rw [covered_append, covered_cons] at hy ⊢
    refine hy.imp hsmall (Or.imp_left fun hy => ?_)
    rw [has_iff] at hy ⊢
    dsimp only at hy
    omega
  | @take pre post rg _ hfit =>
    dsimp only at hsize ⊢
    refine ⟨⟨rg, List.mem_append_right _ (List.mem_cons_self ..), has_iff.mpr (by omega)⟩, fun y hy => ?_⟩
    rw [covered_append, covered_cons] at *
    exact hy.imp hsmall .inr
  | @last pre rg _ hfit =>
    dsimp only at hsize ⊢
    refine ⟨⟨rg, List.mem_append_right _ (List.mem_cons_self ..), has_iff.mpr (by omega)⟩, fun y hy => ?_⟩
    rw [covered_append, covered_cons] at *
    refine hy.imp hsmall (Or.imp_left fun hy => ?_)
    rw [has_iff] at hy
    exact absurd hy.2 (Nat.not_lt.mpr hy.1)
  | @wrap pre rg _ hfit hdummy =>
    dsimp only at hsize
    omega

/-- The first region that fits is taken, in part or whole, when it is the one fit. -/
theorem takes_of_oneFit (newrg : Nat × Nat) (hl : ∀ q ∈ pre ++ rg :: post, q.Wf (toULong vmaid))
    (hd : Apart (pre ++ rg :: post))
    (h₀ : 0 < size) (h₁ : size < 2147483648) (hrg : Fits size rg) (hsum : rg.rgStart + size < 2 ^ 64)
    (hone : rg.rgStart + size < rg.rgEnd ∨
      ((∀ q ∈ post, ¬ Fits size q) ∧ (post = [] → rg.rgEnd + size < 2 ^ 64))) :
    ∃ x, searchFrom vmaid size (rg :: post) newrg = .ok x ∧ Takes size (pre ++ rg :: post) (pre ++ x.2.2) x.2.1 := by
  have hend := fitEnd_eq rg h₀.le hsum
  have hw := (hl rg (List.mem_append_right _ (List.mem_cons_self ..)))
  have hv := hw.vmaid
  rcases Nat.lt_or_eq_of_le hrg with hlt | heq
  · refine ⟨_, searchFrom_shrink hv hlt, takes_of_mid [{ rg with rgStart := fitEnd size rg }] hd hend le_rfl hrg
      fun y => ?_⟩
    simp only [covered_cons, covered_nil, or_false, has_iff]
    omega
  · obtain ⟨hno, hlast⟩ := hone.resolve_left (by omega)
    -- the region is taken whole
    have hwhole : ∀ mid : List VmRgStruct, (∀ y, ¬ Covered mid y) →
        Takes size (pre ++ rg :: post) (pre ++ (mid ++ post)) (rg.rgStart, rg.rgEnd) := by
      refine fun mid hmid => takes_of_mid mid hd (by omega) le_rfl le_rfl fun y => ?_
      simp only [hmid, has_iff, false_iff]
      omega
    cases post with
    | nil =>
      have hdummy := fitEnd_eq (dummyOf rg) h₀.le (hlast rfl)
      dsimp only [dummyOf] at hdummy
      rw [searchFrom_dummy hv heq, if_neg (fitEnd_dummy_ne h₀ h₁ rg)]
      have hdv : (dummyOf rg).vmaid = toULong vmaid := hv
      refine ⟨_, searchFrom_skip hdv (show ¬ fitEnd size (dummyOf rg) ≤ rg.rgEnd by unfold dummyOf; omega), ?_⟩
      refine hwhole [dummyOf rg] fun y => ?_
      simp only [covered_cons, covered_nil, or_false, has_iff, dummyOf]
      omega
    | cons next rgNext =>
      have hnext : next.Wf (toULong vmaid) :=
        hl next (List.mem_append_right _ (List.mem_cons_of_mem _ (List.mem_cons_self ..)))
      rw [searchFrom_drop hv hnext.vmaid heq]
      have hpost := searchFrom_pre [] (rg.rgStart, rg.rgEnd)
        (fun q hq => (hl q (List.mem_append_right _ (List.mem_cons_of_mem _ hq))).vmaid) hno
      rw [List.append_nil, searchFrom, behind, Exec.ok_bind, List.append_nil] at hpost
      exact ⟨_, hpost, hwhole [] fun y => covered_nil y⟩

/-- When the search of the regions behind `rg` takes a range of the whole list and nothing else, none of them fits: one
that fits is taken instead of `rg`, and the first byte of `rg` is lost. -/
theorem Takes.none_later (ht : Takes size (pre ++ rg :: post) (pre ++ x.2.2) x.2.1)
    (hcase : SearchCase size newrg post x)
    (hd : Apart (pre ++ rg :: post)) (h₀ : 0 < size) (hhas : rg.has rg.rgStart = true) : ∀ q ∈ post, ¬ Fits size q := by
  intro q hq hfit
  obtain ⟨hstart, hnew⟩ := hcase.at_start h₀ ⟨q, hq, hfit⟩ ht.size
  obtain ⟨hnpre, hnpost⟩ := hd.split hhas
  have hlost : ¬ Covered (pre ++ x.2.2) rg.rgStart := fun hc =>
    (covered_append.mp hc).elim hnpre fun hc => hnpost (hnew _ hc)
  have hin : x.2.1.1 ≤ rg.rgStart ∧ rg.rgStart < x.2.1.2 := by
    by_contra hno
    exact hlost ((ht.covered rg.rgStart).mpr ⟨⟨rg, List.mem_append_right _ (List.mem_cons_self ..), hhas⟩, hno⟩)
  -- the range lies in one region, which holds that byte, and so is `rg`
  obtain ⟨q', hq', h₁', h₂'⟩ := ht.inside
  have hq'has : q'.has rg.rgStart = true := has_iff.mpr (by omega)
  rcases List.mem_append.mp hq' with hmem | hmem
  · exact hnpre ⟨q', hmem, hq'has⟩
  · rcases List.mem_cons.mp hmem with rfl | hmem
    · rw [show x.2.1.1 = q'.rgStart by omega] at hstart
      exact hnpost hstart
    · exact hnpost ⟨q', hmem, hq'has⟩

/-- When the search takes a range of `size` bytes and nothing else, the first region that fits is the one fit. -/
theorem Takes.oneFit (ht : Takes size (pre ++ rg :: post) (pre ++ x.2.2) x.2.1)
    (hl : ∀ q ∈ pre ++ rg :: post, q.Wf (toULong vmaid)) (hd : Apart (pre ++ rg :: post)) (h₀ : 0 < size)
    (h₁ : size < 2147483648) (hrg : Fits size rg)
    (hx : searchFrom vmaid size (rg :: post) newrg = .ok x) :
    rg.rgStart + size < 2 ^ 64 ∧ (rg.rgStart + size < rg.rgEnd ∨
      ((∀ q ∈ post, ¬ Fits size q) ∧ (post = [] → rg.rgEnd + size < 2 ^ 64))) := by
  have hw := hl rg (List.mem_append_right _ (List.mem_cons_self ..))
  have hv := hw.vmaid
  have hbound := hw.bound
  have horder := hw.order
  have hsize := ht.size
  rcases Nat.lt_or_eq_of_le hrg with hlt | heq
  · rw [searchFrom_shrink hv hlt] at hx
    cases hx
    dsimp only at hsize
    have hsum := fitEnd_exact rg h₀.le h₁ (by omega) (by omega)
    exact ⟨hsum, .inl (by omega)⟩
  · have hsum := fitEnd_exact rg h₀.le h₁ (by omega) (by omega)
    refine ⟨hsum, .inr ?_⟩
    cases post with
    | nil =>
      refine ⟨fun _ h => (nomatch h), fun _ => ?_⟩
      rw [searchFrom_dummy hv heq, if_neg (fitEnd_dummy_ne h₀ h₁ rg)] at hx
      rcases Nat.lt_or_gt_of_ne (fitEnd_dummy_ne h₀ h₁ rg) with hdummy | hdummy
      · rw [searchFrom_shrink (show (dummyOf rg).vmaid = toULong vmaid from hv) hdummy] at hx
        cases hx
        dsimp only [dummyOf] at hsize hdummy
        omega
      · exact fitEnd_exact (dummyOf rg) h₀.le h₁ (by dsimp only [dummyOf]; omega) hdummy.le
    | cons next rgNext =>
      have hpost : ∀ q ∈ next :: rgNext, q.vmaid = toULong vmaid := fun q hq =>
        (hl q (List.mem_append_right _ (List.mem_cons_of_mem _ hq))).vmaid
      rw [searchFrom_drop hv (hpost next (List.mem_cons_self ..)) heq] at hx
      obtain ⟨y, hy, hcase⟩ := searchFrom_case (rg.rgStart, rg.rgEnd) h₀ h₁ hpost
      cases hx.symm.trans hy
      have hend := fitEnd_eq rg h₀.le hsum
      exact ⟨ht.none_later hcase hd h₀ (has_iff.mpr (by omega)), fun h => (nomatch h)⟩

/-- The search takes exactly what it returns, on the free list of an area. -/
theorem freeSearchList_takesExactly (hl : ∀ q ∈ l, q.Wf (toULong vmaid)) (hd : Apart l) (h₀ : 0 < size)
    (h₁ : size < 2147483648) :
    (∃ ret o l', freeSearchList vmaid size l = .ok (ret, o, l') ∧ TakesExactly size l l' ret o) ↔ OneFit size l := by
  have hexact : ∀ q ∈ l, (q.rgStart : Int) + size ≤ q.rgEnd → Fits size q := by
    intro q hq hle
    have hbound := (hl q hq).bound
    have hend := fitEnd_eq q h₀.le (by omega)
    show fitEnd size q ≤ q.rgEnd
    omega
  constructor
  · rintro ⟨ret, o, l', hfs, ht⟩ pre rg post rfl hpre hrg
    obtain ⟨x, hx, -⟩ := searchFrom_case (l := rg :: post) (toULong (-1), toULong (-1)) h₀ h₁ fun q hq =>
      (hl q (List.mem_append_right _ hq)).vmaid
    cases (freeSearchList_pre hl h₀ h₁ hpre hrg hx).symm.trans hfs
    obtain ⟨nr, hnr, htakes⟩ := ht.takes rfl
    cases hnr
    exact htakes.oneFit hl hd h₀ h₁ hrg hx
  · intro hone
    rcases first_fit size l with hno | ⟨pre, rg, post, rfl, hpre, hrg⟩
    · have hnone : ¬ ∃ rg ∈ l, (rg.rgStart : Int) + size ≤ rg.rgEnd := by
        rintro ⟨q, hq, hle⟩
        exact hno q hq (hexact q hq hle)
      have hkeep : ∀ o, TakesExactly size l l (-1) o := fun o =>
        ⟨.inr rfl, iff_of_false (by decide) hnone, fun h => absurd h (by decide), fun _ _ => Iff.rfl⟩
      cases l with
      | nil => exact ⟨_, _, _, rfl, hkeep none⟩
      | cons rgit rgNext =>
        have hfrom := searchFrom_pre [] (toULong (-1), toULong (-1)) (fun q hq => (hl q hq).vmaid) hno
        rw [List.append_nil, searchFrom, behind, Exec.ok_bind, List.append_nil] at hfrom
        refine ⟨-1, some (toULong (-1), toULong (-1)), _, ?_, hkeep _⟩
        rw [freeSearchList_eq (List.cons_ne_nil _ _), hfrom, Exec.ok_bind]
        rfl
    · obtain ⟨hsum, hcase⟩ := hone pre rg post rfl hpre hrg
      obtain ⟨x, hx, ht⟩ := takes_of_oneFit (toULong (-1), toULong (-1)) hl hd h₀ h₁ hrg hsum hcase
      refine ⟨_, _, _, freeSearchList_pre hl h₀ h₁ hpre hrg hx, .inl rfl, iff_of_true rfl ?_, fun _ => ⟨_, rfl, ht⟩,
        fun h => absurd h (by decide)⟩
      have hend := fitEnd_eq rg h₀.le hsum
      have hle : fitEnd size rg ≤ rg.rgEnd := hrg
      exact ⟨rg, List.mem_append_right _ (List.mem_cons_self ..), by omega⟩

variable {caller : Caller} {i : Nat} {a : VmAreaStruct}

/-- `get_free_vmrg_area` takes exactly what it returns from the free list of area `a`, at position `i`. -/
def AreaTakesExactly (caller : Caller) (vmaid size : Int) (i : Nat) (a : VmAreaStruct) : Prop :=
  ∃ ret o caller' a', getFreeVmrgArea caller vmaid size = .ok (ret, o, caller') ∧ caller'.mm.area i = .ok a' ∧
    TakesExactly size a.vmFreergList a'.vmFreergList ret o

theorem MmStruct.area_setArea {mm : MmStruct} (h : mm.area i = .ok a) (b : VmAreaStruct) :
    (mm.setArea i b).area i = .ok b := by
  unfold MmStruct.area at h
  split at h
  · next hget =>
    obtain ⟨hi, -⟩ := List.getElem?_eq_some_iff.mp hget
    simp only [MmStruct.area, MmStruct.setArea, List.getElem?_set_self hi]
  · cases h

theorem areaTakesExactly_list (hi : getVmaByNum caller.mm vmaid = .ok (some i)) (ha : caller.mm.area i = .ok a) :
    AreaTakesExactly caller vmaid size i a ↔
      ∃ ret o l', freeSearchList vmaid size a.vmFreergList = .ok (ret, o, l') ∧
        TakesExactly size a.vmFreergList l' ret o := by
  have hfree : ∀ {y}, getFreeVmrgArea caller vmaid size = .ok y ↔
      ∃ x, freeSearchList vmaid size a.vmFreergList = .ok x ∧
        (x.1, x.2.1, { caller with mm := caller.mm.setArea i { a with vmFreergList := x.2.2 } }) = y := by
    intro y
    simp only [getFreeVmrgArea, hi, derefVma, ha, Exec.ok_bind, Option.getD_some, Exec.pure_eq_ok, Exec.bind_ok,
      Except.ok.injEq]
  constructor
  · rintro ⟨ret, o, caller', a', hx, ha', ht⟩
    obtain ⟨⟨ret, o, l'⟩, hfs, heq⟩ := hfree.mp hx
    cases heq
    cases (MmStruct.area_setArea ha _).symm.trans ha'
    exact ⟨ret, o, l', hfs, ht⟩
  · rintro ⟨ret, o, l', hfs, ht⟩
    exact ⟨ret, o, _, _, hfree.mpr ⟨_, hfs, rfl⟩, MmStruct.area_setArea ha _, ht⟩

/-- `get_free_vmrg_area` takes exactly what it returns if and only if the first region that fits has room to spare or
is the only one that fits, and no sum wraps. -/
theorem takesExactly_iff (hi : getVmaByNum caller.mm vmaid = .ok (some i)) (ha : caller.mm.area i = .ok a)
    (hl : ∀ rg ∈ a.vmFreergList, rg.Wf (toULong vmaid)) (hd : Apart a.vmFreergList) (h₀ : 0 < size)
    (h₁ : size < 2 ^ 31) : AreaTakesExactly caller vmaid size i a ↔ OneFit size a.vmFreergList :=
  (areaTakesExactly_list hi ha).trans (freeSearchList_takesExactly hl hd h₀ h₁)

def callerWithFree (l : List VmRgStruct) : Caller :=
  { mm := (initMm .zeroed).setArea 0 ⟨0, 0, 0, 0, l⟩, dev := fun _ => initMemphy .zeroed 0 true }

theorem pair_wf {s e s' e' : Nat} (h : s ≤ e ∧ e < s' ∧ s' ≤ e' ∧ e' < 2 ^ 64) :
    (∀ rg ∈ [(⟨0, s, e⟩ : VmRgStruct), ⟨0, s', e'⟩], rg.Wf (toULong 0)) ∧ Apart [⟨0, s, e⟩, ⟨0, s', e'⟩] := by
  refine ⟨?_, List.pairwise_pair.mpr fun x => ?_⟩
  · rw [List.forall_mem_cons, List.forall_mem_singleton]
    exact ⟨⟨rfl, h.1, show e < 18446744073709551616 by omega⟩, rfl, h.2.2.1, h.2.2.2⟩
  · rw [has_iff, has_iff]
    dsimp only
    omega

/-- Two regions of 100 and 200 bytes, and a request of 100. -/
theorem takesExactly_iff_two : AreaTakesExactly (callerWithFree [⟨0, 0, 100⟩, ⟨0, 200, 400⟩]) 0 100 0
    ⟨0, 0, 0, 0, [⟨0, 0, 100⟩, ⟨0, 200, 400⟩]⟩ ↔ OneFit 100 [⟨0, 0, 100⟩, ⟨0, 200, 400⟩] :=
  takesExactly_iff rfl rfl (pair_wf (by decide)).1 (pair_wf (by decide)).2 (by decide) (by decide)

/-- Two regions of 100 bytes and a request of 100: both leave the list, and the bytes of the first are lost. -/
theorem exact_fit_lost : ¬ ∀ caller vmaid i a, getVmaByNum caller.mm vmaid = .ok (some i) → caller.mm.area i = .ok a →
    (∀ rg ∈ a.vmFreergList, rg.Wf (toULong vmaid)) → Apart a.vmFreergList → ∀ size : Int, 0 < size → size < 2 ^ 31 →
    AreaTakesExactly caller vmaid size i a := by
  intro hall
  have hfs : freeSearchList 0 100 [⟨0, 0, 100⟩, ⟨0, 200, 300⟩] = .ok (0, some (200, 300), [⟨0, 300, 300⟩]) := by decide
  have htwo := @pair_wf 0 100 200 300 (by decide)
  have hx := hall (callerWithFree [⟨0, 0, 100⟩, ⟨0, 200, 300⟩]) 0 0 ⟨0, 0, 0, 0, [⟨0, 0, 100⟩, ⟨0, 200, 300⟩]⟩ rfl rfl
    htwo.1 htwo.2 100 (by decide) (by decide)
  obtain ⟨ret, o, l', hfs', ht⟩ := (areaTakesExactly_list rfl rfl).mp hx
  cases hfs.symm.trans hfs'
  obtain ⟨nr, hnr, htakes⟩ := ht.takes rfl
  cases hnr
  have hbyte : Covered [⟨0, 300, 300⟩] 0 :=
    (htakes.covered 0).mpr ⟨⟨⟨0, 0, 100⟩, List.mem_cons_self .., rfl⟩, by decide⟩
  obtain ⟨rg, hrg, hhas⟩ := hbyte
  rw [List.mem_singleton.mp hrg] at hhas
  cases hhas

end SimpleOs.Mm
