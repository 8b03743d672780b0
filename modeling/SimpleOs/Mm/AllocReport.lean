import SimpleOs.Mm.FirstFit

/-!
# What an allocation reports

* `Taken` : the free region a request is taken from; `searchFrom_taken`, `SearchCase.taken` : the search delivers its
  start;
* `AllocReports` : address, size and area of the region are those reported, and no other region changed;
* `allocReports_iff` : an allocation does so if and only if it is taken from a free region that starts below `2 ^ 31`.
-/

namespace SimpleOs.Mm
open CInt

/-- The region a request of `size` bytes is taken from: the first with room to spare, or the last that fits when
there is none. -/
def Taken (size : Int) (l : List VmRgStruct) (rg : VmRgStruct) : Prop :=
  ∃ pre post, l = pre ++ rg :: post ∧ (∀ q ∈ pre, ¬ fitEnd size q < q.rgEnd) ∧
    (fitEnd size rg < rg.rgEnd ∨ (fitEnd size rg = rg.rgEnd ∧ ∀ q ∈ post, ¬ Fits size q))

variable {vmaid size : Int} {rg : VmRgStruct} {l pre post : List VmRgStruct} {newrg : Nat × Nat} {x : FreeSearch}

theorem searchFrom_taken_head (hv : ∀ q ∈ rg :: post, q.vmaid = toULong vmaid) (h₀ : 0 < size) (h₁ : size < 2147483648)
    (hrg : fitEnd size rg < rg.rgEnd ∨ (fitEnd size rg = rg.rgEnd ∧ ∀ q ∈ post, ¬ Fits size q))
    (hstart : rg.rgStart < 2 ^ 31) :
    ∃ found l', searchFrom vmaid size (rg :: post) newrg = .ok (found, (rg.rgStart, fitEnd size rg), l') := by
  rw [List.forall_mem_cons] at hv
  rcases hrg with hlt | ⟨heq, hno⟩
  · exact ⟨_, _, searchFrom_shrink hv.1 hlt⟩
  · have hend := fitEnd_eq rg h₀.le (by omega)
    cases post with
    | nil =>
      have hdummy := fitEnd_eq (dummyOf rg) h₀.le (by dsimp only [dummyOf]; omega)
      dsimp only [dummyOf] at hdummy
      rw [searchFrom_dummy hv.1 heq, if_neg (fitEnd_dummy_ne h₀ h₁ rg), heq]
      have hdv : (dummyOf rg).vmaid = toULong vmaid := hv.1
      exact ⟨_, _, searchFrom_skip hdv (show ¬ fitEnd size (dummyOf rg) ≤ rg.rgEnd by unfold dummyOf; omega)⟩
    | cons next rgNext =>
      have hpost := searchFrom_pre [] (rg.rgStart, rg.rgEnd) hv.2 hno
      rw [List.append_nil, searchFrom, behind, Exec.ok_bind, List.append_nil] at hpost
      rw [searchFrom_drop hv.1 (List.forall_mem_cons.mp hv.2).1 heq, heq]
      exact ⟨_, _, hpost⟩

/-- The search delivers the start of the region the request is taken from. -/
theorem searchFrom_taken (newrg : Nat × Nat) (hv : ∀ q ∈ l, q.vmaid = toULong vmaid) (h₀ : 0 < size)
    (h₁ : size < 2147483648) (ht : Taken size l rg) (hstart : rg.rgStart < 2 ^ 31) :
    ∃ found l', searchFrom vmaid size l newrg = .ok (found, (rg.rgStart, fitEnd size rg), l') := by
  obtain ⟨pre, post, rfl, hpre, hrg⟩ := ht
  induction pre generalizing newrg with
  | nil => exact searchFrom_taken_head hv h₀ h₁ hrg hstart
  | cons q pre ih =>
    rw [List.forall_mem_cons] at hpre
    rw [List.cons_append, List.forall_mem_cons] at hv
    by_cases hfit : Fits size q
    · obtain ⟨found, l', hx⟩ := ih (q.rgStart, q.rgEnd) hv.2 hpre.2
      have heq : fitEnd size q = q.rgEnd := Nat.le_antisymm hfit (Nat.not_lt.mp hpre.1)
      rw [List.cons_append]
      cases hl : pre ++ rg :: post with
      | nil => exact absurd hl (List.append_ne_nil_of_right_ne_nil _ (List.cons_ne_nil _ _))
      | cons next rgNext =>
        rw [hl] at hv hx
        rw [searchFrom_drop hv.1 (List.forall_mem_cons.mp hv.2).1 heq]
        exact ⟨found, l', hx⟩
    · obtain ⟨found, l', hx⟩ := ih newrg hv.2 hpre.2
      rw [List.cons_append, searchFrom_skip hv.1 hfit, hx, Exec.ok_bind]
      exact ⟨_, _, rfl⟩

theorem SearchCase.taken (h : SearchCase size newrg l x) (h₀ : 0 < size) (hset : x.1 = true ∨ x.2.1 ≠ newrg)
    (hstart : x.2.1.1 < 2 ^ 31) (hsize : (x.2.1.2 : Int) = x.2.1.1 + size) :
    ∃ rg, Taken size l rg ∧ rg.rgStart < 2 ^ 31 := by
  cases h with
  | none => exact absurd hset (by simp only [Bool.false_eq_true, ne_eq, not_true_eq_false, or_self, not_false_eq_true])
  | @shrink pre post rg hpre hfit => exact ⟨rg, ⟨pre, post, rfl, hpre, .inl hfit⟩, hstart⟩
  | @take pre post rg hpre hfit hpost => exact ⟨rg, ⟨pre, post, rfl, hpre, .inr ⟨hfit, hpost⟩⟩, hstart⟩
  | @last pre rg hpre hfit => exact ⟨rg, ⟨pre, [], rfl, hpre, .inr ⟨hfit, fun _ h => nomatch h⟩⟩, hstart⟩
  | @wrap pre rg hpre hfit hdummy =>
    dsimp only at hsize
    omega

/-! ## The address reported -/

variable {c c' : Caller} {a : VmAreaStruct} {rgid ret : Int} {addr : Option Int}

/-- `*alloc_addr` is the start of what the search delivered, whatever the path. -/
theorem alloc_addr (hm : c.mm.Single a) (hv : ValidRg rgid) (h : Libmem.alloc c 0 rgid size = .ok (ret, addr, c')) :
    ∃ ret₀ o l', freeSearchList 0 size a.vmFreergList = .ok (ret₀, o, l') ∧ addr = o.map fun nr => toInt nr.1 := by
  unfold Libmem.alloc at h
  rw [if_neg hv.not_refused, getFreeVmrgArea_single hm] at h
  obtain ⟨⟨ret₀, o, caller⟩, hx, h⟩ := Exec.bind_ok.mp h
  obtain ⟨⟨ret₀', o', l'⟩, hfs, hret⟩ := Exec.bind_ok.mp hx
  cases hret
  refine ⟨ret₀, o, l', hfs, ?_⟩
  have hl : (c.withArea { a with vmFreergList := l' }).mm.Single { a with vmFreergList := l' } :=
    Caller.withArea_single hm.vmId
  by_cases hret₀ : ret₀ = 0
  · simp only [hret₀, if_true] at h
    cases o with
    | none => cases h
    | some nr =>
      obtain ⟨mm, -, h⟩ := Exec.bind_ok.mp h
      cases h
      rfl
  · simp only [hret₀, if_false, hl.getVmaByNum, Exec.ok_bind, derefVma, hl.area, Option.getD_some, if_true] at h
    obtain ⟨c'', -, h⟩ := Exec.bind_ok.mp h
    cases h
    rfl

/-- Address, size and area of the region that was allocated are those reported, and no other region changed. -/
structure AllocReports (c c' : Caller) (rgid size : Int) (addr : Option Int) : Prop where
  addr : addr = some ((c'.mm.symrgtbl rgid.toNat).rgStart : Int)
  size : ((c'.mm.symrgtbl rgid.toNat).rgEnd : Int) - (c'.mm.symrgtbl rgid.toNat).rgStart = size
  vmaid : (c'.mm.symrgtbl rgid.toNat).vmaid = 0
  others : ∀ i < PAGING_MAX_SYMTBL_SZ, (i : Int) ≠ rgid → c'.mm.symrgtbl i = c.mm.symrgtbl i

theorem freeSearchList_cases {ret₀ : Int} {o : Option (Nat × Nat)} {l' : List VmRgStruct}
    (h : freeSearchList vmaid size l = .ok (ret₀, o, l')) : (l = [] ∧ o = none) ∨
      ∃ found nr, searchFrom vmaid size l (toULong (-1), toULong (-1)) = .ok (found, nr, l') ∧ o = some nr ∧
        ret₀ = if found = false ∧ nr.1 = toULong (-1) then -1 else 0 := by
  cases l with
  | nil =>
    cases h
    exact .inl ⟨rfl, rfl⟩
  | cons rgit rgNext =>
    rw [freeSearchList_eq (List.cons_ne_nil _ _)] at h
    obtain ⟨⟨found, nr, l''⟩, hx, hret⟩ := Exec.bind_ok.mp h
    simp only [Except.ok.injEq, Prod.mk.injEq] at hret
    obtain ⟨hret, rfl, rfl⟩ := hret
    exact .inr ⟨found, nr, hx, rfl, hret.symm⟩

theorem alloc_region (hm : c.mm.Single a) (hv : ValidRg rgid) (h : Libmem.alloc c 0 rgid size = .ok (ret, addr, c')) :
    ∃ a' rg, AllocCase a size a' rg ∧ c'.mm.symrgtbl = Function.update c.mm.symrgtbl rgid.toNat rg := by
  rcases (alloc_ok_iff hm).mp ⟨addr, h⟩ with hr | ⟨-, hcase, -⟩
  · exact absurd hr hv.not_refused
  · exact ⟨_, _, hcase, by rw [Caller.place_symrgtbl, Caller.mapRam_symrgtbl]⟩

theorem AllocCase.served_region {a' : VmAreaStruct} {nr : Nat × Nat} {l' : List VmRgStruct} (h : AllocCase a size a' rg)
    (hfs : freeSearchList 0 size a.vmFreergList = .ok (0, some nr, l')) : rg = ⟨0, nr.1, nr.2⟩ := by
  rcases (allocCase_iff hfs).mp h with ⟨-, nr', hnr, -, rfl⟩ | ⟨hne, -⟩
  · cases hnr
    rfl
  · exact absurd rfl hne

/-- An allocation reports the region it reserved if and only if it is taken from a free region that starts below
`2 ^ 31`. -/
theorem allocReports_iff (hm : c.mm.Single a) (hl : ∀ q ∈ a.vmFreergList, q.vmaid = 0) (hv : ValidRg rgid)
    (h₀ : 1 ≤ size) (h₁ : size < 2 ^ 20) (h : Libmem.alloc c 0 rgid size = .ok (0, addr, c')) :
    AllocReports c c' rgid size addr ↔ ∃ rg, Taken size a.vmFreergList rg ∧ rg.rgStart < 2 ^ 31 := by
  have hl' : ∀ q ∈ a.vmFreergList, q.vmaid = toULong 0 := hl
  have hset : toULong (-1) = 18446744073709551615 := rfl
  obtain ⟨ret₀, o, l', hfs, rfl⟩ := alloc_addr hm hv h
  obtain ⟨a', rg, hcase, hsym⟩ := alloc_region hm hv h
  rcases freeSearchList_cases hfs with ⟨hnil, rfl⟩ | ⟨found, nr, hx, rfl, hret⟩
  · rw [hnil]
    refine iff_of_false (fun hrep => nomatch hrep.addr) ?_
    rintro ⟨q, ⟨pre, post, hl, -⟩, -⟩
    exact absurd hl.symm (List.append_ne_nil_of_right_ne_nil _ (List.cons_ne_nil _ _))
  have hrg : c'.mm.symrgtbl rgid.toNat = rg := by rw [hsym, Function.update_self]
  constructor
  · rintro ⟨haddr, hsize, -, -⟩
    rw [hrg] at haddr hsize
    have haddr : toInt nr.1 = rg.rgStart := Option.some.inj haddr
    by_cases hunset : found = false ∧ nr.1 = toULong (-1)
    · rw [hunset.2] at haddr
      have : toInt (toULong (-1) : Nat) = -1 := rfl
      omega
    · rw [if_neg hunset] at hret
      subst hret
      have hserved := hcase.served_region hfs
      subst hserved
      have hlt := toInt_lt nr.1
      dsimp only at haddr hsize
      obtain ⟨y, hy, hsearch⟩ := searchFrom_case (toULong (-1), toULong (-1)) (show 0 < size by omega)
        (by omega) hl'
      cases hx.symm.trans hy
      have hfound : found = true ∨ nr ≠ (toULong (-1), toULong (-1)) :=
        (Bool.eq_false_or_eq_true found).imp_right fun hfound hnr => hunset ⟨hfound, congrArg Prod.fst hnr⟩
      exact hsearch.taken (by omega) hfound (show nr.1 < 2 ^ 31 by omega) (show (nr.2 : Int) = nr.1 + size by omega)
  · rintro ⟨q, ht, hstart⟩
    obtain ⟨found', l'', hy⟩ := searchFrom_taken (toULong (-1), toULong (-1)) hl' (by omega) (by omega) ht hstart
    cases hx.symm.trans hy
    have hend := fitEnd_eq q (show 0 ≤ size by omega) (by omega)
    have hq : toInt q.rgStart = q.rgStart := toInt_of_bounds (by omega) (by omega)
    rw [if_neg (fun hunset => by dsimp only at hunset; omega)] at hret
    subst hret
    have hserved := hcase.served_region hfs
    subst hserved
    refine ⟨?_, ?_, ?_, fun i hi hne => ?_⟩
    · rw [hrg, Option.map_some]
      exact congrArg some hq
    · rw [hrg]
      dsimp only
      omega
    · rw [hrg]
    · have := hv.1
      rw [hsym, Function.update_of_ne (by omega)]

theorem exists_alloc (c : Caller) (rgid size : Int)
    (h : (Libmem.alloc c 0 rgid size).toOption.any (fun x => x.1 = 0) = true) :
    ∃ addr c', Libmem.alloc c 0 rgid size = .ok (0, addr, c') := by
  cases hx : Libmem.alloc c 0 rgid size with
  | error e => rw [hx] at h; cases h
  | ok x =>
    rw [hx] at h
    obtain ⟨ret, addr, c'⟩ := x
    have hret : ret = 0 := of_decide_eq_true h
    exact ⟨addr, c', by rw [hret]⟩

/-- 50 bytes out of the first of two free regions. -/
theorem allocReports_iff_reuse : ∃ addr c', Libmem.alloc (callerWithFree [⟨0, 0, 100⟩, ⟨0, 200, 400⟩]) 0 3 50 =
    .ok (0, addr, c') ∧ (AllocReports (callerWithFree [⟨0, 0, 100⟩, ⟨0, 200, 400⟩]) c' 3 50 addr ↔
      ∃ rg, Taken 50 [⟨0, 0, 100⟩, ⟨0, 200, 400⟩] rg ∧ rg.rgStart < 2 ^ 31) := by
  obtain ⟨addr, c', h⟩ := exists_alloc (callerWithFree [⟨0, 0, 100⟩, ⟨0, 200, 400⟩]) 3 50
    (by decide +kernel)
  exact ⟨addr, c', h, allocReports_iff ⟨rfl, rfl⟩ (by decide) (by decide) (by decide) (by decide) h⟩

/-- The first allocation of a new process reports address -1 for a region that starts at 0. -/
theorem first_alloc_misreports : ¬ ∀ c a, c.mm.Single a → (∀ q ∈ a.vmFreergList, q.vmaid = 0) →
    ∀ rgid size : Int, ValidRg rgid → 1 ≤ size → size < 2 ^ 20 →
    ∀ addr c', Libmem.alloc c 0 rgid size = .ok (0, addr, c') → AllocReports c c' rgid size addr := by
  intro hall
  have hm : ((MemSys.boot 512 512).caller 0).mm.Single ⟨0, 0, 0, 0, [⟨0, 0, 0⟩]⟩ := ⟨rfl, rfl⟩
  obtain ⟨addr, c', h⟩ := exists_alloc ((MemSys.boot 512 512).caller 0) 0 100 (by decide +kernel)
  obtain ⟨ret₀, o, l', hfs, haddr⟩ := alloc_addr hm (by decide) h
  have hx : freeSearchList 0 100 [⟨0, 0, 0⟩] =
      .ok (-1, some (18446744073709551615, 18446744073709551615), [⟨0, 0, 0⟩]) := by decide
  cases hx.symm.trans hfs
  have hrep := (hall _ _ hm (by decide) 0 100 (by decide) (by decide) (by decide) addr c' h).addr
  cases haddr.symm.trans hrep

end SimpleOs.Mm
