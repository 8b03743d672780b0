import SimpleOs.Lib.Loop
import SimpleOs.Mm.System

/-!
# The search of the free region list

* `SearchSt`, `searchStep` : the loop of `get_free_vmrg_area`, one round a step; `searchFrom` : `freeSearch` from
  any point of a list, with the same equations;
* `searchFrom_agrees` : `searchFrom` is what the loop ends with, and its error is a loop without end;
* `SearchCase`, `searchFrom_case` : what the search of a list of one area leaves and delivers.
-/

namespace SimpleOs.Mm
open CInt StateTransition

/-! ## The loop -/

/-- `rgit->rg_start + size` -/
def fitEnd (size : Int) (rg : VmRgStruct) : Nat := toULong (rg.rgStart + toULong size)

def dummyOf (rg : VmRgStruct) : VmRgStruct := { rg with rgStart := rg.rgEnd }

structure SearchSt where
  /-- the nodes before the cursor -/
  passed : List VmRgStruct
  /-- the nodes from the cursor on -/
  cursor : List VmRgStruct
  newrg : Nat × Nat
  /-- `return 0` was reached -/
  found : Bool

def searchStep (vmaid size : Int) (s : SearchSt) : Option SearchSt :=
  if s.found then none
  else
    match s.cursor with
    | [] => none
    | rgit :: rgNext =>
      if rgit.vmaid ≠ toULong vmaid then none
      else if fitEnd size rgit ≤ rgit.rgEnd then
        let newrg := (rgit.rgStart, fitEnd size rgit)
        if fitEnd size rgit < rgit.rgEnd then
          some ⟨s.passed, { rgit with rgStart := fitEnd size rgit } :: rgNext, newrg, true⟩
        else
          match rgNext with
          | next :: rgNext =>
            some ⟨s.passed, { rgit with rgStart := next.rgStart, rgEnd := next.rgEnd } :: rgNext, newrg, false⟩
          | [] => some ⟨s.passed, [{ rgit with rgStart := rgit.rgEnd }], newrg, false⟩
      else some ⟨s.passed ++ [rgit], rgNext, s.newrg, false⟩

def SearchSt.out (s : SearchSt) : FreeSearch := (s.found, s.newrg, s.passed ++ s.cursor)

variable {vmaid size : Int} {rgit next rg : VmRgStruct} {l l' rgNext passed : List VmRgStruct} {newrg nr : Nat × Nat}
  {found : Bool} {e : Ub}

theorem searchStep_found (passed cursor : List VmRgStruct) (newrg : Nat × Nat) :
    searchStep vmaid size ⟨passed, cursor, newrg, true⟩ = none := rfl

theorem searchStep_nil (passed : List VmRgStruct) (newrg : Nat × Nat) :
    searchStep vmaid size ⟨passed, [], newrg, false⟩ = none := rfl

theorem searchStep_vmaid (h : rgit.vmaid ≠ toULong vmaid) :
    searchStep vmaid size ⟨passed, rgit :: rgNext, newrg, false⟩ = none := by
  simp only [searchStep, Bool.false_eq_true, if_false, h, ne_eq, not_false_eq_true, if_true]

theorem searchStep_skip (hv : rgit.vmaid = toULong vmaid) (hfit : ¬ fitEnd size rgit ≤ rgit.rgEnd) :
    searchStep vmaid size ⟨passed, rgit :: rgNext, newrg, false⟩ = some ⟨passed ++ [rgit], rgNext, newrg, false⟩ := by
  simp only [searchStep, Bool.false_eq_true, if_false, hv, ne_eq, not_true_eq_false, hfit]

theorem searchStep_shrink (hv : rgit.vmaid = toULong vmaid) (hfit : fitEnd size rgit < rgit.rgEnd) :
    searchStep vmaid size ⟨passed, rgit :: rgNext, newrg, false⟩ =
      some ⟨passed, { rgit with rgStart := fitEnd size rgit } :: rgNext, (rgit.rgStart, fitEnd size rgit), true⟩ := by
  simp only [searchStep, Bool.false_eq_true, if_false, hv, ne_eq, not_true_eq_false, hfit.le, hfit, if_true]

theorem searchStep_take (hv : rgit.vmaid = toULong vmaid) (hfit : fitEnd size rgit = rgit.rgEnd) :
    searchStep vmaid size ⟨passed, rgit :: next :: rgNext, newrg, false⟩ =
      some ⟨passed, { rgit with rgStart := next.rgStart, rgEnd := next.rgEnd } :: rgNext,
        (rgit.rgStart, rgit.rgEnd), false⟩ := by
  simp only [searchStep, Bool.false_eq_true, if_false, hv, ne_eq, not_true_eq_false, hfit, le_refl, lt_irrefl, if_true]

theorem searchStep_dummy (hv : rgit.vmaid = toULong vmaid) (hfit : fitEnd size rgit = rgit.rgEnd) :
    searchStep vmaid size ⟨passed, [rgit], newrg, false⟩ =
      some ⟨passed, [dummyOf rgit], (rgit.rgStart, rgit.rgEnd), false⟩ := by
  simp only [searchStep, Bool.false_eq_true, if_false, hv, ne_eq, not_true_eq_false, hfit, le_refl, lt_irrefl, if_true,
    dummyOf]

/-! ## The search as a function -/

/-- The loop with the cursor at the head of a list, `NULL` when it is empty. -/
def searchFrom (vmaid size : Int) (l : List VmRgStruct) (newrg : Nat × Nat) : Exec FreeSearch :=
  match l with
  | [] => .ok (false, newrg, [])
  | rgit :: rgNext => freeSearch vmaid size rgit rgNext newrg

theorem searchFrom_vmaid (h : rgit.vmaid ≠ toULong vmaid) :
    searchFrom vmaid size (rgit :: rgNext) newrg = .ok (false, newrg, rgit :: rgNext) := by
  cases rgNext with
  | nil => simp only [searchFrom, freeSearch, freeSearchLast, h, ne_eq, not_false_eq_true, if_true]
  | cons => simp only [searchFrom, freeSearch, h, ne_eq, not_false_eq_true, if_true]

theorem searchFrom_skip (hv : rgit.vmaid = toULong vmaid) (hfit : ¬ fitEnd size rgit ≤ rgit.rgEnd) :
    searchFrom vmaid size (rgit :: rgNext) newrg =
      searchFrom vmaid size rgNext newrg >>= fun x => .ok (x.1, x.2.1, rgit :: x.2.2) := by
  unfold fitEnd at hfit
  cases rgNext with
  | nil =>
      simp only [searchFrom, freeSearch, freeSearchLast, hv, ne_eq, not_true_eq_false, if_false, hfit, Exec.ok_bind]
  | cons next rgNext =>
    simp only [searchFrom, freeSearch, hv, ne_eq, not_true_eq_false, if_false, hfit]
    cases freeSearch vmaid size next rgNext newrg with
    | ok => rfl
    | error => rfl

theorem searchFrom_shrink (hv : rgit.vmaid = toULong vmaid) (hfit : fitEnd size rgit < rgit.rgEnd) :
    searchFrom vmaid size (rgit :: rgNext) newrg =
      .ok (true, (rgit.rgStart, fitEnd size rgit), { rgit with rgStart := fitEnd size rgit } :: rgNext) := by
  unfold fitEnd at hfit
  cases rgNext with
  | nil =>
    simp only [searchFrom, freeSearch, freeSearchLast, hv, ne_eq, not_true_eq_false, if_false, hfit.le, hfit, if_true,
      fitEnd]
  | cons => simp only [searchFrom, freeSearch, hv, ne_eq, not_true_eq_false, if_false, hfit.le, hfit, if_true, fitEnd]

theorem searchFrom_take (hv : rgit.vmaid = toULong vmaid) (hfit : fitEnd size rgit = rgit.rgEnd) :
    searchFrom vmaid size (rgit :: next :: rgNext) newrg =
      searchFrom vmaid size ({ rgit with rgStart := next.rgStart, rgEnd := next.rgEnd } :: rgNext)
        (rgit.rgStart, rgit.rgEnd) := by
  unfold fitEnd at hfit
  simp only [searchFrom, freeSearch, hv, ne_eq, not_true_eq_false, if_false, hfit, le_refl, lt_irrefl, if_true]

theorem searchFrom_dummy (hv : rgit.vmaid = toULong vmaid) (hfit : fitEnd size rgit = rgit.rgEnd) :
    searchFrom vmaid size [rgit] newrg =
      if fitEnd size (dummyOf rgit) = rgit.rgEnd then .error .loop
      else searchFrom vmaid size [dummyOf rgit] (rgit.rgStart, rgit.rgEnd) := by
  unfold fitEnd at hfit ⊢
  unfold dummyOf
  simp only [searchFrom, freeSearch, freeSearchLast, hv, ne_eq, not_true_eq_false, if_false, hfit, le_refl, lt_irrefl,
    if_true]
  rcases Nat.lt_trichotomy (toULong (rgit.rgEnd + toULong size)) rgit.rgEnd with h | h | h
  · simp only [h.le, h, h.ne, if_true, if_false]
  · simp only [h, le_refl, lt_irrefl, if_true, if_false]
  · simp only [h.not_ge, h.ne', if_false]

theorem freeSearchList_eq (hne : l ≠ []) : freeSearchList vmaid size l =
    searchFrom vmaid size l (toULong (-1), toULong (-1)) >>= fun x =>
      .ok (if x.1 = false ∧ x.2.1.1 = toULong (-1) then -1 else 0, some x.2.1, x.2.2) := by
  cases l with
  | nil => exact absurd rfl hne
  | cons rgit rgNext =>
    simp only [freeSearchList, searchFrom]
    refine congrArg _ (funext fun x => ?_)
    obtain ⟨found, nr, l⟩ := x
    cases found with
    | true => rfl
    | false =>
      by_cases hnr : nr.1 = toULong (-1)
      · simp only [hnr, Bool.false_eq_true, if_false, if_true, and_self, Exec.pure_eq_ok]
      · simp only [hnr, Bool.false_eq_true, if_false, and_false, Exec.pure_eq_ok]

/-! ## The function against the loop -/

def LoopAgrees (vmaid size : Int) (s : SearchSt) (x : Exec FreeSearch) : Prop :=
  match x with
  | .ok out => ∃ t ∈ eval (searchStep vmaid size) s, t.out = out
  | .error e => e = .loop ∧ ¬ (eval (searchStep vmaid size) s).Dom

/-- The outcome of the nodes from the cursor on, behind the nodes passed. -/
def behind (passed : List VmRgStruct) (x : Exec FreeSearch) : Exec FreeSearch :=
  x >>= fun x => .ok (x.1, x.2.1, passed ++ x.2.2)

theorem behind_append (passed : List VmRgStruct) (rg : VmRgStruct) (x : Exec FreeSearch) :
    behind passed (x >>= fun x => .ok (x.1, x.2.1, rg :: x.2.2)) = behind (passed ++ [rg]) x := by
  cases x with
  | error => simp only [behind, Exec.error_bind]
  | ok x => simp only [behind, Exec.ok_bind, List.append_assoc, List.singleton_append]

theorem LoopAgrees.step {s s' : SearchSt} {x : Exec FreeSearch} (hs : searchStep vmaid size s = some s')
    (h : LoopAgrees vmaid size s' x) : LoopAgrees vmaid size s x := by
  unfold LoopAgrees
  rwa [eval_of_step hs]

theorem LoopAgrees.done {s : SearchSt} (hs : searchStep vmaid size s = none) : LoopAgrees vmaid size s (.ok s.out) :=
  ⟨s, (mem_eval_of_done hs).mpr rfl, rfl⟩

theorem agrees_cons (hne : fitEnd size rgit ≠ rgit.rgEnd)
    (hnext : ∀ passed newrg, LoopAgrees vmaid size ⟨passed, rgNext, newrg, false⟩
      (behind passed (searchFrom vmaid size rgNext newrg))) :
    LoopAgrees vmaid size ⟨passed, rgit :: rgNext, newrg, false⟩
      (behind passed (searchFrom vmaid size (rgit :: rgNext) newrg)) := by
  by_cases hv : rgit.vmaid = toULong vmaid
  · by_cases hfit : fitEnd size rgit < rgit.rgEnd
    · rw [searchFrom_shrink hv hfit]
      exact (LoopAgrees.done (searchStep_found ..)).step (searchStep_shrink hv hfit)
    · have hno : ¬ fitEnd size rgit ≤ rgit.rgEnd := by omega
      rw [searchFrom_skip hv hno, behind_append]
      exact (hnext _ _).step (searchStep_skip hv hno)
  · rw [searchFrom_vmaid hv]
    exact .done (searchStep_vmaid hv)

theorem dummy_spins (hv : rgit.vmaid = toULong vmaid) (hfit : fitEnd size rgit = rgit.rgEnd)
    (hagain : fitEnd size (dummyOf rgit) = rgit.rgEnd) :
    ¬ (eval (searchStep vmaid size) ⟨passed, [rgit], newrg, false⟩).Dom := by
  refine eval_not_dom (I := fun s => ∃ rg : VmRgStruct, s.cursor = [rg] ∧ s.found = false ∧
    rg.vmaid = toULong vmaid ∧ fitEnd size rg = rg.rgEnd ∧ fitEnd size (dummyOf rg) = rg.rgEnd) ?_
    ⟨rgit, rfl, rfl, hv, hfit, hagain⟩
  rintro ⟨passed, cursor, newrg, found⟩ ⟨rg, rfl, rfl, hv, hfit, hagain⟩
  exact ⟨_, searchStep_dummy hv hfit, _, rfl, rfl, hv, hagain, hagain⟩

/-- The function is the loop. -/
theorem searchFrom_agrees (vmaid size : Int) (passed l : List VmRgStruct) (newrg : Nat × Nat) :
    LoopAgrees vmaid size ⟨passed, l, newrg, false⟩ (behind passed (searchFrom vmaid size l newrg)) := by
  induction hn : l.length using Nat.strong_induction_on generalizing l newrg passed with
  | _ n ih =>
  subst hn
  cases l with
  | nil => exact .done (searchStep_nil passed newrg)
  | cons rgit rgNext =>
    have hnext : ∀ passed newrg, LoopAgrees vmaid size ⟨passed, rgNext, newrg, false⟩
        (behind passed (searchFrom vmaid size rgNext newrg)) :=
      fun passed newrg => ih _ (Nat.lt_succ_self _) passed rgNext newrg rfl
    by_cases hfit : fitEnd size rgit = rgit.rgEnd
    · by_cases hv : rgit.vmaid = toULong vmaid
      · cases rgNext with
        | nil =>
          rw [searchFrom_dummy hv hfit]
          split
          · next hagain =>
            rw [behind, Exec.error_bind]
            exact ⟨rfl, dummy_spins hv hfit hagain⟩
          · next hagain => exact (agrees_cons hagain hnext).step (searchStep_dummy hv hfit)
        | cons next rgNext =>
          rw [searchFrom_take hv hfit]
          refine LoopAgrees.step (searchStep_take hv hfit) (ih _ ?_ _ _ _ rfl)
          exact Nat.lt_succ_self _
      · rw [searchFrom_vmaid hv]
        exact .done (searchStep_vmaid hv)
    · exact agrees_cons hfit hnext

theorem searchFrom_ends {x : FreeSearch} (h : searchFrom vmaid size l newrg = .ok x) :
    ∃ t ∈ eval (searchStep vmaid size) ⟨[], l, newrg, false⟩, t.out = x := by
  have hagree := searchFrom_agrees vmaid size [] l newrg
  rwa [h] at hagree

theorem searchFrom_spins (h : searchFrom vmaid size l newrg = .error e) :
    ¬ (eval (searchStep vmaid size) ⟨[], l, newrg, false⟩).Dom := by
  have hagree := searchFrom_agrees vmaid size [] l newrg
  rw [h] at hagree
  exact hagree.2

/-! ## Lists of one area -/

structure VmRgStruct.Wf (vmaid : Nat) (rg : VmRgStruct) : Prop where
  vmaid : rg.vmaid = vmaid
  order : rg.rgStart ≤ rg.rgEnd
  bound : rg.rgEnd < 18446744073709551616

/-- A node of `size` bytes or more, as the search tests it. -/
abbrev Fits (size : Int) (rg : VmRgStruct) : Prop := fitEnd size rg ≤ rg.rgEnd

def tooSmall (size : Int) (l : List VmRgStruct) : List VmRgStruct := l.filter fun rg => ¬ Fits size rg

/-- `SearchCase size newrg l out` : what the search leaves of the list `l`. The nodes that fit exactly go, and the
last one that fits, or the first one with room to spare, is what it delivers. -/
inductive SearchCase (size : Int) (newrg : Nat × Nat) : List VmRgStruct → FreeSearch → Prop
  | none {l : List VmRgStruct} (h : ∀ rg ∈ l, ¬ Fits size rg) : SearchCase size newrg l (false, newrg, l)
  | shrink (pre : List VmRgStruct) {post : List VmRgStruct} {rg : VmRgStruct}
      (hpre : ∀ q ∈ pre, ¬ fitEnd size q < q.rgEnd)
      (h : fitEnd size rg < rg.rgEnd) : SearchCase size newrg (pre ++ rg :: post)
        (true, (rg.rgStart, fitEnd size rg), tooSmall size pre ++ { rg with rgStart := fitEnd size rg } :: post)
  | take (pre : List VmRgStruct) {post : List VmRgStruct} {rg : VmRgStruct}
      (hpre : ∀ q ∈ pre, ¬ fitEnd size q < q.rgEnd)
      (h : fitEnd size rg = rg.rgEnd) (hpost : ∀ q ∈ post, ¬ Fits size q) (hne : post ≠ []) :
      SearchCase size newrg (pre ++ rg :: post) (false, (rg.rgStart, rg.rgEnd), tooSmall size pre ++ post)
  | last (pre : List VmRgStruct) {rg : VmRgStruct} (hpre : ∀ q ∈ pre, ¬ fitEnd size q < q.rgEnd)
      (h : fitEnd size rg = rg.rgEnd) (hdummy : rg.rgEnd < fitEnd size (dummyOf rg)) :
      SearchCase size newrg (pre ++ [rg]) (false, (rg.rgStart, rg.rgEnd), tooSmall size pre ++ [dummyOf rg])
  /-- the sum wraps on the dummy -/
  | wrap (pre : List VmRgStruct) {rg : VmRgStruct} (hpre : ∀ q ∈ pre, ¬ fitEnd size q < q.rgEnd)
      (h : fitEnd size rg = rg.rgEnd) (hdummy : fitEnd size (dummyOf rg) < rg.rgEnd) :
      SearchCase size newrg (pre ++ [rg]) (true, (rg.rgEnd, fitEnd size (dummyOf rg)),
        tooSmall size pre ++ [{ rg with rgStart := fitEnd size (dummyOf rg) }])

theorem tooSmall_of_not (h : ¬ Fits size rg) : tooSmall size [rg] = [rg] := by
  simp only [tooSmall, List.filter_cons, List.filter_nil, h, not_false_eq_true, decide_true, if_true]

theorem tooSmall_of_fits (h : Fits size rg) : tooSmall size [rg] = [] := by
  simp only [tooSmall, List.filter_cons, List.filter_nil, h, not_true_eq_false, decide_false, Bool.false_eq_true,
    if_false]

theorem tooSmall_cons (size : Int) (rg : VmRgStruct) (l : List VmRgStruct) :
    tooSmall size (rg :: l) = tooSmall size [rg] ++ tooSmall size l := by
  rw [← List.singleton_append, tooSmall, List.filter_append]
  rfl

theorem SearchCase.none_or {x : FreeSearch} (h : SearchCase size newrg l x) :
    ((∀ q ∈ l, ¬ Fits size q) ∧ x = (false, newrg, l)) ∨ ∃ q ∈ l, Fits size q := by
  cases h with
  | none h => exact .inl ⟨h, rfl⟩
  | shrink _ _ h => exact .inr ⟨_, List.mem_append_right _ (List.mem_cons_self ..), h.le⟩
  | take _ _ h => exact .inr ⟨_, List.mem_append_right _ (List.mem_cons_self ..), h.le⟩
  | last _ _ h => exact .inr ⟨_, List.mem_append_right _ (List.mem_cons_self ..), h.le⟩
  | wrap _ _ h => exact .inr ⟨_, List.mem_append_right _ (List.mem_cons_self ..), h.le⟩

/-- A node without room to spare in front of one that fits: it stays when it is too small, and goes when it fits. -/
theorem SearchCase.cons {x : FreeSearch} (h : SearchCase size nr l x) (newrg : Nat × Nat)
    (hfits : ∃ q ∈ l, Fits size q) (hroom : ¬ fitEnd size rg < rg.rgEnd) :
    SearchCase size newrg (rg :: l) (x.1, x.2.1, tooSmall size [rg] ++ x.2.2) := by
  have hpre : ∀ {pre : List VmRgStruct}, (∀ q ∈ pre, ¬ fitEnd size q < q.rgEnd) →
      ∀ q ∈ rg :: pre, ¬ fitEnd size q < q.rgEnd :=
    fun hpre => List.forall_mem_cons.mpr ⟨hroom, hpre⟩
  cases h with
  | none h =>
    obtain ⟨q, hq, hfit⟩ := hfits
    exact absurd hfit (h q hq)
  | @shrink pre post _ hp h =>
    rw [← List.append_assoc, ← tooSmall_cons]
    exact .shrink (rg :: pre) (hpre hp) h
  | @take pre _ _ hp h hpost hne =>
    rw [← List.append_assoc, ← tooSmall_cons]
    exact .take (rg :: pre) (hpre hp) h hpost hne
  | @last pre _ hp h hdummy =>
    rw [← List.append_assoc, ← tooSmall_cons]
    exact .last (rg :: pre) (hpre hp) h hdummy
  | @wrap pre _ hp h hdummy =>
    rw [← List.append_assoc, ← tooSmall_cons]
    exact .wrap (rg :: pre) (hpre hp) h hdummy

theorem SearchCase.skip {x : FreeSearch} (h : SearchCase size newrg l x) (hfit : ¬ Fits size rg) :
    SearchCase size newrg (rg :: l) (x.1, x.2.1, rg :: x.2.2) := by
  rcases h.none_or with ⟨hno, rfl⟩ | hfits
  · exact .none (List.forall_mem_cons.mpr ⟨hfit, hno⟩)
  · have hroom : ¬ fitEnd size rg < rg.rgEnd := fun hlt => hfit hlt.le
    have hcons := h.cons newrg hfits hroom
    rwa [tooSmall_of_not hfit] at hcons

theorem SearchCase.drop {x : FreeSearch} (h : SearchCase size (rg.rgStart, rg.rgEnd) l x)
    (hfit : fitEnd size rg = rg.rgEnd) (hne : l ≠ []) : SearchCase size newrg (rg :: l) x := by
  rcases h.none_or with ⟨hno, rfl⟩ | hfits
  · exact .take [] (fun _ h => nomatch h) hfit hno hne
  · have hroom : ¬ fitEnd size rg < rg.rgEnd := fun hlt => hlt.ne hfit
    have hcons := h.cons newrg hfits hroom
    rwa [tooSmall_of_fits hfit.le] at hcons

theorem searchFrom_drop (hv : rgit.vmaid = toULong vmaid) (hn : next.vmaid = toULong vmaid)
    (hfit : fitEnd size rgit = rgit.rgEnd) : searchFrom vmaid size (rgit :: next :: rgNext) newrg =
      searchFrom vmaid size (next :: rgNext) (rgit.rgStart, rgit.rgEnd) := by
  rw [searchFrom_take hv hfit, hv, ← hn]

theorem fitEnd_dummy_ne (h₀ : 0 < size) (h₁ : size < 2147483648) (rg : VmRgStruct) :
    fitEnd size (dummyOf rg) ≠ rg.rgEnd := by
  unfold fitEnd dummyOf toULong
  dsimp only
  omega

/-- The search over a list of one area. -/
theorem searchFrom_case (newrg : Nat × Nat) (h₀ : 0 < size) (h₁ : size < 2147483648)
    (hl : ∀ rg ∈ l, rg.vmaid = toULong vmaid) :
    ∃ x, searchFrom vmaid size l newrg = .ok x ∧ SearchCase size newrg l x := by
  induction l generalizing newrg with
  | nil => exact ⟨_, rfl, .none fun _ h => nomatch h⟩
  | cons rgit rgNext ih =>
    rw [List.forall_mem_cons] at hl
    have hv := hl.1
    rcases Nat.lt_trichotomy (fitEnd size rgit) rgit.rgEnd with hfit | hfit | hfit
    · exact ⟨_, searchFrom_shrink hv hfit, .shrink [] (fun _ h => nomatch h) hfit⟩
    · cases rgNext with
      | nil =>
        rw [searchFrom_dummy hv hfit, if_neg (fitEnd_dummy_ne h₀ h₁ rgit)]
        have hdv : (dummyOf rgit).vmaid = toULong vmaid := hv
        rcases Nat.lt_or_gt_of_ne (fitEnd_dummy_ne h₀ h₁ rgit) with hdummy | hdummy
        · exact ⟨_, searchFrom_shrink hdv hdummy, .wrap [] (fun _ h => nomatch h) hfit hdummy⟩
        · have hskip : searchFrom vmaid size [dummyOf rgit] (rgit.rgStart, rgit.rgEnd) = _ :=
            searchFrom_skip hdv hdummy.not_ge
          exact ⟨_, hskip, .last [] (fun _ h => nomatch h) hfit hdummy⟩
      | cons next rgNext =>
        rw [searchFrom_drop hv (List.forall_mem_cons.mp hl.2).1 hfit]
        obtain ⟨x, hx, hcase⟩ := ih (rgit.rgStart, rgit.rgEnd) hl.2
        exact ⟨x, hx, hcase.drop hfit (List.cons_ne_nil _ _)⟩
    · obtain ⟨x, hx, hcase⟩ := ih newrg hl.2
      rw [searchFrom_skip hv hfit.not_ge, hx, Exec.ok_bind]
      exact ⟨_, rfl, hcase.skip hfit.not_ge⟩

end SimpleOs.Mm
