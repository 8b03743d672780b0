import SimpleOs.Mm.FreeRegions

/-!
# Indices of the symbol table

* `InTable x` : the call `x` does not end with an index outside `symrgtbl`, with one lemma for each function;
* `memCall_inTable` : a call whose region operand is not 30;
* `RegionChecked` : a call stays in the table, and an operand outside it makes it return -1; `regionChecked_iff`.
-/

namespace SimpleOs.Mm
open CInt

/-- The call does not end with an index outside `symrgtbl`. -/
def InTable {α : Type} (x : Exec α) : Prop := ∀ i, x ≠ .error (.symrgtbl i)

section
variable {α β : Type}

@[simp] theorem inTable_ok (a : α) : InTable (.ok a : Exec α) := fun _ h => nomatch h

@[simp] theorem inTable_error {e : Ub} : InTable (.error e : Exec α) ↔ ∀ i, e ≠ .symrgtbl i := by
  simp only [InTable, ne_eq, Except.error.injEq]

@[simp] theorem inTable_bind {x : Exec α} {f : α → Exec β} :
    InTable (x >>= f) ↔ InTable x ∧ ∀ a, x = .ok a → InTable (f a) := by
  cases x with
  | error e => simp only [Exec.error_bind, inTable_error, reduceCtorEq, false_implies, implies_true, and_true]
  | ok a => simp only [Exec.ok_bind, inTable_ok, Except.ok.injEq, forall_eq', true_and]

theorem inTable_ite {p : Prop} [Decidable p] {x y : Exec α} (hx : p → InTable x) (hy : ¬ p → InTable y) :
    InTable (if p then x else y) := by
  split
  · next h => exact hx h
  · next h => exact hy h

end

/-! ## Areas and the page table -/

variable {mm : MmStruct} {c c' : Caller}

@[simp] theorem area_inTable (mm : MmStruct) (i : Nat) : InTable (mm.area i) := by
  unfold MmStruct.area
  split <;> simp

@[simp] theorem getPte_inTable (mm : MmStruct) (pgn : Nat) : InTable (mm.getPte pgn) :=
  inTable_ite (fun _ => inTable_ok _) fun _ => by simp

@[simp] theorem setPte_inTable (mm : MmStruct) (pgn : Nat) (pte : Word) : InTable (mm.setPte pgn pte) :=
  inTable_ite (fun _ => inTable_ok _) fun _ => by simp

@[simp] theorem derefVma_inTable (mm : MmStruct) (o : Option Nat) : InTable (derefVma mm o) := by
  cases o <;> simp [derefVma]

theorem getVmaByNumLoop_inTable (vmaid : Int) (i : Nat) (l : List VmAreaStruct) :
    InTable (getVmaByNumLoop vmaid i l) := by
  induction l generalizing i with
  | nil => simp [getVmaByNumLoop]
  | cons pvma vmNext ih => exact inTable_ite (fun _ => ih (i + 1)) fun _ => inTable_ok _

@[simp] theorem getVmaByNum_inTable (mm : MmStruct) (vmaid : Int) : InTable (getVmaByNum mm vmaid) :=
  inTable_ite (fun _ => inTable_ok _) fun _ => getVmaByNumLoop_inTable vmaid 0 _

theorem vmapPageRangeLoop_inTable (startPgn : Nat) (pgnum : Int) (pgit : Nat) (frames : List Nat) (mm : MmStruct) :
    InTable (vmapPageRangeLoop startPgn pgnum pgit frames mm) := by
  induction frames generalizing pgit mm with
  | nil => simp [vmapPageRangeLoop]
  | cons fpn fpNext ih =>
    unfold vmapPageRangeLoop
    exact inTable_ite (fun _ => by simp [ih]) fun _ => by simp

@[simp] theorem vmapPageRange_inTable (c : Caller) (addr pgnum : Int) (frames : List Nat) :
    InTable (vmapPageRange c addr pgnum frames) := by
  simp [vmapPageRange, vmapPageRangeLoop_inTable]

@[simp] theorem vmMapRam_inTable (c : Caller) (astart aend mapstart incpgnum : Int) :
    InTable (vmMapRam c astart aend mapstart incpgnum) := by
  unfold vmMapRam
  refine inTable_ite (fun _ => by simp) fun _ => ?_
  exact inTable_ite (fun _ => by simp) fun _ => by simp

@[simp] theorem getVmAreaNodeAtBrk_inTable (c : Caller) (vmaid size alignedsz : Int) :
    InTable (getVmAreaNodeAtBrk c vmaid size alignedsz) := by
  simp only [getVmAreaNodeAtBrk, inTable_bind, getVmaByNum_inTable, true_and]
  rintro (_ | i) - <;> simp

@[simp] theorem incVmaLimit_inTable (c : Caller) (vmaid incSz : Int) : InTable (incVmaLimit c vmaid incSz) := by
  simp only [incVmaLimit, inTable_bind, getVmAreaNodeAtBrk_inTable, getVmaByNum_inTable, derefVma_inTable, true_and]
  rintro ⟨area, c⟩ - curVma - vma -
  cases area with
  | none => simp
  | some rg =>
    refine inTable_ite (fun _ => by simp) fun _ => ?_
    simp only [inTable_bind, vmMapRam_inTable, true_and]
    exact fun _ _ => inTable_ite (fun _ => by simp) fun _ => by simp

/-! ## Allocation and release -/

/-- A region id is in the table, refused by the checks, or the one that passes them and has no entry. -/
theorem region_cases {rgid : Int} (h : rgid ≠ PAGING_MAX_SYMTBL_SZ) :
    ValidRg rgid ∨ (rgid < 0 ∨ rgid > PAGING_MAX_SYMTBL_SZ) := by
  unfold ValidRg
  omega

@[simp] theorem getRg_inTable {rgid : Int} (hv : ValidRg rgid) (mm : MmStruct) : InTable (mm.getRg rgid) := by
  rw [MmStruct.getRg, if_pos (show 0 ≤ rgid ∧ rgid < PAGING_MAX_SYMTBL_SZ from hv)]
  exact inTable_ok _

@[simp] theorem setRg_inTable {rgid : Int} (hv : ValidRg rgid) (mm : MmStruct) (rg : VmRgStruct) :
    InTable (mm.setRg rgid rg) := by
  rw [MmStruct.setRg, if_pos (show 0 ≤ rgid ∧ rgid < PAGING_MAX_SYMTBL_SZ from hv)]
  exact inTable_ok _

theorem searchFrom_inTable (vmaid size : Int) (l : List VmRgStruct) (newrg : Nat × Nat) :
    InTable (searchFrom vmaid size l newrg) := by
  intro i hx
  have hagree := searchFrom_agrees vmaid size [] l newrg
  rw [hx, behind, Exec.error_bind] at hagree
  cases hagree.1

@[simp] theorem freeSearchList_inTable (vmaid size : Int) (l : List VmRgStruct) :
    InTable (freeSearchList vmaid size l) := by
  cases l with
  | nil => exact inTable_ok _
  | cons rgit rgNext =>
    rw [freeSearchList_eq (List.cons_ne_nil _ _)]
    simp [searchFrom_inTable]

@[simp] theorem getFreeVmrgArea_inTable (c : Caller) (vmaid size : Int) : InTable (getFreeVmrgArea c vmaid size) := by
  simp [getFreeVmrgArea]

theorem allocHeap_inTable (c : Caller) (i : Nat) {rgid : Int} (hv : ValidRg rgid) (vmaid size incSz : Int) :
    InTable (Libmem.allocHeap c i vmaid rgid size incSz) := by
  simp only [Libmem.allocHeap, inTable_bind, area_inTable, true_and]
  exact fun _ _ => inTable_ite (fun _ => by simp [hv]) fun _ => by simp [hv]

theorem alloc_inTable (c : Caller) {rgid : Int} (h : rgid ≠ PAGING_MAX_SYMTBL_SZ) (size : Int) :
    InTable (Libmem.alloc c 0 rgid size) := by
  refine inTable_ite (fun _ => inTable_ok _) fun hr => ?_
  have hv := (region_cases h).resolve_right hr
  simp only [inTable_bind, getFreeVmrgArea_inTable, true_and]
  rintro ⟨ret, rgnode, c⟩ -
  refine inTable_ite (fun _ => ?_) fun _ => ?_
  · cases rgnode <;> simp [hv]
  · simp [allocHeap_inTable, hv]

theorem free_inTable (c : Caller) {rgid : Int} (h : rgid ≠ PAGING_MAX_SYMTBL_SZ) (vmaid : Int) :
    InTable (Libmem.free c vmaid rgid) := by
  refine inTable_ite (fun _ => inTable_ok _) fun hr => ?_
  have hv := (region_cases h).resolve_right hr
  have henlist : ∀ mm rg, InTable (enlistVmFreergList mm rg) := by
    intro mm rg
    simp only [enlistVmFreergList, inTable_bind, area_inTable, true_and]
    exact fun _ _ => inTable_ite (fun _ => by simp) fun _ => by simp
  simp only [inTable_bind, getRg_inTable hv, setRg_inTable hv, henlist, true_and]
  exact fun _ _ _ _ _ _ => inTable_ite (fun _ => by simp) fun _ => by simp

/-! ## Access -/

@[simp] theorem memphyRead_inTable (mp : MemphyStruct) (addr : Int) : InTable (memphyRead mp addr) := by
  have hget : ∀ mp, InTable (storageGet mp addr) := fun mp => inTable_ite (fun _ => inTable_ok _) fun _ => by simp
  refine inTable_ite (fun _ => by simp [hget]) fun _ => ?_
  exact inTable_ite (fun _ => by simp) fun _ => by simp [hget]

@[simp] theorem memphyWrite_inTable (mp : MemphyStruct) (addr : Int) (data : BYTE) :
    InTable (memphyWrite mp addr data) := by
  have hset : ∀ mp, InTable (storageSet mp addr data) := fun mp => inTable_ite (fun _ => inTable_ok _) fun _ => by simp
  refine inTable_ite (fun _ => by simp [hset]) fun _ => ?_
  exact inTable_ite (fun _ => by simp) fun _ => by simp [hset]

theorem swapCpPageLoop_inTable (src : Dev) (a : Nat) (dst : Dev) (b left : Nat) (dev : Dev → MemphyStruct) :
    InTable (swapCpPageLoop src a dst b left dev) := by
  induction left generalizing dev with
  | zero => exact inTable_ok _
  | succ left ih =>
    simp only [swapCpPageLoop, inTable_bind, memphyRead_inTable, true_and]
    rintro ⟨ret, data, mp⟩ -
    cases data <;> simp [ih]

@[simp] theorem swapCpPage_inTable (dev : Dev → MemphyStruct) (src : Dev) (a : Nat) (dst : Dev) (b : Nat) :
    InTable (swapCpPage dev src a dst b) := by
  simp [swapCpPage, swapCpPageLoop_inTable]

@[simp] theorem pgSwapIn_inTable (c : Caller) (pgn : Nat) (pte : Word) : InTable (pgSwapIn c pgn pte) := by
  refine inTable_ite (fun _ => by simp) fun _ => ?_
  simp only [inTable_bind, getPte_inTable, true_and]
  intro vicpte _
  cases (memphyGetFreefp (c.dev .activeMswp)).2.1 <;> simp

@[simp] theorem pgGetpage_inTable (c : Caller) (pgn : Int) : InTable (pgGetpage c pgn) := by
  refine inTable_ite (fun _ => by simp) fun _ => ?_
  simp only [inTable_bind, getPte_inTable, true_and]
  refine fun _ _ => inTable_ite (fun _ => ?_) fun _ => by simp
  simp only [inTable_bind, pgSwapIn_inTable, true_and]
  exact fun _ _ => inTable_ite (fun _ => by simp) fun _ => by simp

@[simp] theorem pgGetval_inTable (c : Caller) (addr : Int) : InTable (pgGetval c addr) := by
  simp only [pgGetval, inTable_bind, pgGetpage_inTable, true_and]
  rintro ⟨ret, fpn, c⟩ -
  refine inTable_ite (fun _ => by simp) fun _ => ?_
  cases fpn <;> simp

@[simp] theorem pgSetval_inTable (c : Caller) (addr : Int) (value : BYTE) : InTable (pgSetval c addr value) := by
  simp only [pgSetval, inTable_bind, pgGetpage_inTable, true_and]
  rintro ⟨ret, fpn, c⟩ -
  refine inTable_ite (fun _ => by simp) fun _ => ?_
  cases fpn <;> simp

theorem read_inTable (c : Caller) {rgid : Int} (h : rgid ≠ PAGING_MAX_SYMTBL_SZ) (vmaid offset : Int) :
    InTable (Libmem.read c vmaid rgid offset) := by
  unfold Libmem.read getSymrgByid
  simp only [inTable_bind, getVmaByNum_inTable, true_and]
  intro o _
  rcases region_cases h with hv | hr
  · rw [if_neg hv.not_refused]
    cases o <;> simp [hv]
  · rw [if_pos hr]
    exact inTable_ok _

theorem write_inTable (c : Caller) {rgid : Int} (h : rgid ≠ PAGING_MAX_SYMTBL_SZ) (vmaid offset : Int) (value : BYTE) :
    InTable (Libmem.write c vmaid rgid offset value) := by
  unfold Libmem.write getSymrgByid
  simp only [inTable_bind, getVmaByNum_inTable, true_and]
  intro o _
  rcases region_cases h with hv | hr
  · rw [if_neg hv.not_refused]
    cases o <;> simp [hv]
  · rw [if_pos hr]
    exact inTable_ok _

/-! ## The calls of a process -/

def MemCall.region : MemCall → Nat
  | .alloc _ regIndex => regIndex
  | .free regIndex => regIndex
  | .read source _ => source
  | .write _ destination _ => destination

theorem libfree_inTable (c : Caller) {regIndex : Nat} (h : toInt regIndex ≠ PAGING_MAX_SYMTBL_SZ) :
    InTable (libfree c regIndex) := free_inTable c h 0

theorem libread_inTable (c : Caller) {source : Nat} (h : toInt source ≠ PAGING_MAX_SYMTBL_SZ) (offset : Nat) :
    InTable (libread c source offset) :=
  inTable_bind.mpr ⟨read_inTable c h 0 (toInt offset), fun _ _ => inTable_ok _⟩

/-- A call stays in the table when its operand is not the one past its end. -/
theorem memCall_inTable (c : Caller) {call : MemCall} (h : toInt call.region ≠ PAGING_MAX_SYMTBL_SZ) :
    InTable (memCall c call) := by
  cases call with
  | alloc size regIndex =>
    have hlib : InTable (liballoc c size regIndex) :=
      inTable_bind.mpr ⟨alloc_inTable c h (toInt size), fun _ _ => inTable_ok _⟩
    exact inTable_bind.mpr ⟨hlib, fun _ _ => inTable_ok _⟩
  | free regIndex => exact inTable_bind.mpr ⟨libfree_inTable c h, fun _ _ => inTable_ok _⟩
  | read source offset => exact inTable_bind.mpr ⟨libread_inTable c h offset, fun _ _ => inTable_ok _⟩
  | write data destination offset =>
    exact inTable_bind.mpr ⟨write_inTable c h 0 (toInt offset) data, fun _ _ => inTable_ok _⟩

/-- A call stays in the table, and returns -1 without a change of the address space when its operand is outside it. -/
structure RegionChecked (c : Caller) (call : MemCall) : Prop where
  inTable : InTable (memCall c call)
  refused : PAGING_MAX_SYMTBL_SZ ≤ call.region → ∃ value c', memCall c call = .ok (⟨-1, value⟩, c') ∧ c'.mm = c.mm

variable {a : VmAreaStruct} {call : MemCall}

theorem memCall_refused (hm : c.mm.Single a) (hd : DevOk c.dev)
    (h : toInt call.region < 0 ∨ toInt call.region > PAGING_MAX_SYMTBL_SZ) :
    memCall c call = .ok (⟨-1, none⟩, c) := by
  refine (memCall_ok_iff hm hd).mpr ?_
  cases call with
  | alloc => exact .alloc (.refused h)
  | free => exact .free (.refused h)
  | read => exact .read (.refused h)
  | write => exact .write (.refused h)

theorem CallOutcome.region {r : MemResult} (h : CallOutcome c a call r c') :
    toInt call.region ≠ PAGING_MAX_SYMTBL_SZ := by
  have hrefused : ∀ {rgid : Int}, rgid < 0 ∨ rgid > PAGING_MAX_SYMTBL_SZ → rgid ≠ PAGING_MAX_SYMTBL_SZ := by
    intro rgid hr heq
    omega
  have hvalid : ∀ {rgid : Int}, ValidRg rgid → rgid ≠ PAGING_MAX_SYMTBL_SZ := fun hv heq => hv.2.ne heq
  rcases h with (hr | ⟨hv, -, -⟩) | (hr | ⟨hv, -⟩ | ⟨hv, -⟩) | (hr | ⟨hv, -⟩ | ⟨hv, -, -⟩) | (hr | ⟨hv, -⟩ | ⟨hv, -, -⟩)
  · exact hrefused hr
  · exact hvalid hv
  · exact hrefused hr
  · exact hvalid hv
  · exact hvalid hv
  · exact hrefused hr
  · exact hvalid hv
  · exact hvalid hv
  · exact hrefused hr
  · exact hvalid hv
  · exact hvalid hv

theorem toInt_region {k : Nat} (hk : k < 2 ^ 32) : toInt k = PAGING_MAX_SYMTBL_SZ ↔ k = PAGING_MAX_SYMTBL_SZ := by
  unfold toInt PAGING_MAX_SYMTBL_SZ
  omega

/-- A call is checked if and only if its operand is not the one past the end of the table. -/
theorem regionChecked_iff (hm : c.mm.Single a) (hd : DevOk c.dev) (hk : call.region < 2 ^ 32) :
    RegionChecked c call ↔ call.region ≠ PAGING_MAX_SYMTBL_SZ := by
  constructor
  · rintro ⟨-, hrefused⟩ heq
    obtain ⟨value, c', hx, -⟩ := hrefused heq.ge
    exact ((memCall_ok_iff hm hd).mp hx).region ((toInt_region hk).mpr heq)
  · intro hne
    have hne' := mt (toInt_region hk).mp hne
    refine ⟨memCall_inTable c hne', fun hout => ⟨none, c, memCall_refused hm hd ?_, rfl⟩⟩
    unfold toInt PAGING_MAX_SYMTBL_SZ at *
    omega

end SimpleOs.Mm
