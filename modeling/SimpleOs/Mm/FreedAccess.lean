import SimpleOs.Mm.AccessStatus

/-!
# Access to a freed region

* `Freed mm rgid` : the mark `__free` leaves in `symrgtbl`; `CallOutcome.freed_kept` : it stays until the region is
  allocated again; `freed_run` : over a run;
* `freed_accessible` : no access to a freed region is refused, and the one at `offset` is the access to address
  `offset - 1` of the process.
-/

namespace SimpleOs.Mm
open CInt

def Freed (mm : MmStruct) (rgid : Int) : Prop := (mm.symrgtbl rgid.toNat).rgStart = toULong (-1)

/-- A `liballoc` into region `rgid`. -/
def MemCall.AllocatesInto (rgid : Int) : MemCall → Prop
  | .alloc _ regIndex => toInt regIndex = rgid
  | _ => False

instance (rgid : Int) : DecidablePred (MemCall.AllocatesInto rgid)
  | .alloc _ _ => inferInstanceAs (Decidable (_ = _))
  | .free _ => inferInstanceAs (Decidable False)
  | .read _ _ => inferInstanceAs (Decidable False)
  | .write _ _ _ => inferInstanceAs (Decidable False)

variable {c c' : Caller} {a : VmAreaStruct} {call : MemCall} {r : MemResult} {rgid : Int}

theorem freedRegion_start (rg : VmRgStruct) : (freedRegion rg).rgStart = toULong (-1) := rfl

theorem Freed.update {mm mm' : MmStruct} {k : Int} {rg : VmRgStruct} (h : Freed mm rgid) (hv : ValidRg rgid)
    (hk : ValidRg k) (hsym : mm'.symrgtbl = Function.update mm.symrgtbl k.toNat rg)
    (hrg : k = rgid → rg.rgStart = toULong (-1)) : Freed mm' rgid := by
  unfold Freed
  rw [hsym]
  by_cases hkr : k = rgid
  · rw [hkr, Function.update_self]
    exact hrg hkr
  · rw [Function.update_of_ne (by have := hv.1; have := hk.1; omega)]
    exact h

/-- A call keeps the mark unless it allocates the region. -/
theorem CallOutcome.freed_kept (h : CallOutcome c a call r c') (hm : c.mm.Single a) (hf : Freed c.mm rgid)
    (hv : ValidRg rgid) (hcall : ¬ call.AllocatesInto rgid) : Freed c'.mm rgid := by
  cases h.regionCase hm with
  | same _ hsym =>
    unfold Freed
    rwa [hsym]
  | placed hk _ _ hsym => exact hf.update hv hk hsym fun heq => absurd heq hcall
  | freed hk _ _ _ hsym => exact hf.update hv hk hsym fun _ => freedRegion_start _

theorem FreeOutcome.mark (h : FreeOutcome c a rgid 0 c') : Freed c'.mm rgid ∧ ValidRg rgid := by
  cases h with
  | freed hv =>
    refine ⟨?_, hv⟩
    unfold Freed
    rw [Caller.place_symrgtbl, Function.update_self, freedRegion_start]

variable {ram swp pid region : Nat} {h₁ h₂ : History} {e : Entry MemSys (Nat × MemCall) MemResult} {s : MemSys}

/-- The mark in every state reached after a `libfree` and before the region is allocated again. -/
theorem freed_run (hram : ram < 2 ^ 31) (hswp : swp < 2 ^ 31)
    (hrun : Run sysCall (MemSys.boot ram swp) (h₂ ++ e :: h₁) s) (hfree : e.act = (pid, .free region))
    (hret : e.res.ret = 0) (hkeep : ∀ e' ∈ h₂, e'.act.1 = pid → ¬ e'.act.2.AllocatesInto (toInt region)) :
    Freed (s.mm pid) (toInt region) ∧ ValidRg (toInt region) := by
  induction h₂ generalizing s with
  | nil =>
    cases hrun with
    | next hrun hx =>
      obtain ⟨b, c', hb, hc, rfl⟩ := sysCall_cases (run_ok hram hswp hrun) hx
      cases hfree
      rw [MemSys.after_mm_self]
      cases hc with
      | free hout =>
        cases hret
        exact hout.mark
  | cons e' h₂ ih =>
    rw [List.forall_mem_cons] at hkeep
    cases hrun with
    | next hrun hx =>
      obtain ⟨hf, hv⟩ := ih hrun hkeep.2
      obtain ⟨b, c', hb, hc, rfl⟩ := sysCall_cases (run_ok hram hswp hrun) hx
      refine ⟨?_, hv⟩
      rename_i act _
      by_cases hpid : pid = act.1
      · subst hpid
        rw [MemSys.after_mm_self]
        exact hc.freed_kept hb hf hv (hkeep.1 rfl)
      · rwa [MemSys.after_mm_of_ne _ hpid]

theorem Freed.reaches (h : Freed c.mm rgid) (offset : Int) : ReachesAddr c rgid offset (offset - 1) := by
  refine paging_congr ?_
  have hemod := regionAddr_emod (c.mm.symrgtbl rgid.toNat) offset
  rw [h] at hemod
  unfold toULong at hemod
  unfold accessAddr
  omega

/-- A freed region stays accessible: until it is allocated again no `libread` or `libwrite` of it is refused, and the
one at `offset` is the access to address `offset - 1` of the process. -/
theorem freed_accessible (hram : ram < 2 ^ 31) (hswp : swp < 2 ^ 31)
    (hrun : Run sysCall (MemSys.boot ram swp) (h₂ ++ e :: h₁) s) (hfree : e.act = (pid, .free region))
    (hret : e.res.ret = 0) (hkeep : ∀ e' ∈ h₂, e'.act.1 = pid → ¬ e'.act.2.AllocatesInto (toInt region))
    (offset : Nat) :
    (¬ ReadRefused (s.caller pid) region offset ∧ ∀ data, ¬ WriteRefused (s.caller pid) data region offset) ∧
      ReachesAddr (s.caller pid) (toInt region) (toInt offset) (toInt offset - 1) := by
  obtain ⟨hf, hv⟩ := freed_run hram hswp hrun hfree hret hkeep
  have hs := run_ok hram hswp hrun
  obtain ⟨a, ha⟩ := hs.single pid
  exact ⟨not_refused_of_valid (c := s.caller pid) ha hs.devOk hv offset, Freed.reaches (c := s.caller pid) hf _⟩

/-- A region freed, and another allocated and written. -/
theorem freed_accessible_run : ∃ h₁ h₂ e s, Run sysCall (MemSys.boot 512 512) (h₂ ++ e :: h₁) s ∧
    (h₂ ++ e :: h₁).map Entry.act = [(0, .write 7 1 4), (0, .alloc 20 1), (0, .free 0), (0, .alloc 50 0)] ∧
    (¬ ReadRefused (s.caller 0) 0 5 ∧ ∀ data, ¬ WriteRefused (s.caller 0) data 0 5) ∧
      ReachesAddr (s.caller 0) (toInt 0) (toInt 5) (toInt 5 - 1) := by
  obtain ⟨h, s, hrun, hact, hp⟩ := exists_run_of_replay sysCall (MemSys.boot 512 512)
    [(0, .write 7 1 4), (0, .alloc 20 1), (0, .free 0), (0, .alloc 50 0)]
    (fun h _ => decide ((h.drop 2).head?.map (·.res.ret) = some 0)) (by decide +kernel)
  have hret := of_decide_eq_true hp
  obtain ⟨e₁, e₂, e, h₁, rfl⟩ : ∃ e₁ e₂ e h₁, h = [e₁, e₂] ++ e :: h₁ := by
    match h, hact with
    | e₁ :: e₂ :: e :: h₁, _ => exact ⟨e₁, e₂, e, h₁, rfl⟩
  have hacts := hact
  simp only [List.cons_append, List.nil_append, List.map_cons, List.cons.injEq] at hacts
  refine ⟨h₁, [e₁, e₂], e, s, hrun, hact, freed_accessible (by decide) (by decide) hrun hacts.2.2.1
    (Option.some.inj hret) ?_ 5⟩
  rw [List.forall_mem_cons, List.forall_mem_singleton, hacts.1, hacts.2.1]
  exact ⟨fun _ => id, fun _ h => absurd h (by decide)⟩

/-- A byte of region 1 is read through region 0, which was freed. -/
theorem freed_region_read : (∃ h s, Run sysCall (MemSys.boot 512 512) h s ∧
      h.map Entry.act = [(0, .read 0 5), (0, .write 7 1 4), (0, .alloc 20 1), (0, .free 0), (0, .alloc 50 0)] ∧
      h.head?.map Entry.res = some ⟨0, some 7⟩) ∧
    ¬ ∀ ram swp : Nat, ram < 2 ^ 31 → swp < 2 ^ 31 → ∀ h₁ h₂ e s, Run sysCall (MemSys.boot ram swp) (h₂ ++ e :: h₁) s →
      ∀ pid region, e.act = (pid, .free region) → e.res.ret = 0 →
      (∀ e' ∈ h₂, e'.act.1 = pid → ¬ e'.act.2.AllocatesInto (toInt region)) →
      ∀ offset, ReadRefused (s.caller pid) region offset ∧ ∀ data, WriteRefused (s.caller pid) data region offset := by
  constructor
  · obtain ⟨h, s, hrun, hact, hp⟩ := exists_run_of_replay sysCall (MemSys.boot 512 512)
      [(0, .read 0 5), (0, .write 7 1 4), (0, .alloc 20 1), (0, .free 0), (0, .alloc 50 0)]
      (fun h _ => decide (h.head?.map Entry.res = some ⟨0, some 7⟩)) (by decide +kernel)
    exact ⟨h, s, hrun, hact, of_decide_eq_true hp⟩
  · intro hall
    obtain ⟨h, s, hrun, hact, hp⟩ := exists_run_of_replay sysCall (MemSys.boot 512 512) [(0, .free 0), (0, .alloc 50 0)]
      (fun h _ => decide (h.head?.map (·.res.ret) = some 0)) (by decide +kernel)
    have hret := of_decide_eq_true hp
    obtain ⟨e, h₁, rfl⟩ := List.exists_cons_of_ne_nil (show h ≠ [] by rintro rfl; cases hact)
    have hfree := (List.cons.inj hact).1
    have hs := run_ok (by decide) (by decide) hrun
    obtain ⟨a, ha⟩ := hs.single 0
    exact (not_refused_of_valid (c := s.caller 0) ha hs.devOk (by decide) 5).1
      (hall 512 512 (by decide) (by decide) h₁ [] e s hrun 0 0 hfree (Option.some.inj hret) (fun _ h => nomatch h) 5).1

end SimpleOs.Mm
