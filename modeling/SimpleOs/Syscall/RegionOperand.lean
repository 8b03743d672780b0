import SimpleOs.Mm.SymbolTable
import SimpleOs.Syscall.KillallExact

/-!
# Region operands

* `killLoop_inTable`, `sysKillall_inTable` : `killall` stays in the symbol table;
* `operand_checked_iff` : the calls of an instruction and `killall` stay in the table, and the calls refuse what is not
  in it, if and only if the operand is not 30.
-/

namespace SimpleOs.Syscall
open SimpleOs.Mm SimpleOs.Sched CInt

variable {P : Type} [DecidableEq P] {T : PcbTable P} {s : KillSys P} {proc : P} {memrg : Nat} {a : VmAreaStruct}

theorem nameLoop_inTable (h : toInt memrg ≠ PAGING_MAX_SYMTBL_SZ) (room i : Nat) (c : Caller) :
    InTable (nameLoop memrg room i c) := by
  induction room generalizing i c with
  | zero => simp [nameLoop]
  | succ room ih =>
    refine inTable_bind.mpr ⟨libread_inTable c h i, ?_⟩
    rintro ⟨ret, data, c'⟩ -
    cases data with
    | none => simp
    | some data => exact inTable_ite (fun _ => inTable_ok _) fun _ => inTable_bind.mpr ⟨ih _ _, fun _ _ => inTable_ok _⟩

theorem fullName_inTable (name : List BYTE) : InTable (fullName name) :=
  inTable_ite (fun _ => inTable_ok _) fun _ => by simp

theorem release_inTable (h : toInt memrg ≠ PAGING_MAX_SYMTBL_SZ) (target : P) (s : KillSys P) :
    InTable (release memrg target s) :=
  inTable_bind.mpr ⟨libfree_inTable _ h, fun _ _ => inTable_ok _⟩

theorem killLoop_inTable {caller : P} {procName : List BYTE} {terminate : P → KillSys P → Exec (KillSys P)}
    (ht : ∀ target s, InTable (terminate target s)) (n : Nat) (q : QueueT P) (s : KillSys P) (killedCount : Nat) :
    InTable (killLoop T caller procName terminate n q s killedCount) := by
  induction n generalizing q s killedCount with
  | zero => exact inTable_ok _
  | succ n ih =>
    refine inTable_ite (fun _ => by simp) fun _ => ?_
    rcases dequeue T.priority q with ⟨_ | target, q⟩
    · exact ih q s killedCount
    · refine inTable_ite (fun _ => ih _ s killedCount) fun _ => ?_
      refine inTable_ite (fun _ => ?_) fun _ => ih _ s killedCount
      exact inTable_bind.mpr ⟨ht target s, fun s' _ => ih q s' (killedCount + 1)⟩

/-- `killall` stays in the table when its operand is not the one past its end. -/
theorem sysKillall_inTable (h : toInt memrg ≠ PAGING_MAX_SYMTBL_SZ) (s : KillSys P) (proc : P) :
    InTable (sysKillall T s proc memrg) := by
  refine inTable_bind.mpr ⟨nameLoop_inTable h _ _ _, fun _ _ => ?_⟩
  refine inTable_bind.mpr ⟨fullName_inTable _, fun _ _ => ?_⟩
  refine inTable_bind.mpr ⟨killLoop_inTable (fun _ _ => inTable_ok _) _ _ _ _, fun _ _ => ?_⟩
  refine inTable_bind.mpr ⟨killLoop_inTable (release_inTable h) _ _ _ _, fun _ _ => ?_⟩
  exact inTable_bind.mpr ⟨libfree_inTable _ h, fun _ _ => inTable_ok _⟩

/-- What is done with a region operand: every call of an instruction is checked, and `killall` stays in the table. -/
structure OperandChecked (T : PcbTable P) (s : KillSys P) (proc : P) (k : Nat) : Prop where
  instruction : ∀ call : MemCall, call.region = k → RegionChecked (s.caller proc) call
  killall : InTable (sysKillall T s proc k)

/-- Symbol table accesses stay in bounds if and only if the operand is not 30. -/
theorem operand_checked_iff (hm : (s.mm proc).Single a) (hd : DevOk s.dev) {k : Nat} (hk : k < 2 ^ 32) :
    OperandChecked T s proc k ↔ k ≠ PAGING_MAX_SYMTBL_SZ := by
  constructor
  · intro h
    have hregion : (MemCall.free k).region < 2 ^ 32 := hk
    exact (regionChecked_iff (c := s.caller proc) hm hd hregion).mp (h.instruction (.free k) rfl)
  · intro hne
    refine ⟨?_, sysKillall_inTable (mt (toInt_region hk).mp hne) s proc⟩
    rintro call rfl
    exact (regionChecked_iff (c := s.caller proc) hm hd hk).mpr hne

/-- Operand 31 is refused. -/
theorem operand_checked_iff_next : OperandChecked (twoPrograms fun _ => 0) twoListed 0 31 ↔ 31 ≠ PAGING_MAX_SYMTBL_SZ :=
  operand_checked_iff (a := ⟨0, 0, 256, 256, []⟩) ⟨rfl, rfl⟩ twoListed_devOk (by decide)

/-- Region 30 passes the check and has no entry. -/
theorem operand_past_end : memCall (twoListed.caller 0) (.free 30) = .error (.symrgtbl 30) ∧
    ¬ ∀ (T : PcbTable Nat) (s : KillSys Nat) (proc : Nat) a, (s.mm proc).Single a → DevOk s.dev →
      ∀ k < 2 ^ 32, OperandChecked T s proc k := by
  have hfree : memCall (twoListed.caller 0) (.free 30) = .error (.symrgtbl 30) := rfl
  refine ⟨hfree, fun hall => ?_⟩
  exact ((hall (twoPrograms fun _ => 0) twoListed 0 ⟨0, 0, 256, 256, []⟩ ⟨rfl, rfl⟩ twoListed_devOk 30
    (by decide)).instruction (.free 30) rfl).inTable 30 hfree

end SimpleOs.Syscall
