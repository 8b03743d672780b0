import SimpleOs.Syscall.KillallExact

/-!
# The name that `killall` reads

* `HoldsName` : a name in a region, with its terminator inside the region;
* `EndsWithError`, `NameBounded` : the loop stays in `temp_name`, the path fits `proc_name`, and a call without such
  a name ends with an error;
* `NameFits` : there is such a name, and it fits both arrays;
* `nameBounded_iff` : the name is extracted safely exactly then;
* `name_unterminated` : a region without terminator.
-/

namespace SimpleOs.Syscall
open SimpleOs.Mm SimpleOs.Sched CInt

variable {P : Type}

/-- The bytes of region `memrg`. -/
def regionSize (c : Caller) (memrg : Nat) : Nat :=
  (c.mm.symrgtbl (toInt memrg).toNat).rgEnd - (c.mm.symrgtbl (toInt memrg).toNat).rgStart

/-- The region holds `name` and, inside it, the terminator. -/
def HoldsName (memrg : Nat) (name : List BYTE) (c c' : Caller) : Prop :=
  NameStored memrg 0 name c c' ∧ name.length < regionSize c memrg

section Property
variable [DecidableEq P]

/-- The call returns a negative status. -/
def EndsWithError (T : PcbTable P) (s : KillSys P) (caller : P) (memrg : Nat) : Prop :=
  ∃ killedCount s', sysKillall T s caller memrg = .ok (killedCount, s') ∧ (killedCount : Int) < 0

/-- The name is extracted safely: the loop ends within `temp_name` with a name whose path fits `proc_name`, or the
call ends with an error; and it does so when the region holds no name. -/
structure NameBounded (T : PcbTable P) (s : KillSys P) (caller : P) (memrg : Nat) : Prop where
  ends : (∃ name c', nameLoop memrg NAME_SIZE 0 (s.caller caller) = .ok (name, c') ∧
    ∃ procName, fullName name = .ok procName) ∨ EndsWithError T s caller memrg
  refused : (¬ ∃ name c', HoldsName memrg name (s.caller caller) c') → EndsWithError T s caller memrg

end Property

/-- The region holds a name that leaves room for its zero in `temp_name`, and after `"input/proc/"` in `proc_name`. -/
def NameFits (s : KillSys P) (caller : P) (memrg : Nat) : Prop :=
  ∃ name c', HoldsName memrg name (s.caller caller) c' ∧ name.length < NAME_SIZE ∧
    procDir.length + (cString name).length < NAME_SIZE

variable {T : PcbTable P} {s : KillSys P} {caller : P} {memrg : Nat} {name : List BYTE} {c c' : Caller}

theorem fullName_ok_iff : (∃ procName, fullName name = .ok procName) ↔
    procDir.length + (cString name).length < NAME_SIZE := by
  unfold fullName
  constructor
  · rintro ⟨procName, h⟩
    split at h
    · next hlt => exact hlt
    · cases h
  · intro hlt
    exact ⟨_, if_pos hlt⟩

theorem nameLoop_ok_iff (hn : NameStored memrg 0 name c c') :
    (∃ name' c₁, nameLoop memrg NAME_SIZE 0 c = .ok (name', c₁) ∧ ∃ procName, fullName name' = .ok procName) ↔
      name.length < NAME_SIZE ∧ procDir.length + (cString name).length < NAME_SIZE := by
  rw [nameLoop_stored hn]
  constructor
  · rintro ⟨name', c₁, hloop, hfull⟩
    split at hloop
    · next hlt =>
      cases hloop
      exact ⟨hlt, fullName_ok_iff.mp hfull⟩
    · cases hloop
  · rintro ⟨hlt, hfits⟩
    exact ⟨name, c', if_pos hlt, fullName_ok_iff.mpr hfits⟩

variable [DecidableEq P]

theorem not_endsWithError : ¬ EndsWithError T s caller memrg := by
  rintro ⟨killedCount, s', -, hneg⟩
  omega

/-- The name is extracted safely if and only if the region holds a name, within its bounds and terminated there,
that fits `temp_name` and `proc_name`. -/
theorem nameBounded_iff : NameBounded T s caller memrg ↔ NameFits s caller memrg := by
  constructor
  · intro h
    obtain ⟨name, c', hname⟩ : ∃ name c', HoldsName memrg name (s.caller caller) c' := by
      by_contra hnone
      exact not_endsWithError (h.refused hnone)
    have hloop := h.ends.resolve_right not_endsWithError
    exact ⟨name, c', hname, (nameLoop_ok_iff hname.1).mp hloop⟩
  · rintro ⟨name, c', hname, hfits⟩
    exact ⟨.inl ((nameLoop_ok_iff hname.1).mpr hfits), fun hnone => absurd ⟨name, c', hname⟩ hnone⟩

/-! ## A region without terminator -/

theorem nameLoop_overflow {b : BYTE} (hb : b ≠ -1) (room i : Nat)
    (hread : ∀ j < i + room, ∃ ret, libread c memrg j = .ok (ret, some (b.signExtend 32), c)) :
    nameLoop memrg room i c = .error (.stack (i + room)) := by
  induction room generalizing i with
  | zero => rfl
  | succ room ih =>
    obtain ⟨ret, hret⟩ := hread i (by omega)
    rw [nameLoop, hret, Exec.ok_bind]
    dsimp only
    rw [if_neg (signExtend_ne hb), ih (i + 1) fun j hj => hread j (by omega), Exec.error_bind, Nat.add_right_comm,
      Nat.add_assoc]

/-- Region 0 of every process holds the 256 bytes `f`. -/
def holding (f : Nat → BYTE) : KillSys Nat :=
  { twoListed with dev := fun
      | .mram => ⟨f, 256, true, 0, []⟩
      | .activeMswp => ⟨fun _ => 0, 256, true, 0, [0]⟩ }

theorem holding_devOk (f : Nat → BYTE) : DevOk (holding f).dev where
  random := fun d => by cases d <;> rfl
  maxsz := fun d => by
    cases d with
    | mram => exact twoListed_devOk.maxsz .mram
    | activeMswp => exact twoListed_devOk.maxsz .activeMswp
  free := fun d => by
    cases d with
    | mram => exact twoListed_devOk.free .mram
    | activeMswp => exact twoListed_devOk.free .activeMswp

theorem holding_access (f : Nat → BYTE) {j : Nat} (hj : j < 256) :
    accessPgn ((holding f).caller 0).mm (toInt (0 : Nat)) (toInt j) = 0 ∧
      accessPhy ((holding f).caller 0).mm (toInt (0 : Nat)) (toInt j) 0 = j := by
  have haddr : accessAddr ((holding f).caller 0).mm (toInt (0 : Nat)) (toInt j) % 4194304 = j % 4194304 := by
    rw [accessAddr, regionAddr_emod]
    show ((0 : Nat) + toInt j) % 4194304 = _
    unfold toInt
    omega
  obtain ⟨hpgn, hoff⟩ := paging_congr haddr
  have hpgn' := pagingPgn_eq j
  have hoff' := pagingOffst_eq j
  unfold accessPgn accessPhy
  omega

theorem holding_read (f : Nat → BYTE) {j : Nat} (hj : j < 256) :
    libread ((holding f).caller 0) 0 j = .ok (0, some ((f j).signExtend 32), (holding f).caller 0) := by
  have hm : ((holding f).caller 0).mm.Single ⟨0, 0, 256, 256, []⟩ := ⟨rfl, rfl⟩
  have hhit : PageOutcome ((holding f).caller 0) 0 (some (pagingFpn (namingMm.pgd 0))) ((holding f).caller 0) :=
    .hit (show pagingPagePresent (namingMm.pgd 0) = true by decide)
  have hfpn : pagingFpn (namingMm.pgd 0) = 0 := by decide
  rw [hfpn] at hhit
  obtain ⟨hpgn, hphy⟩ := holding_access f hj
  have hsize : accessPhy ((holding f).caller 0).mm (toInt (0 : Nat)) (toInt j) 0 <
      (((holding f).caller 0).dev .mram).maxsz := by
    rw [hphy]
    exact hj
  have hbyte := ReadOutcome.byte (by decide) (by rw [hpgn]; exact hhit) hsize
  rw [hphy] at hbyte
  exact (libread_ok_iff hm (holding_devOk f)).mpr ⟨_, hbyte, rfl⟩

/-- Region 0 of every process holds 256 letters and no terminator. -/
def unterminated : KillSys Nat := holding fun _ => letter

theorem unterminated_overflow : nameLoop 0 NAME_SIZE 0 (unterminated.caller 0) = .error (.stack 100) := by
  have hloop := nameLoop_overflow (b := letter) (by decide) NAME_SIZE 0 fun j hj =>
    ⟨0, holding_read (fun _ => letter) (Nat.lt_trans (by rwa [Nat.zero_add] at hj) (by decide : NAME_SIZE < 256))⟩
  unfold unterminated
  rw [hloop]
  rfl

/-- The byte 100 of a name without terminator is written past `temp_name`, and the name is not extracted safely. -/
theorem name_unterminated : nameLoop 0 NAME_SIZE 0 (unterminated.caller 0) = .error (.stack 100) ∧
    sysKillall (twoPrograms fun _ => 0) unterminated 0 0 = .error (.stack 100) ∧
    ¬ NameBounded (twoPrograms fun _ => 0) unterminated 0 0 := by
  refine ⟨unterminated_overflow, ?_, fun h => ?_⟩
  · rw [sysKillall, unterminated_overflow, Exec.error_bind]
  · rcases h.ends with ⟨name, c', hloop, -⟩ | herror
    · cases unterminated_overflow.symm.trans hloop
    · exact not_endsWithError herror

end SimpleOs.Syscall
