import SimpleOs.Cpu.Program
import SimpleOs.Syscall.NameExtraction

/-!
# Which name `killall` matches

* `ConfigName`, `configPath` : a name in a configuration, and the path `read_config` makes of it;
* `KillMatches` : the name in a region is the one of a process;
* `loadPath_config` : the path of a loaded process keeps five characters of the name;
* `killall_match_iff` : names match exactly when that loses nothing that tells them apart;
* `long_name_missed` : a name of six characters that does not match itself.
-/

namespace SimpleOs.Syscall
open SimpleOs.Mm SimpleOs.Sched SimpleOs.Cpu

variable {P : Type}

structure ConfigName (name : List BYTE) : Prop where
  noZero : 0 ∉ name
  length_le : name.length ≤ 80

def configPath (name : List BYTE) : List BYTE := procDir ++ name

/-- A process of this path is one that the request in region `memrg` names: `strcmp(target->path, proc_name) == 0`. -/
def KillMatches (s : KillSys P) (caller : P) (memrg : Nat) (path : List BYTE) : Prop :=
  ∃ tempName c' procName, nameLoop memrg NAME_SIZE 0 (s.caller caller) = .ok (tempName, c') ∧
    fullName tempName = .ok procName ∧ path = procName

variable {s : KillSys P} {caller : P} {memrg : Nat} {name n1 n2 path : List BYTE} {c' : Caller} {proc : Pcb}
  {availPid next : Word} {s' : List Char} {old : OldMem}

theorem ConfigName.cString (h : ConfigName name) : cString name = name := by
  rw [Syscall.cString, List.takeWhile_eq_self_iff]
  intro b hb
  rw [decide_eq_true_eq]
  rintro rfl
  exact h.noZero hb

/-- The path of a process loaded from a configuration has five characters of the name. -/
theorem loadPath_config (name : List BYTE) : loadPath (configPath name) = procDir ++ name.take 5 := by
  have hlen : procDir.length = 11 := by decide
  show (procDir ++ name).take 16 = _
  rw [List.take_append, hlen, List.take_of_length_le (by omega)]

theorem killMatches_iff (hname : ConfigName name) (hn : NameStored memrg 0 name (s.caller caller) c') :
    KillMatches s caller memrg path ↔ path = procDir ++ name := by
  have hlen := hname.length_le
  have hfits : procDir.length + (Syscall.cString name).length < NAME_SIZE := by
    rw [hname.cString]
    have hdir : procDir.length = 11 := by decide
    unfold NAME_SIZE
    omega
  have hloop : nameLoop memrg NAME_SIZE 0 (s.caller caller) = .ok (name, c') := by
    rw [nameLoop_stored hn, if_pos (by unfold NAME_SIZE; omega)]
  have hfull : fullName name = .ok (procDir ++ name) := by
    rw [fullName, if_pos hfits, hname.cString]
  constructor
  · rintro ⟨tempName, c₁, procName, hloop', hfull', rfl⟩
    cases hloop.symm.trans hloop'
    cases hfull.symm.trans hfull'
    rfl
  · rintro rfl
    exact ⟨_, _, _, hloop, hfull, rfl⟩

/-- `killall` matches names exactly if and only if the name of the process has at most five characters, or the
name asked for is neither that name nor its first five characters. -/
theorem killall_match_iff (h1 : ConfigName n1) (hn : NameStored memrg 0 n1 (s.caller caller) c')
    (hload : load availPid (configPath n2) (some s') old = .ok (proc, next)) :
    (KillMatches s caller memrg proc.path ↔ n1 = n2) ↔ n2.length ≤ 5 ∨ n1 ≠ n2 ∧ n1 ≠ n2.take 5 := by
  obtain ⟨-, -, -, rfl⟩ := load_ok_iff.mp hload
  dsimp only
  rw [killMatches_iff h1 hn, loadPath_config, List.append_cancel_left_eq]
  rcases Nat.lt_or_ge 5 n2.length with hlong | hshort
  · have hne : n2.take 5 ≠ n2 := fun heq => by
      have hlen := congrArg List.length heq
      rw [List.length_take] at hlen
      omega
    constructor
    · intro h
      refine .inr ⟨fun heq => hne ((h.mpr heq).trans heq), fun heq => ?_⟩
      exact hne (heq.symm.trans (h.mp heq.symm))
    · rintro (hle | ⟨h2, htake⟩)
      · omega
      · exact ⟨fun heq => absurd heq.symm htake, fun heq => absurd heq h2⟩
  · rw [List.take_of_length_le hshort]
    exact ⟨fun _ => .inl hshort, fun _ => ⟨Eq.symm, Eq.symm⟩⟩

/-! ## Names in a region -/

/-- The bytes of a region with the name and a terminator behind it. -/
def nameBytes (name : List BYTE) (i : Nat) : BYTE := name[i]?.getD (-1)

theorem nameStored_holding {f : Nat → BYTE} (i : Nat) (name : List BYTE) (hlen : i + name.length < 256)
    (hf : ∀ k, f (i + k) = nameBytes name k) (hname : -1 ∉ name) :
    NameStored 0 i name ((holding f).caller 0) ((holding f).caller 0) := by
  induction name generalizing i with
  | nil =>
    have hread := holding_read f (j := i) (by omega)
    have hend : f i = -1 := hf 0
    rw [hend] at hread
    exact ⟨0, hread⟩
  | cons b name ih =>
    rw [List.length_cons] at hlen
    rw [List.mem_cons, not_or] at hname
    have hread := holding_read f (j := i) (by omega)
    have hb : f i = b := hf 0
    rw [hb] at hread
    refine ⟨0, _, hread, Ne.symm hname.1, ih (i + 1) (by omega) (fun k => ?_) hname.2⟩
    have hk := hf (k + 1)
    rw [Nat.add_right_comm, Nat.add_assoc, hk]
    rfl

theorem nameStored_nameBytes (name : List BYTE) (hlen : name.length < 256) (hname : -1 ∉ name) :
    NameStored 0 0 name ((holding (nameBytes name)).caller 0) ((holding (nameBytes name)).caller 0) :=
  nameStored_holding 0 name (by omega) (fun k => by rw [Nat.zero_add]) hname

def bytesOf (s : String) : List BYTE := s.toList.map fun c => BitVec.ofNat 8 c.toNat

theorem load_empty (name : List BYTE) :
    ∃ proc, load 1 (configPath name) (some (programText 1 [] true)) anyMem = .ok (proc, 2) :=
  ⟨_, load_ok_iff.mpr ⟨_, scanCode_programText (l := []) 1 anyMem true (by decide), rfl, rfl⟩⟩

/-- A name of three characters matches itself. -/
theorem killall_match_short : ∃ proc next,
    load 1 (configPath (bytesOf "p0s")) (some (programText 1 [] true)) anyMem = .ok (proc, next) ∧
    ((KillMatches (holding (nameBytes (bytesOf "p0s"))) 0 0 proc.path ↔ bytesOf "p0s" = bytesOf "p0s") ↔
      (bytesOf "p0s").length ≤ 5 ∨ bytesOf "p0s" ≠ bytesOf "p0s" ∧ bytesOf "p0s" ≠ (bytesOf "p0s").take 5) := by
  obtain ⟨proc, hload⟩ := load_empty (bytesOf "p0s")
  exact ⟨proc, _, hload, killall_match_iff ⟨by decide, by decide⟩
    (nameStored_nameBytes (bytesOf "p0s") (by decide) (by decide)) hload⟩

/-- A name of six characters does not match the process of that name. -/
theorem long_name_missed : ∃ proc next,
    load 1 (configPath (bytesOf "editor")) (some (programText 1 [] true)) anyMem = .ok (proc, next) ∧
    ConfigName (bytesOf "editor") ∧
    NameStored 0 0 (bytesOf "editor") ((holding (nameBytes (bytesOf "editor"))).caller 0)
      ((holding (nameBytes (bytesOf "editor"))).caller 0) ∧
    ¬ (KillMatches (holding (nameBytes (bytesOf "editor"))) 0 0 proc.path ↔ bytesOf "editor" = bytesOf "editor") := by
  obtain ⟨proc, hload⟩ := load_empty (bytesOf "editor")
  have hname : ConfigName (bytesOf "editor") := ⟨by decide, by decide⟩
  have hstored := nameStored_nameBytes (bytesOf "editor") (by decide) (by decide)
  refine ⟨proc, _, hload, hname, hstored, fun h => ?_⟩
  obtain ⟨l, -, -, rfl⟩ := load_ok_iff.mp hload
  have hpath := (killMatches_iff hname hstored).mp (h.mpr rfl)
  rw [loadPath_config] at hpath
  exact absurd (List.append_cancel_left hpath) (by decide)

end SimpleOs.Syscall
