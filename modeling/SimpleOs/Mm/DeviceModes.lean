import SimpleOs.Lib.Run
import SimpleOs.Mm.Memphy

/-!
# Random-access and sequential devices

* `DevCall`, `devCall` : a read or a write of one byte; `Answers` : what a device answers to a sequence of calls after
  `init_memphy`;
* `lastByte`, `arrayResults` : what an array of bytes answers;
* `devCall_random`, `devCall_sequential` : one call on a device of each mode;
* `byteArray_iff` : which devices are arrays of bytes, and when the two modes agree.
-/

namespace SimpleOs.Mm

inductive DevCall
  | read (addr : Nat)
  | write (addr : Nat) (data : BYTE)
  deriving DecidableEq

def DevCall.addr : DevCall → Nat
  | .read addr => addr
  | .write addr _ => addr

/-- The status of a call and, of a `MEMPHY_read`, the value it set. -/
structure DevResult where
  ret : Int
  value : Option BYTE
  deriving DecidableEq

def devCall (mp : MemphyStruct) : DevCall → Exec (DevResult × MemphyStruct)
  | .read addr => do
    let (ret, value, mp) ← memphyRead mp addr
    return (⟨ret, value⟩, mp)
  | .write addr data => do
    let (ret, mp) ← memphyWrite mp addr data
    return (⟨ret, none⟩, mp)

/-- The calls, newest first, are all possible after `init_memphy`, and have these results. -/
def Answers (raw : RawMemphy) (maxSize : Nat) (randomflg : Bool) (calls : List DevCall) (results : List DevResult) :
    Prop :=
  ∃ h mp, Run devCall (initMemphy raw maxSize randomflg) h mp ∧ h.map Entry.act = calls ∧ h.map Entry.res = results

/-! ## An array of bytes -/

/-- The byte last written at an address, 0 if there is none. -/
def lastByte : List DevCall → Nat → BYTE
  | [] => fun _ => 0
  | .read _ :: calls => lastByte calls
  | .write addr data :: calls => Function.update (lastByte calls) addr data

/-- What an array of bytes answers: each call succeeds, and a read delivers the byte last written. -/
def arrayResults : List DevCall → List DevResult
  | [] => []
  | .read addr :: calls => ⟨0, some (lastByte calls addr)⟩ :: arrayResults calls
  | .write _ _ :: calls => ⟨0, none⟩ :: arrayResults calls

/-- Some results are those of the calls both on a random-access and on a sequential device. -/
def ModesAgree (raw raw' : RawMemphy) (maxSize : Nat) (calls : List DevCall) : Prop :=
  ∃ results, Answers raw maxSize true calls results ∧ Answers raw' maxSize false calls results

/-! ## The two modes -/

variable {raw raw' : RawMemphy} {maxSize : Nat} {randomflg : Bool} {calls : List DevCall} {results : List DevResult}
  {mp mp' : MemphyStruct} {call : DevCall} {r : DevResult} {h : List (Entry MemphyStruct DevCall DevResult)}

structure ArrayState (maxSize : Nat) (calls : List DevCall) (mp : MemphyStruct) : Prop where
  random : mp.rdmflg = true
  maxsz : mp.maxsz = maxSize
  storage : mp.storage = lastByte calls

theorem devCall_random (hmp : ArrayState maxSize calls mp) (hin : call.addr < maxSize) :
    ∃ r mp', devCall mp call = .ok (r, mp') ∧ arrayResults (call :: calls) = r :: arrayResults calls ∧
      ArrayState maxSize (call :: calls) mp' := by
  obtain ⟨hr, rfl, hstorage⟩ := hmp
  cases call with
  | read addr =>
    refine ⟨_, mp, ?_, rfl, hr, rfl, hstorage⟩
    rw [devCall, memphyRead_random hr (Int.natCast_nonneg addr) (Int.ofNat_lt.mpr hin), Exec.ok_bind, ← hstorage]
    rfl
  | write addr data =>
    refine ⟨⟨0, none⟩, { mp with storage := Function.update mp.storage addr data }, ?_, rfl, hr, rfl, ?_⟩
    · rw [devCall, memphyWrite_random hr (Int.natCast_nonneg addr) (Int.ofNat_lt.mpr hin), Exec.ok_bind]
      rfl
    · show Function.update mp.storage addr data = _
      rw [hstorage, lastByte]

/-- A call on a sequential device: the functions for sequential devices refuse it. -/
theorem devCall_sequential (hr : mp.rdmflg = false) (call : DevCall) : devCall mp call = .ok (⟨-1, none⟩, mp) := by
  cases call with
  | read addr => simp [devCall, memphyRead, memphySeqRead, hr]
  | write addr data => simp [devCall, memphyWrite, memphySeqWrite, hr]

/-- A random-access device is an array of bytes. -/
theorem answers_random (hin : ∀ call ∈ calls, call.addr < maxSize) :
    Answers raw maxSize true calls (arrayResults calls) := by
  have hrun : ∃ h mp, Run devCall (initMemphy raw maxSize true) h mp ∧ h.map Entry.act = calls ∧
      h.map Entry.res = arrayResults calls ∧ ArrayState maxSize calls mp := by
    induction calls with
    | nil => exact ⟨[], _, .start, rfl, rfl, rfl, rfl, rfl⟩
    | cons call calls ih =>
      rw [List.forall_mem_cons] at hin
      obtain ⟨h, mp, hrun, hact, hres, hmp⟩ := ih hin.2
      obtain ⟨r, mp', hcall, hr, hmp'⟩ := devCall_random hmp hin.1
      exact ⟨⟨mp, call, r⟩ :: h, mp', .next hrun hcall, by rw [List.map_cons, hact],
        by rw [List.map_cons, hres, hr], hmp'⟩
  obtain ⟨h, mp, hrun, hact, hres, -⟩ := hrun
  exact ⟨h, mp, hrun, hact, hres⟩

theorem answers_sequential (h : Answers raw maxSize false calls results) : ∀ r ∈ results, r.ret = -1 := by
  obtain ⟨h, mp, hrun, -, rfl⟩ := h
  have hrefused : mp.rdmflg = false ∧ ∀ e ∈ h, e.res.ret = -1 := by
    refine hrun.invariant (I := fun h mp => mp.rdmflg = false ∧ ∀ e ∈ h, e.res.ret = -1)
      ⟨rfl, fun e he => (List.not_mem_nil he).elim⟩ ?_
    rintro h mp call r mp' - ⟨hr, hall⟩ hx
    cases (devCall_sequential hr call).symm.trans hx
    exact ⟨hr, List.forall_mem_cons.mpr ⟨rfl, hall⟩⟩
  intro r hr
  obtain ⟨e, he, rfl⟩ := List.mem_map.mp hr
  exact hrefused.2 e he

theorem arrayResults_ret (calls : List DevCall) : ∀ r ∈ arrayResults calls, r.ret = 0 := by
  induction calls with
  | nil => exact fun r hr => (List.not_mem_nil hr).elim
  | cons call calls ih => cases call <;> exact List.forall_mem_cons.mpr ⟨rfl, ih⟩

/-- No results but the empty ones are those of an array and of a sequential device. -/
theorem eq_nil_of_sequential (h : Answers raw maxSize false calls (arrayResults calls)) : calls = [] := by
  cases calls with
  | nil => rfl
  | cons call calls =>
    obtain ⟨r, hr⟩ : ∃ r, r ∈ arrayResults (call :: calls) := by
      cases call <;> exact ⟨_, List.mem_cons_self⟩
    exact absurd ((answers_sequential h r hr).symm.trans (arrayResults_ret _ r hr)) (by decide)

theorem Answers.unique {results' : List DevResult} (h : Answers raw maxSize randomflg calls results)
    (h' : Answers raw maxSize randomflg calls results') : results = results' := by
  obtain ⟨h, mp, hrun, rfl, rfl⟩ := h
  obtain ⟨h', mp', hrun', hact, rfl⟩ := h'
  rw [(hrun.unique hrun' hact.symm).1]

/-- The byte array: a device answers in-range calls as an array of bytes if and only if it is a random-access device or
there are no calls, and the two modes agree only when there are no calls. -/
theorem byteArray_iff (hin : ∀ call ∈ calls, call.addr < maxSize) :
    (Answers raw maxSize randomflg calls (arrayResults calls) ↔ randomflg = true ∨ calls = []) ∧
      (ModesAgree raw raw' maxSize calls ↔ calls = []) := by
  have hempty : ∀ raw randomflg, Answers raw maxSize randomflg [] [] := fun _ _ => ⟨[], _, .start, rfl, rfl⟩
  refine ⟨⟨fun h => ?_, ?_⟩, ?_, ?_⟩
  · cases randomflg with
    | true => exact .inl rfl
    | false => exact .inr (eq_nil_of_sequential h)
  · rintro (rfl | rfl)
    · exact answers_random hin
    · exact hempty ..
  · rintro ⟨results, hrandom, hseq⟩
    cases hrandom.unique (answers_random hin)
    exact eq_nil_of_sequential hseq
  · rintro rfl
    exact ⟨[], hempty .., hempty ..⟩

/-- A write and a read of a random-access device. -/
theorem byteArray_iff_two :
    (Answers .zeroed 16 true [.read 3, .write 3 5] (arrayResults [.read 3, .write 3 5]) ↔
      true = true ∨ [DevCall.read 3, .write 3 5] = []) ∧
      (ModesAgree .zeroed .zeroed 16 [.read 3, .write 3 5] ↔ [DevCall.read 3, .write 3 5] = []) :=
  byteArray_iff (by decide)

/-- A byte written to a sequential device. -/
theorem sequential_refused : ¬ ∀ (raw : RawMemphy) (maxSize : Nat) (randomflg : Bool) (calls : List DevCall),
    (∀ call ∈ calls, call.addr < maxSize) → Answers raw maxSize randomflg calls (arrayResults calls) := by
  intro hall
  have hnil := eq_nil_of_sequential (hall .zeroed 16 false [.write 0 5] (by decide))
  cases hnil

end SimpleOs.Mm
