import SimpleOs.Mm.System
import SimpleOs.Sched.Mlq
import SimpleOs.Sched.Traverse

/-!
# `killall` (`sys_killall.c`)

* `PcbTable` : the fields of processes that the call reads; `KillSys` : what it reads and writes;
* `nameLoop`, `fullName` : the name in the caller's region, and the path it is compared with;
* `killLoop` : the traversal of a queue, with what it does to a process of that path;
* `sysKillall` : `__sys_killall`;
* `NameStored`, `nameLoop_stored` : the name that is read;
* `killLoop_ok`, `killLoop_returns` : the traversal in terms of `traverseQueue`, and when it returns.
-/

namespace SimpleOs.Syscall
open SimpleOs.Mm SimpleOs.Sched CInt

variable {P : Type}

/-- The length of `temp_name`, `proc_name` and the `path` of a process. -/
def NAME_SIZE : Nat := 100

structure PcbTable (P : Type) extends PcbFields P where
  pid : P → Nat
  /-- the string in `path` -/
  path : P → List BYTE
  codeSize : P → Nat

structure KillSys (P : Type) where
  sched : SchedT P
  pc : P → Nat
  mm : P → MmStruct
  dev : Dev → MemphyStruct
  freed : P → Bool

def KillSys.caller (s : KillSys P) (proc : P) : Caller := ⟨s.mm proc, s.dev⟩

/-- `"input/proc/"` -/
def procDir : List BYTE := "input/proc/".toList.map fun c => BitVec.ofNat 8 c.toNat

def cString (l : List BYTE) : List BYTE := l.takeWhile (· ≠ 0)

/-- The loop that reads the name into `temp_name`, from index `i` on, with `room` elements left: the bytes before
the terminator. -/
def nameLoop (memrg : Nat) : Nat → Nat → Caller → Exec (List BYTE × Caller)
  | 0, i, _ => .error (.stack i)
  | room + 1, i, caller => do
    let (_, data, caller) ← libread caller memrg i
    match data with
    | none => .error .uninit
    | some data =>
      if data = -1 then return ([], caller)
      else
        let (name, caller) ← nameLoop memrg room (i + 1) caller
        return (data.setWidth 8 :: name, caller)

/-- `proc_name` after the two `strcat` -/
def fullName (name : List BYTE) : Exec (List BYTE) :=
  if procDir.length + (cString name).length < NAME_SIZE then .ok (procDir ++ cString name)
  else .error (.stack NAME_SIZE)

section Steps
variable [DecidableEq P]

/-- `target->pid == 0 || target == caller` -/
def spared (T : PcbTable P) (caller target : P) : Bool := T.pid target == 0 || target == caller

/-- A process `__sys_killall` terminates when it takes it out of a queue. -/
def isTarget (T : PcbTable P) (caller : P) (procName : List BYTE) (target : P) : Bool :=
  !spared T caller target && T.path target == procName

/-- `n` rounds of the traversal of a queue: the queue, the state and `killed_count` after them. Every round reads
all processes in the queue. -/
def killLoop (T : PcbTable P) (caller : P) (procName : List BYTE) (terminate : P → KillSys P → Exec (KillSys P)) :
    Nat → QueueT P → KillSys P → Nat → Exec (QueueT P × KillSys P × Nat)
  | 0, q, s, killedCount => .ok (q, s, killedCount)
  | n + 1, q, s, killedCount =>
    if q.proc.any s.freed then .error .freed
    else
      match dequeue T.priority q with
      | (none, q) => killLoop T caller procName terminate n q s killedCount
      | (some target, q) =>
        if spared T caller target then
          killLoop T caller procName terminate n (enqueue q target) s killedCount
        else if T.path target = procName then do
          let s ← terminate target s
          killLoop T caller procName terminate n q s (killedCount + 1)
        else killLoop T caller procName terminate n (enqueue q target) s killedCount

/-- `target->pc = target->code->size` -/
def endCode (T : PcbTable P) (target : P) (s : KillSys P) : Exec (KillSys P) :=
  .ok { s with pc := Function.update s.pc target (T.codeSize target) }

/-- `libfree(target, memrg)` and `free(target)` -/
def release (memrg : Nat) (target : P) (s : KillSys P) : Exec (KillSys P) := do
  let (_, c) ← libfree (s.caller target) memrg
  return { s with
    mm := Function.update s.mm target c.mm
    dev := c.dev
    freed := Function.update s.freed target true }

/-- `__sys_killall` : the result and the state. -/
def sysKillall (T : PcbTable P) (s : KillSys P) (caller : P) (memrg : Nat) : Exec (Nat × KillSys P) := do
  let (tempName, c) ← nameLoop memrg NAME_SIZE 0 (s.caller caller)
  let s := { s with mm := Function.update s.mm caller c.mm, dev := c.dev }
  let procName ← fullName tempName
  let (q, s, killedCount) ←
    killLoop T caller procName (endCode T) s.sched.runningList.size s.sched.runningList s 0
  let s := { s with sched := { s.sched with runningList := q } }
  -- `mlq_ready_queue` of a process points to level 0
  let (q, s, killedCount) ←
    killLoop T caller procName (release memrg) (s.sched.mlqReadyQueue 0).size (s.sched.mlqReadyQueue 0) s killedCount
  let s := { s with sched := { s.sched with mlqReadyQueue := Function.update s.sched.mlqReadyQueue 0 q } }
  let (_, c) ← libfree (s.caller caller) memrg
  return (killedCount, { s with mm := Function.update s.mm caller c.mm, dev := c.dev })

end Steps

/-! ## The name -/

/-- In the caller's region, from offset `i` on, stand the bytes `name` and after them the terminator. -/
def NameStored (memrg : Nat) : Nat → List BYTE → Caller → Caller → Prop
  | i, [], c, c' => ∃ ret, libread c memrg i = .ok (ret, some (-1), c')
  | i, b :: name, c, c' =>
    ∃ ret c₁, libread c memrg i = .ok (ret, some (b.signExtend 32), c₁) ∧ b ≠ -1 ∧ NameStored memrg (i + 1) name c₁ c'

theorem signExtend_ne {b : BYTE} (hb : b ≠ -1) : b.signExtend 32 ≠ (-1 : Word) := by
  revert b
  decide

theorem setWidth_signExtend (b : BYTE) : (b.signExtend 32 : Word).setWidth 8 = b := by
  revert b
  decide

/-- The name is read when it leaves room for the terminator, and overflows `temp_name` otherwise. -/
theorem nameLoop_stored {memrg i room : Nat} {name : List BYTE} {c c' : Caller} (hn : NameStored memrg i name c c') :
    nameLoop memrg room i c = if name.length < room then .ok (name, c') else .error (.stack (i + room)) := by
  induction name generalizing i room c with
  | nil =>
    obtain ⟨ret, hread⟩ := hn
    cases room with
    | zero => rfl
    | succ room =>
      rw [nameLoop, hread, Exec.ok_bind]
      rfl
  | cons b name ih =>
    obtain ⟨ret, c₁, hread, hb, hrest⟩ := hn
    cases room with
    | zero => rfl
    | succ room =>
      rw [nameLoop, hread, Exec.ok_bind]
      dsimp only
      rw [if_neg (signExtend_ne hb), ih hrest, setWidth_signExtend, List.length_cons]
      by_cases hlt : name.length < room
      · rw [if_pos hlt, if_pos (Nat.succ_lt_succ hlt)]
        rfl
      · rw [if_neg hlt, if_neg fun h => hlt (Nat.lt_of_succ_lt_succ h), Nat.add_right_comm, Nat.add_assoc]
        rfl

/-- A byte is read from a region of `symrgtbl`, and the process keeps its area. -/
theorem libread_byte {memrg i : Nat} {ret : Int} {data : Word} {c c' : Caller} (hm : ∃ a, c.mm.Single a)
    (hd : DevOk c.dev) (h : libread c memrg i = .ok (ret, some data, c')) :
    ValidRg (toInt memrg) ∧ (∃ a, c'.mm.Single a) ∧ DevOk c'.dev := by
  obtain ⟨a, hm⟩ := hm
  obtain ⟨data, hread, hdata⟩ := (libread_ok_iff hm hd).mp h
  have hcall : CallOutcome c a (.read memrg i) _ c' := .read hread
  refine ⟨?_, hcall.single hm, hcall.devKept.devOk hd⟩
  cases hread with
  | refused => cases hdata
  | noPage => cases hdata
  | byte hv => exact hv

theorem nameStored_ok {memrg i : Nat} {name : List BYTE} {c c' : Caller} (hm : ∃ a, c.mm.Single a) (hd : DevOk c.dev)
    (hn : NameStored memrg i name c c') : ValidRg (toInt memrg) ∧ ∃ a, c'.mm.Single a := by
  induction name generalizing i c with
  | nil =>
    obtain ⟨ret, hread⟩ := hn
    obtain ⟨hv, hm', _⟩ := libread_byte hm hd hread
    exact ⟨hv, hm'⟩
  | cons b name ih =>
    obtain ⟨ret, c₁, hread, _, hrest⟩ := hn
    obtain ⟨_, hm', hd'⟩ := libread_byte hm hd hread
    exact ih hm' hd' hrest

/-! ## The traversal -/

section Loops
variable [DecidableEq P] {T : PcbTable P} {caller : P} {procName : List BYTE}
  {terminate : P → KillSys P → Exec (KillSys P)} {q q' : QueueT P} {s s' : KillSys P} {n k k' : Nat}

/-- A traversal that returns took the hits of its rounds out of the queue, and terminated them in turn. -/
theorem killLoop_ok (h : killLoop T caller procName terminate n q s k = .ok (q', s', k')) :
    q' = (traverseQueue T.priority (isTarget T caller procName) n q).2 ∧
    k' = k + (traverseQueue T.priority (isTarget T caller procName) n q).1.length ∧
    (traverseQueue T.priority (isTarget T caller procName) n q).1.foldlM
      (fun s target => terminate target s) s = .ok s' := by
  induction n generalizing q s k with
  | zero =>
    cases h
    exact ⟨rfl, rfl, rfl⟩
  | succ n ih =>
    rw [killLoop] at h
    split at h
    · cases h
    · rw [traverseQueue]
      rcases dequeue_cases T.priority q with hdeq | ⟨target, q₁, l₁, l₂, hdeq, hq⟩
      · rw [hdeq] at h ⊢
        exact ih h
      · rw [hdeq] at h ⊢
        dsimp only at h ⊢
        by_cases hsp : spared T caller target = true
        · rw [if_pos hsp] at h
          rw [if_neg (by simp [isTarget, hsp])]
          exact ih h
        · rw [if_neg hsp] at h
          by_cases hpath : T.path target = procName
          · rw [if_pos hpath] at h
            rw [if_pos (by simp [isTarget, hsp, hpath])]
            obtain ⟨s₁, hterm, h⟩ := Exec.bind_ok.mp h
            obtain ⟨hq', hk', hfold⟩ := ih h
            refine ⟨hq', by rw [hk', List.length_cons]; omega, ?_⟩
            rw [List.foldlM_cons, hterm]
            exact hfold
          · rw [if_neg hpath] at h
            rw [if_neg (by simp [isTarget, hpath])]
            exact ih h

theorem killLoop_live (h : killLoop T caller procName terminate q.size q s k = .ok (q', s', k')) :
    ∀ x ∈ q.proc, s.freed x = false := by
  intro x hx
  obtain ⟨n, hn⟩ : ∃ n, q.size = n + 1 := Nat.exists_eq_succ_of_ne_zero (List.length_pos_of_mem hx).ne'
  rw [hn, killLoop] at h
  split at h
  · cases h
  · next hany =>
    by_contra hf
    exact hany (List.any_eq_true.mpr ⟨x, hx, by simpa using hf⟩)

/-- What terminating a process needs and does: in a state with `G` it succeeds, and frees no other process. -/
def Terminates (terminate : P → KillSys P → Exec (KillSys P)) (G : KillSys P → Prop) (frees : Prop) : Prop :=
  ∀ x s, G s → ∃ s', terminate x s = .ok s' ∧ G s' ∧ ∀ y, s'.freed y = true → s.freed y = true ∨ frees ∧ y = x

/-- The traversal returns when no process in the queue is freed, before it or by it. -/
theorem killLoop_returns {G : KillSys P → Prop} {frees : Prop} (hterm : Terminates terminate G frees) (hG : G s)
    (hlive : ∀ x ∈ q.proc, s.freed x = false)
    (hone : frees → ∀ x, isTarget T caller procName x = true →
      Reachable T.priority (isTarget T caller procName) q x → q.proc.count x ≤ 1) :
    ∃ r, killLoop T caller procName terminate n q s k = .ok r := by
  induction n generalizing q s k with
  | zero => exact ⟨_, rfl⟩
  | succ n ih =>
    have hany : q.proc.any s.freed = false := by
      rw [List.any_eq_false]
      exact fun x hx => by rw [hlive x hx]; decide
    rw [killLoop, hany, if_neg (by decide)]
    rcases dequeue_cases T.priority q with hdeq | ⟨target, q₁, l₁, l₂, hdeq, hq⟩
    · rw [hdeq]
      exact ih hG hlive hone
    · rw [hdeq]
      dsimp only
      have hback : ∃ r, killLoop T caller procName terminate n (enqueue q₁ target) s k = .ok r := by
        refine ih hG (fun x hx => hlive x (hq.putBack_perm.subset hx)) fun hf x hhit hr => ?_
        rw [hq.putBack_perm.count_eq]
        exact hone hf x hhit (hr.congr fun y _ hy => hq.putBack_perm.symm.subset hy)
      by_cases hsp : spared T caller target = true
      · rw [if_pos hsp]
        exact hback
      · rw [if_neg hsp]
        by_cases hpath : T.path target = procName
        · have hhit : isTarget T caller procName target = true := by simp [isTarget, hsp, hpath]
          obtain ⟨s₁, hx, hG₁, hfreed⟩ := hterm target s hG
          rw [if_pos hpath, hx, Exec.ok_bind]
          have hsub : ∀ y ∈ q₁.proc, y ∈ q.proc := fun y hy => hq.perm.subset (List.mem_cons_of_mem _ hy)
          refine ih hG₁ (fun y hy => ?_) fun hf y hy hr => ?_
          · by_contra hc
            rcases hfreed y (by simpa using hc) with hfy | ⟨hf, rfl⟩
            · rw [hlive y (hsub y hy)] at hfy
              cases hfy
            · have hle := hone hf y hhit hq.reachable
              rw [← hq.perm.count_eq, List.count_cons_self] at hle
              have hpos := List.count_pos_iff.mpr hy
              omega
          · have hr' : Reachable T.priority (isTarget T caller procName) q y := by
              refine hr.congr fun z hz hin => ?_
              rcases List.mem_cons.mp (hq.perm.symm.subset hin) with rfl | hin
              · cases hz.symm.trans hhit
              · exact hin
            have hle := hone hf y hy hr'
            rw [← hq.perm.count_eq] at hle
            exact Nat.le_trans (List.count_le_count_cons ..) hle
        · rw [if_neg hpath]
          exact hback

/-! ## What happens to the processes taken out -/

def KillSys.Ok (s : KillSys P) : Prop := ∀ proc, ∃ a, (s.mm proc).Single a

theorem terminates_endCode : Terminates (endCode T) KillSys.Ok False := fun _ _ hok => ⟨_, rfl, hok, fun _ => .inl⟩

omit [DecidableEq P] in
theorem libfree_total {c : Caller} {a : VmAreaStruct} {memrg : Nat} (hm : c.mm.Single a) (hv : ValidRg (toInt memrg)) :
    ∃ ret c', libfree c memrg = .ok (ret, c') ∧ ∃ a', c'.mm.Single a' := by
  rcases Nat.lt_or_ge (c.mm.symrgtbl (toInt memrg).toNat).rgStart
    (c.mm.symrgtbl (toInt memrg).toNat).rgEnd with hlt | hge
  · exact ⟨_, _, (libfree_ok_iff hm).mpr (.freed hv hlt), _, rfl, hm.vmId⟩
  · exact ⟨_, _, (libfree_ok_iff hm).mpr (.empty hv hge), _, rfl, hm.vmId⟩

theorem ok_update {a : VmAreaStruct} {mm : MmStruct} (hok : s.Ok) (x : P) (hmm : mm.Single a) (proc : P) :
    ∃ a, (Function.update s.mm x mm proc).Single a := by
  by_cases hx : proc = x
  · rw [hx, Function.update_self]
    exact ⟨a, hmm⟩
  · rw [Function.update_of_ne hx]
    exact hok proc

theorem terminates_release {memrg : Nat} (hv : ValidRg (toInt memrg)) :
    Terminates (release (P := P) memrg) KillSys.Ok True := by
  intro x s hok
  obtain ⟨a, hm⟩ := hok x
  obtain ⟨ret, c', hfree, a', hm'⟩ := libfree_total (c := s.caller x) hm hv
  refine ⟨{ s with mm := _, dev := _, freed := _ }, by rw [release, hfree, Exec.ok_bind]; rfl, ok_update hok x hm', ?_⟩
  intro y hy
  by_cases hyx : y = x
  · exact .inr ⟨trivial, hyx⟩
  · have hy : Function.update s.freed x true y = true := hy
    rw [Function.update_of_ne hyx] at hy
    exact .inl hy

omit [DecidableEq P] in
theorem fold_keeps {G : KillSys P → Prop} {l : List P} (hkeep : ∀ x s s', terminate x s = .ok s' → G s → G s')
    (h : l.foldlM (fun s target => terminate target s) s = .ok s') (hG : G s) : G s' := by
  induction l generalizing s with
  | nil =>
    cases h
    exact hG
  | cons x l ih =>
    rw [List.foldlM_cons] at h
    obtain ⟨s₁, hx, h⟩ := Exec.bind_ok.mp h
    exact ih h (hkeep x s s₁ hx hG)

theorem endCode_fold {l : List P} (h : l.foldlM (fun s target => endCode T target s) s = .ok s') :
    s' = { s with pc := fun proc => if proc ∈ l then T.codeSize proc else s.pc proc } := by
  induction l generalizing s with
  | nil =>
    cases h
    simp only [List.not_mem_nil, if_false]
  | cons x l ih =>
    rw [List.foldlM_cons] at h
    obtain ⟨s₁, hx, h⟩ := Exec.bind_ok.mp h
    cases hx
    rw [ih h]
    congr 1
    funext proc
    show (if proc ∈ l then _ else Function.update s.pc x (T.codeSize x) proc) = _
    by_cases hp : proc = x
    · rw [hp, if_pos List.mem_cons_self, Function.update_self, ite_self]
    · simp only [List.mem_cons, hp, false_or, Function.update_of_ne hp]

theorem release_frame {memrg : Nat} {x : P} (h : release memrg x s = .ok s') : s'.sched = s.sched ∧ s'.pc = s.pc := by
  obtain ⟨⟨ret, c⟩, _, h⟩ := Exec.bind_ok.mp h
  cases h
  exact ⟨rfl, rfl⟩

end Loops

end SimpleOs.Syscall
