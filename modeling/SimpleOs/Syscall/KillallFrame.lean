import SimpleOs.Syscall.Killall

/-!
# What `killall` leaves as it is

* `KillSys.Sound` : every process has its area, and the devices are sound;
* `memCall_sound`, `nameLoop_sound`, `release_sound`, `release_fold` : what the parts of a call keep;
* `KillKept`, `sysKillall_kept` : what any call that returns can have changed; `killKept_refl`, `killKept_caller` :
  calls that kill nobody.
-/

namespace SimpleOs.Syscall
open SimpleOs.Mm SimpleOs.Sched

variable {P : Type}

def KillSys.Sound (s : KillSys P) : Prop := (∀ proc, ∃ a, (s.mm proc).Single a) ∧ DevOk s.dev

/-- What a call can change: it takes the processes of `out` out of level 0 and frees them, moves `pc` to the end of the
code only, and keeps the address spaces and the devices sound. -/
structure KillKept (T : PcbTable P) (out : List P) (s s' : KillSys P) : Prop where
  level0 : (out ++ s'.sched.level 0).Perm (s.sched.level 0)
  level : ∀ l, l ≠ 0 → s'.sched.level l = s.sched.level l
  slot : s'.sched.slot = s.sched.slot
  freed : ∀ proc, s'.freed proc = true ↔ s.freed proc = true ∨ proc ∈ out
  pc : ∀ proc, s'.pc proc = s.pc proc ∨ s'.pc proc = T.codeSize proc
  sound : s.Sound → s'.Sound

theorem KillKept.mem_out {T : PcbTable P} {out : List P} {s s' : KillSys P} (hk : KillKept T out s s') {x : P}
    (hx : x ∈ out) : x ∈ s.sched.level 0 := hk.level0.subset (List.mem_append_left _ hx)

theorem KillKept.mem_level {T : PcbTable P} {out : List P} {s s' : KillSys P} (hk : KillKept T out s s') {x : P}
    {l : Nat} (hx : x ∈ s'.sched.level l) : x ∈ s.sched.level l := by
  by_cases hl : l = 0
  · rw [hl] at hx ⊢
    exact hk.level0.subset (List.mem_append_right _ hx)
  · rw [hk.level l hl] at hx
    exact hx

section Parts
variable [DecidableEq P] {T : PcbTable P} {s s' : KillSys P} {memrg : Nat} {c c' : Caller} {caller : P}

omit [DecidableEq P] in
theorem memCall_sound {call : MemCall} {r : MemResult} (hm : ∃ a, c.mm.Single a) (hd : DevOk c.dev)
    (h : memCall c call = .ok (r, c')) : (∃ a, c'.mm.Single a) ∧ DevOk c'.dev := by
  obtain ⟨a, hm⟩ := hm
  have hcall := (memCall_ok_iff hm hd).mp h
  exact ⟨hcall.single hm, hcall.devKept.devOk hd⟩

omit [DecidableEq P] in
theorem libread_sound {i : Nat} {ret : Int} {data : Option Word} (hm : ∃ a, c.mm.Single a) (hd : DevOk c.dev)
    (h : libread c memrg i = .ok (ret, data, c')) : (∃ a, c'.mm.Single a) ∧ DevOk c'.dev := by
  have hcall : memCall c (.read memrg i) = .ok (⟨ret, data⟩, c') := by
    rw [memCall, h]
    rfl
  exact memCall_sound hm hd hcall

omit [DecidableEq P] in
theorem libfree_sound {ret : Int} (hm : ∃ a, c.mm.Single a) (hd : DevOk c.dev) (h : libfree c memrg = .ok (ret, c')) :
    (∃ a, c'.mm.Single a) ∧ DevOk c'.dev := by
  have hcall : memCall c (.free memrg) = .ok (⟨ret, none⟩, c') := by
    rw [memCall, h]
    rfl
  exact memCall_sound hm hd hcall

omit [DecidableEq P] in
theorem nameLoop_sound {room i : Nat} {name : List BYTE} (hm : ∃ a, c.mm.Single a) (hd : DevOk c.dev)
    (h : nameLoop memrg room i c = .ok (name, c')) : (∃ a, c'.mm.Single a) ∧ DevOk c'.dev := by
  induction room generalizing i c name with
  | zero => cases h
  | succ room ih =>
    rw [nameLoop] at h
    obtain ⟨⟨ret, data, c₁⟩, hread, h⟩ := Exec.bind_ok.mp h
    obtain ⟨hm₁, hd₁⟩ := libread_sound hm hd hread
    cases data with
    | none => cases h
    | some data =>
      dsimp only at h
      split at h
      · cases h
        exact ⟨hm₁, hd₁⟩
      · obtain ⟨⟨name', c₂⟩, hrest, h⟩ := Exec.bind_ok.mp h
        cases h
        exact ih hm₁ hd₁ hrest

omit [DecidableEq P] in
theorem killKept_refl (T : PcbTable P) (s : KillSys P) : KillKept T [] s s where
  level0 := .refl _
  level := fun _ _ => rfl
  slot := rfl
  freed := fun _ => by simp
  pc := fun _ => .inl rfl
  sound := id

theorem sound_update (hs : s.Sound) {x : P} (hm : ∃ a, c.mm.Single a) (hd : DevOk c.dev) :
    ({ s with mm := Function.update s.mm x c.mm, dev := c.dev } : KillSys P).Sound := by
  obtain ⟨a, hm⟩ := hm
  exact ⟨ok_update hs.1 x hm, hd⟩

theorem killKept_caller (T : PcbTable P) (x : P) (h : s.Sound → (∃ a, c.mm.Single a) ∧ DevOk c.dev) :
    KillKept T [] s { s with mm := Function.update s.mm x c.mm, dev := c.dev } where
  level0 := .refl _
  level := fun _ _ => rfl
  slot := rfl
  freed := fun _ => by simp
  pc := fun _ => .inl rfl
  sound := fun hs => sound_update hs (h hs).1 (h hs).2

theorem release_sound {x : P} (h : release memrg x s = .ok s') (hs : s.Sound) : s'.Sound := by
  obtain ⟨⟨ret, c⟩, hfree, h⟩ := Exec.bind_ok.mp h
  cases h
  obtain ⟨hm, hd⟩ := libfree_sound (c := s.caller x) (hs.1 x) hs.2 hfree
  have hupdate := sound_update hs (x := x) hm hd
  exact hupdate

theorem release_fold {l : List P} (h : l.foldlM (fun s target => release memrg target s) s = .ok s') (proc : P) :
    s'.freed proc = true ↔ s.freed proc = true ∨ proc ∈ l := by
  induction l generalizing s with
  | nil =>
    cases h
    simp
  | cons x l ih =>
    rw [List.foldlM_cons] at h
    obtain ⟨s₁, hx, h⟩ := Exec.bind_ok.mp h
    obtain ⟨⟨ret, c⟩, -, hx⟩ := Exec.bind_ok.mp hx
    cases hx
    rw [ih h, List.mem_cons]
    show Function.update s.freed x true proc = true ∨ proc ∈ l ↔ _
    by_cases hp : proc = x
    · simp [hp]
    · simp [hp]

/-- What a call changes that returns, whatever the name. -/
theorem sysKillall_kept {killedCount : Nat} (h : sysKillall T s caller memrg = .ok (killedCount, s')) :
    ∃ out, KillKept T out s s' := by
  rw [sysKillall] at h
  obtain ⟨⟨name, c⟩, hname, h⟩ := Exec.bind_ok.mp h
  obtain ⟨procName, -, h⟩ := Exec.bind_ok.mp h
  obtain ⟨⟨q₁, s₁, k₁⟩, hloop₁, h⟩ := Exec.bind_ok.mp h
  obtain ⟨⟨q₂, s₂, k₂⟩, hloop₂, h⟩ := Exec.bind_ok.mp h
  obtain ⟨⟨ret, c₂⟩, hfree, h⟩ := Exec.bind_ok.mp h
  obtain ⟨hq₁, -, hfold₁⟩ := killLoop_ok hloop₁
  obtain ⟨hq₂, -, hfold₂⟩ := killLoop_ok hloop₂
  have hs₁ := endCode_fold hfold₁
  have hfreed := release_fold hfold₂
  have hframe := fold_keeps (G := fun t => t.sched = { s₁.sched with runningList := q₁ } ∧ t.pc = s₁.pc)
    (fun x t t' ht hG => ⟨(release_frame ht).1.trans hG.1, (release_frame ht).2.trans hG.2⟩) hfold₂ ⟨rfl, rfl⟩
  have hsound : ({ s₁ with sched := { s₁.sched with runningList := q₁ } } : KillSys P).Sound → s₂.Sound := fun hs =>
    fold_keeps (G := KillSys.Sound) (fun x t t' ht hG => release_sound ht hG) hfold₂ hs
  cases h
  subst hs₁
  refine ⟨_, ?_, fun l hl => ?_, ?_, hfreed, fun proc => ?_, fun hs => ?_⟩
  · have hperm := traverseQueue_perm T.priority (isTarget T caller procName) (s.sched.mlqReadyQueue 0).size
      (s.sched.mlqReadyQueue 0)
    show (_ ++ (Function.update s₂.sched.mlqReadyQueue 0 q₂ 0).proc).Perm _
    rw [Function.update_self, hq₂]
    exact hperm
  · show (Function.update s₂.sched.mlqReadyQueue 0 q₂ l).proc = _
    rw [Function.update_of_ne hl, hframe.1]
    rfl
  · show s₂.sched.slot = s.sched.slot
    rw [hframe.1]
  · show s₂.pc proc = s.pc proc ∨ s₂.pc proc = T.codeSize proc
    rw [hframe.2]
    dsimp only
    split
    · exact .inr rfl
    · exact .inl rfl
  · obtain ⟨hm, hd⟩ := nameLoop_sound (c := s.caller caller) (hs.1 caller) hs.2 hname
    have hs₂ := hsound (sound_update hs hm hd)
    obtain ⟨hm', hd'⟩ := libfree_sound (c := s₂.caller caller) (hs₂.1 caller) hs₂.2 hfree
    have hupdate := sound_update hs₂ (x := caller) hm' hd'
    exact hupdate

end Parts

end SimpleOs.Syscall
