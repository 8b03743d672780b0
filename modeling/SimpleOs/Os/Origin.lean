import SimpleOs.Os.ExactlyOnce

/-!
# Where the processes are

* `Within`, `within_step`, `within_run` : every process that waits, runs or is still to be added was given to the
  loader;
* `Fits` : no level can be full; `room_of_fits` : so a process that enters its level finds room;
* `Placed`, `placed_step`, `placed_run` : no process is lost, until it is freed.
-/

namespace SimpleOs.Os
open SimpleOs.Sched

variable {P I : Type} {C : OsConfig P I} {s s' : OsSys P I} {i j : Nat} {act : OsAct} {r : Unit} {h : OsHistory P I}
  {Q : P → Prop} {x proc : P} {F : PcbFields P} {sched sched' : SchedT P} {o : Option P}

/-! ## Where they come from -/

/-- All processes that wait, run or are still to be added have `Q`. -/
structure Within (Q : P → Prop) (s : OsSys P I) : Prop where
  level : ∀ l, ∀ x ∈ s.sched.level l, Q x
  cpu : ∀ i x, (s.cpu i).proc = some x → Q x
  rest : ∀ x ∈ s.ld.rest, Q x

theorem get_within (hQ : ∀ l, ∀ x ∈ sched.level l, Q x) (hget : SchedOutcome F sched .get o sched') :
    (∀ l, ∀ x ∈ sched'.level l, Q x) ∧ ∀ x, o = some x → Q x := by
  cases hget with
  | enter hact => cases hact
  | idle => exact ⟨hQ, fun x hx => (nomatch hx)⟩
  | @dispatch prio y q l₁ l₂ hprio hlow hq =>
    have hbefore : sched.level prio = l₁ ++ y :: l₂ := hq.before
    have hin := hQ prio
    rw [hbefore] at hin
    refine ⟨fun l z hz => ?_, fun z hz => ?_⟩
    · rw [dispatch_level hq] at hz
      split at hz
      · apply hin
        rcases List.mem_append.mp hz with hz | hz
        · exact List.mem_append_left _ hz
        · exact List.mem_append_right _ (List.mem_cons_of_mem _ hz)
      · exact hQ l z hz
    · cases hz
      exact hin _ (List.mem_append_right _ List.mem_cons_self)

theorem enter_within (hQ : ∀ l, ∀ x ∈ sched.level l, Q x) (hx : Q x) (l : Nat) :
    ∀ y ∈ (sched.enter F x).level l, Q y := by
  intro y hy
  rcases mem_enter hy with hy | rfl
  · exact hQ l y hy
  · exact hx

theorem Within.setCpu (hw : Within Q s) {c : CpuSt P} (hc : ∀ x, c.proc = some x → Q x) : Within Q (s.setCpu i c) := by
  refine ⟨hw.level, fun j y hy => ?_, hw.rest⟩
  by_cases hj : j = i
  · rw [hj, OsSys.setCpu_self] at hy
    exact hc y hy
  · rw [OsSys.setCpu_of_ne s hj] at hy
    exact hw.cpu j y hy

theorem Within.congr (hw : Within Q s) (hlevel : ∀ l, ∀ x ∈ s'.sched.level l, Q x) (hcpu : s'.cpu = s.cpu)
    (hld : s'.ld = s.ld) : Within Q s' where
  level := hlevel
  cpu := by rw [hcpu]; exact hw.cpu
  rest := by rw [hld]; exact hw.rest

theorem within_step [DecidableEq P] (hw : Within Q s) (hmove : OsMove C s act s') : Within Q s' := by
  cases act with
  | cpu i =>
    have hsame := hw.cpu i
    cases hmove.2 with
    | fetch _ _ hget =>
      obtain ⟨hlevel, hproc⟩ := get_within hw.level hget
      exact (hw.setCpu hproc).congr hlevel rfl rfl
    | finish => exact (hw.setCpu fun x hx => by cases hx).congr hw.level rfl rfl
    | put _ hproc =>
      exact (hw.setCpu fun x hx => by cases hx).congr (enter_within hw.level (hsame _ hproc)) rfl rfl
    | keep => exact hw.setCpu hsame
    | reload _ hget =>
      obtain ⟨hlevel, hproc⟩ := get_within hw.level hget
      exact (hw.setCpu hproc).congr hlevel rfl rfl
    | leave => exact hw.setCpu hsame
    | skip => exact hw.setCpu hsame
    | dispatch => exact hw.setCpu hsame
    | @run y =>
      have hrun : Within Q (run C s y) := by
        apply hw.congr ?_ (run_cpu s y) (run_ld s y)
        rw [run_sched]
        exact hw.level
      exact hrun.setCpu hsame
    | call => exact hw.setCpu hsame
    | pass => exact hw.setCpu hsame
    | detach => exact hw.setCpu hsame
  | ld early =>
    have hmove : LdMove C s s' := hmove
    cases hmove with
    | early _ hrest => exact ⟨hw.level, hw.cpu, hrest ▸ hw.rest⟩
    | @add y rest _ hrest =>
      have hin := hw.rest
      rw [hrest] at hin
      exact ⟨enter_within hw.level (hin _ List.mem_cons_self), hw.cpu, fun x hx => hin x (List.mem_cons_of_mem _ hx)⟩
    | _ => exact ⟨hw.level, hw.cpu, hw.rest⟩

theorem within_boot (C : OsConfig P I) : Within (· ∈ C.load) (.boot C) where
  level := fun _ _ hx => absurd hx List.not_mem_nil
  cpu := fun _ _ hx => (nomatch hx)
  rest := fun _ hx => hx

theorem within_run [DecidableEq P] (hrun : Run (osStep C) (.boot C) h s) : Within (· ∈ C.load) s :=
  hrun.invariant (I := fun _ s => Within (· ∈ C.load) s) (within_boot C)
    fun _ _ _ _ _ _ hw hx => within_step hw (osStep_move hx)

/-! ## Room in the levels -/

/-- The processes of a level fit in it. -/
def Fits (C : OsConfig P I) : Prop := ∀ l, (C.load.filter (C.fields.prio · = l)).length ≤ MAX_QUEUE_SIZE

theorem room_of_fits [DecidableEq P] (hfit : Fits C) (hw : Within (· ∈ C.load) s) (hok : s.sched.Ok C.fields)
    (honce : ∀ l, (s.sched.level l).Nodup) (hload : proc ∈ C.load) (hout : proc ∉ s.sched.level (C.fields.prio proc)) :
    (s.sched.level (C.fields.prio proc)).length < MAX_QUEUE_SIZE := by
  have hsub : proc :: s.sched.level (C.fields.prio proc) ⊆ C.load.filter (C.fields.prio · = C.fields.prio proc) := by
    intro y hy
    rw [List.mem_filter, decide_eq_true_iff]
    rcases List.mem_cons.mp hy with rfl | hy
    · exact ⟨hload, rfl⟩
    · exact ⟨hw.level _ y hy, hok.prio _ y hy⟩
  have hle := List.Nodup.length_le_of_subset (List.nodup_cons.mpr ⟨hout, honce _⟩) hsub
  rw [List.length_cons] at hle
  exact hle.trans (hfit _)

theorem mem_enter_of_mem {l : Nat} (hx : x ∈ sched.level l) : x ∈ (sched.enter F proc).level l := by
  rw [enter_level]
  split
  · exact List.mem_append_left _ hx
  · exact hx

theorem mem_enter_self (hroom : (sched.level (F.prio proc)).length < MAX_QUEUE_SIZE) :
    proc ∈ (sched.enter F proc).level (F.prio proc) := by
  rw [enter_level, if_pos ⟨rfl, hroom⟩]
  exact List.mem_append_right _ (List.mem_singleton_self _)

theorem mem_get {l : Nat} (hx : x ∈ sched.level l) (hget : SchedOutcome F sched .get o sched') :
    x ∈ sched'.level l ∨ o = some x := by
  cases hget with
  | enter hact => cases hact
  | idle => exact .inl hx
  | @dispatch prio y q l₁ l₂ hprio hlow hq =>
    have hbefore : sched.level prio = l₁ ++ y :: l₂ := hq.before
    rw [dispatch_level hq]
    by_cases hl : l = prio
    · rw [if_pos hl]
      rw [hl, hbefore] at hx
      rcases List.mem_append.mp hx with hx | hx
      · exact .inl (List.mem_append_left _ hx)
      · rcases List.mem_cons.mp hx with rfl | hx
        · exact .inr rfl
        · exact .inl (List.mem_append_right _ hx)
    · rw [if_neg hl]
      exact .inl hx

/-! ## No process is lost -/

/-- The process was freed, is still to be added, waits in its level or runs. -/
inductive Placed (C : OsConfig P I) (s : OsSys P I) (x : P) : Prop
  | freed (h : s.freed x = true)
  | rest (h : x ∈ s.ld.rest)
  | level (hprio : C.fields.prio x < MAX_PRIO) (h : x ∈ s.sched.level (C.fields.prio x))
  | cpu {i : Nat} (hi : i < C.numCpus) (h : (s.cpu i).proc = some x)

theorem Placed.congr (hp : Placed C s x) (hfreed : s.freed x = true → s'.freed x = true)
    (hrest : x ∈ s.ld.rest → x ∈ s'.ld.rest)
    (hlevel : C.fields.prio x < MAX_PRIO → x ∈ s.sched.level (C.fields.prio x) → Placed C s' x)
    (hcpu : ∀ i < C.numCpus, (s.cpu i).proc = some x → Placed C s' x) : Placed C s' x := by
  cases hp with
  | freed h => exact .freed (hfreed h)
  | rest h => exact .rest (hrest h)
  | level hprio h => exact hlevel hprio h
  | cpu hi h => exact hcpu _ hi h

theorem Placed.same (hp : Placed C s x) {c : CpuSt P} (hc : c.proc = (s.cpu i).proc) : Placed C (s.setCpu i c) x := by
  refine hp.congr id id (fun hprio h => .level hprio h) fun j hj h => .cpu hj ?_
  by_cases hji : j = i
  · rw [hji, OsSys.setCpu_self, hc, ← hji]
    exact h
  · rw [OsSys.setCpu_of_ne s hji]
    exact h

theorem Placed.get (hp : Placed C s x) (hi : i < C.numCpus) (hnone : (s.cpu i).proc = none)
    (hget : SchedOutcome C.fields s.sched .get o sched) {c : CpuSt P} (hc : c.proc = o) :
    Placed C { s.setCpu i c with sched := sched } x := by
  have hself : ∀ {j}, j ≠ i → ({ s.setCpu i c with sched := sched } : OsSys P I).cpu j = s.cpu j := fun hj =>
    OsSys.setCpu_of_ne s hj c
  refine hp.congr id id (fun hprio h => ?_) fun j hj h => .cpu hj ?_
  · rcases mem_get h hget with h | h
    · exact .level hprio h
    · refine .cpu hi ?_
      rw [← h, ← hc]
      exact congrArg CpuSt.proc (OsSys.setCpu_self s i c)
  · rw [hself fun hji => by rw [hji, hnone] at h; cases h]
    exact h

section Steps
variable [DecidableEq P]

/-- A step loses no process. -/
theorem placed_step {own : P → Owner} (hfit : Fits C) (ho : Owned own C s) (hok : ∀ j, (s.cpu j).Ok)
    (hw : Within (· ∈ C.load) s) (hp : Placed C s x) (hmove : OsMove C s act s') : Placed C s' x := by
  cases act with
  | cpu i =>
    obtain ⟨hi, hmove⟩ := hmove
    cases hmove with
    | fetch hpc hproc hget => exact hp.get hi hproc hget rfl
    | @finish y hpc hproc =>
      refine hp.congr (fun h => ?_) id (fun hprio h => .level hprio h) fun j hj h => ?_
      · show Function.update s.freed y true x = true
        rw [Function.update_apply]
        split
        · rfl
        · exact h
      · by_cases hji : j = i
        · rw [hji, hproc] at h
          cases h
          exact .freed (Function.update_self ..)
        · refine .cpu hj ?_
          rw [← h]
          exact congrArg CpuSt.proc (OsSys.setCpu_of_ne s hji _)
    | @put y hpc hproc htime hprio =>
      have hload := hw.cpu i y hproc
      have hready : own y ≠ .ready := fun he => by cases (ho.cpu i y hproc).symm.trans he
      have hroom := room_of_fits hfit hw ho.ok ho.once hload (ho.not_mem_level hready _)
      refine hp.congr id id (fun hprio h => .level hprio (mem_enter_of_mem h)) fun j hj h => ?_
      by_cases hji : j = i
      · rw [hji, hproc] at h
        cases h
        exact .level hprio (mem_enter_self hroom)
      · refine .cpu hj ?_
        rw [← h]
        exact congrArg CpuSt.proc (OsSys.setCpu_of_ne s hji _)
    | keep => exact hp.same rfl
    | reload hpc hget =>
      have hnone : (s.cpu i).proc = none := by
        have hi := hok i
        rw [CpuSt.Ok, hpc] at hi
        exact hi
      exact hp.get hi hnone hget rfl
    | leave => exact hp.same rfl
    | skip => exact hp.same rfl
    | dispatch => exact hp.same rfl
    | @run y =>
      have hrun : Placed C (run C s y) x := by
        refine hp.congr (fun h => ?_) (fun h => ?_) (fun hprio h => .level hprio ?_) fun j hj h => .cpu hj ?_
        · rw [run_freed]
          exact h
        · rw [run_ld]
          exact h
        · rw [run_sched]
          exact h
        · rw [run_cpu]
          exact h
      exact hrun.same (by rw [run_cpu])
    | call => exact hp.same rfl
    | pass => exact hp.same rfl
    | detach => exact hp.same rfl
  | ld early =>
    have hmove : LdMove C s s' := hmove
    cases hmove with
    | early hpc hrest =>
      exact hp.congr id (fun h => hrest ▸ h) (fun hprio h => .level hprio h) fun j hj h => .cpu hj h
    | @add y rest hpc hrest hprio =>
      have hin : y ∈ s.ld.rest := by
        rw [hrest]
        exact List.mem_cons_self
      have hready : own y ≠ .ready := fun he => by cases (ho.rest y hin).symm.trans he
      have hroom := room_of_fits hfit hw ho.ok ho.once (hw.rest y hin) (ho.not_mem_level hready _)
      cases hp with
      | freed h => exact .freed h
      | rest h =>
        rw [hrest] at h
        rcases List.mem_cons.mp h with rfl | h
        · exact .level hprio (mem_enter_self hroom)
        · exact .rest h
      | level hprio h => exact .level hprio (mem_enter_of_mem h)
      | cpu hi h => exact .cpu hi h
    | _ => exact hp.congr id id (fun hprio h => .level hprio h) fun j hj h => .cpu hj h

theorem placed_run (hfit : Fits C) (hrun : Run (osStep C) (.boot C) h s) (hx : x ∈ C.load) : Placed C s x :=
  hrun.invariant (I := fun _ s => Placed C s x) (.rest hx) fun _ _ _ _ _ hrun hp hx =>
    placed_step hfit (owned_run hrun).choose_spec (cpuOk_run hrun) (within_run hrun) hp (osStep_move hx)

end Steps

end SimpleOs.Os
