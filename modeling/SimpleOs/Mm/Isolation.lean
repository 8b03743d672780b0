import SimpleOs.Mm.Cells

/-!
# Isolation of one process from the others

Two runs differ in the bytes process `A` writes.

* `Agree A T s t` : states that differ only in the bytes of frames held by `A`, or lost, and of swap slots
  in `T`;
* `MemSys.slotTaken`, `MemSys.slotRead` : the slot a fault fills and the one it reads;
* `MemSys.KeepsApart` : the calls that keep `A`'s bytes from the others; `agree_step` : they keep the
  agreement;
* `isolation` : the other processes see the same in both runs;
* `byte_leaked` : a process reads a byte of another out of its swap slot.
-/

namespace SimpleOs.Mm
open CInt

/-- The RAM frame `f` is free, or held by a process other than `A`. -/
def MemSys.Clear (s : MemSys) (A f : Nat) : Prop :=
  f ∈ (s.dev .mram).freeFpList ∨ ∃ i p, i ≠ A ∧ s.ramRefs (i, p) = some f

/-- The states agree up to the bytes of the RAM frames that are not clear of `A` and of the swap slots
`T`. -/
structure Agree (A : Nat) (T : Nat → Prop) (s t : MemSys) : Prop where
  mm : t.mm = s.mm
  dev : ∀ d, t.dev d = { s.dev d with storage := (t.dev d).storage }
  ram : ∀ x, s.Clear A (x / PAGING_PAGESZ) → (t.dev .mram).storage x = (s.dev .mram).storage x
  swp : ∀ x, ¬ T (x / PAGING_PAGESZ) → (t.dev .activeMswp).storage x = (s.dev .activeMswp).storage x

def MemSys.exchanges (s : MemSys) (pid : Nat) (call : MemCall) : Bool :=
  s.faults pid call && (s.mm pid).fifoPgn ≠ []

def MemSys.slotTaken (s : MemSys) (pid : Nat) (call : MemCall) : Option Nat :=
  if s.exchanges pid call then (s.dev .activeMswp).freeFpList.head? else none

def MemSys.slotRead (s : MemSys) (pid : Nat) (call : MemCall) : Option Nat :=
  if s.exchanges pid call then (call.page (s.mm pid)).map fun pgn => pagingPteSwp ((s.mm pid).pgd pgn) else none

variable {A n pid : Nat} {T : Nat → Prop} {s t : MemSys} {c c' d : Caller} {a : VmAreaStruct}
  {call : MemCall}

theorem Agree.free (h : Agree A T s t) (d : Dev) : (t.dev d).freeFpList = (s.dev d).freeFpList := by
  rw [h.dev d]

theorem Agree.maxsz (h : Agree A T s t) (d : Dev) : (t.dev d).maxsz = (s.dev d).maxsz := by
  rw [h.dev d]

theorem Agree.devOk (h : Agree A T s t) (hd : DevOk s.dev) : DevOk t.dev where
  random := fun d => by rw [h.dev d]; exact hd.random d
  maxsz := fun d => by rw [h.maxsz d]; exact hd.maxsz d
  free := fun d f hf => by
    rw [h.free d] at hf
    rw [h.maxsz d]
    exact hd.free d f hf

theorem MemSys.clear_of_inRam {p : Nat} (hA : pid ≠ A) (h : InRam ((s.mm pid).pgd p)) :
    s.Clear A (pagingFpn ((s.mm pid).pgd p)) := .inr ⟨pid, p, hA, ramFrame_eq_some.mpr ⟨h, rfl⟩⟩

theorem MemSys.not_clear {p f : Nat} (hL : Ledger n (s.dev .mram).freeFpList s.ramRefs)
    (h : s.ramRefs (A, p) = some f) : ¬ s.Clear A f := by
  intro hclear
  rcases hclear with hfree | ⟨i, q, hi, hq⟩
  · exact hL.notMem _ f h hfree
  · exact hi (congrArg Prod.fst (hL.inj _ _ f hq h))

structure Caller.Like (c d : Caller) : Prop where
  mm : d.mm = c.mm
  dev : ∀ k, d.dev k = { c.dev k with storage := (d.dev k).storage }

theorem Agree.like (h : Agree A T s t) (pid : Nat) : (s.caller pid).Like (t.caller pid) :=
  ⟨congrFun h.mm pid, h.dev⟩

theorem Caller.Like.mapRam (h : c.Like d) (startPgn n : Nat) : (c.mapRam startPgn n).Like (d.mapRam startPgn n) := by
  have hfree : (d.dev .mram).freeFpList = (c.dev .mram).freeFpList := by rw [h.dev .mram]
  constructor
  · by_cases hn : n ≤ (c.dev .mram).freeFpList.length
    · rw [Caller.mapRam_of_le hn, Caller.mapRam_of_le (hfree ▸ hn), hfree, h.mm]
    · rw [Caller.mapRam_of_gt (Nat.lt_of_not_le hn), Caller.mapRam_of_gt (hfree ▸ Nat.lt_of_not_le hn), h.mm]
  · intro k
    rw [Caller.mapRam_dev, Caller.mapRam_dev]
    cases k with
    | mram => rw [Function.update_self, Function.update_self, h.dev .mram]
    | activeMswp =>
      rw [Function.update_of_ne (by decide), Function.update_of_ne (by decide)]
      exact h.dev .activeMswp

theorem Caller.Like.place (h : c.Like d) (a : VmAreaStruct) (rgid : Int) (rg : VmRgStruct) :
    (c.place a rgid rg).Like (d.place a rgid rg) := ⟨by simp only [Caller.place, h.mm], h.dev⟩

theorem Caller.mapRam_storage (c : Caller) (startPgn n : Nat) (k : Dev) :
    ((c.mapRam startPgn n).dev k).storage = (c.dev k).storage := by
  rw [Caller.mapRam_dev]
  cases k with
  | mram => rw [Function.update_self]
  | activeMswp => rw [Function.update_of_ne (by decide)]

/-! ## Steps that leave the bytes -/

/-- A step that moves no byte keeps the agreement if it makes no frame clear. -/
theorem Agree.after (h : Agree A T s t) (hlike : c.Like d)
    (hs : ∀ k, (c.dev k).storage = (s.dev k).storage) (ht : ∀ k, (d.dev k).storage = (t.dev k).storage)
    (hclear : ∀ f, (s.after pid c).Clear A f → s.Clear A f) : Agree A T (s.after pid c) (t.after pid d) where
  mm := by rw [MemSys.after, MemSys.after, h.mm, hlike.mm]
  dev := hlike.dev
  ram := fun x hx => by
    rw [MemSys.after_dev, MemSys.after_dev, ht, hs]
    exact h.ram x (hclear _ hx)
  swp := fun x hx => by
    rw [MemSys.after_dev, MemSys.after_dev, ht, hs]
    exact h.swp x hx

theorem ramFrame_mapPages {pgn p f : Nat} {frames : List Nat} {mm : MmStruct} (hsmall : ∀ f ∈ frames, f < 2 ^ 13)
    (h : ramFrame ((mapPages pgn frames mm).pgd p) = some f) : f ∈ frames ∨ ramFrame (mm.pgd p) = some f := by
  induction frames generalizing pgn mm with
  | nil => exact .inr h
  | cons fpn frames ih =>
    rw [List.forall_mem_cons] at hsmall
    rcases ih hsmall.2 h with hmem | hold
    · exact .inl (List.mem_cons_of_mem _ hmem)
    · simp only [mapPage] at hold
      by_cases hp : p = pgn
      · subst hp
        rw [Function.update_self, ramFrame_setFpn, Nat.mod_eq_of_lt hsmall.1] at hold
        cases hold
        exact .inl (List.mem_cons_self ..)
      · rw [Function.update_of_ne hp] at hold
        exact .inr hold

theorem clear_of_mapRam {size regIndex f : Nat} (ha : (s.mm pid).Single a) (hv : ValidRg (toInt regIndex))
    (hfits : s.FramesFit pid (.alloc size regIndex))
    (hpgd : c.mm.pgd = ((s.caller pid).mapRam (freshStart a) (freshPages a (toInt size))).mm.pgd)
    (hfree : (c.dev .mram).freeFpList <:+ (s.dev .mram).freeFpList) (h : (s.after pid c).Clear A f) :
    s.Clear A f := by
  rcases h with hf | ⟨i, p, hi, hp⟩
  · exact .inl (hfree.subset hf)
  · have hp' : ramFrame (((s.after pid c).mm i).pgd p) = some f := hp
    by_cases hpid : i = pid
    · subst hpid
      rw [MemSys.after_mm_self, hpgd] at hp'
      by_cases hn : freshPages a (toInt size) ≤ (s.dev .mram).freeFpList.length
      · rw [Caller.mapRam_of_le hn] at hp'
        have hsmall := hfits a (ha.mmap ▸ List.mem_singleton_self a) hv hn
        rcases ramFrame_mapPages (fun f hf => hsmall f (List.mem_reverse.mp hf)) hp' with hmem | hold
        · exact .inl (List.mem_of_mem_take (List.mem_reverse.mp hmem))
        · exact .inr ⟨i, p, hi, hold⟩
      · rw [Caller.mapRam_of_gt (Nat.lt_of_not_le hn)] at hp'
        exact .inr ⟨i, p, hi, hp'⟩
    · rw [MemSys.after_mm_of_ne _ hpid] at hp'
      exact .inr ⟨i, p, hi, hp'⟩

theorem clear_of_pgd {f : Nat} (hpgd : c.mm.pgd = (s.mm pid).pgd)
    (hfree : (c.dev .mram).freeFpList = (s.dev .mram).freeFpList) (h : (s.after pid c).Clear A f) : s.Clear A f := by
  rw [MemSys.Clear, MemSys.after_dev, hfree, MemSys.ramRefs, MemSys.after, frameRefs_congr hpgd] at h
  have hrefs : frameRefs ramFrame (Function.update s.mm pid (s.mm pid)) = s.ramRefs := by
    rw [Function.update_eq_self]
    rfl
  rwa [hrefs] at h

/-! ## Page faults -/

theorem exchange_dev {dev dev' : Dev → MemphyStruct} (h : ∀ k, dev' k = { dev k with storage := (dev' k).storage })
    (vf slot tgt : Nat) (rest : List Nat) (k : Dev) :
    exchange dev' vf slot tgt rest k =
      { exchange dev vf slot tgt rest k with storage := (exchange dev' vf slot tgt rest k).storage } := by
  cases k with
  | mram => rw [exchange, h .mram]; rfl
  | activeMswp => rw [exchange, h .activeMswp]; rfl

theorem clear_of_swapIn {pgn v slot f : Nat} {l rest : List Nat} (hp : pagingPagePresent ((s.mm pid).pgd pgn) = false)
    (hv : InRam ((s.mm pid).pgd v)) (h : (s.after pid ((s.caller pid).swapIn pgn l v slot rest)).Clear A f) :
    s.Clear A f := by
  rcases h with hf | ⟨i, p, hi, hx⟩
  · exact .inl hf
  · rw [MemSys.ramRefs, MemSys.after, swapIn_refs ramFrame (ne_of_not_present hp hv), ramFrame_setSwap, ramFrame_setFpn,
      Nat.mod_eq_of_lt (pagingFpn_lt _), update_caller] at hx
    rcases Ledger.update_some_cases hx with ⟨he, hf⟩ | ⟨-, hx⟩
    · cases he
      cases hf
      exact MemSys.clear_of_inRam hi hv
    · rcases Ledger.update_some_cases hx with ⟨-, hf⟩ | ⟨-, hx⟩
      · cases hf
      · exact .inr ⟨i, p, hi, hx⟩

theorem Agree.evicted (h : Agree A T s t) {vf slot y : Nat} (hvf : s.Clear A vf)
    (hy : y / PAGING_PAGESZ ≠ slot → ¬ T (y / PAGING_PAGESZ)) : evicted t.dev vf slot y = evicted s.dev vf slot y := by
  refine copyFrame_congr (fun _ => h.ram _ ?_) fun hne => h.swp _ (hy hne)
  rw [cell_div_pagesz]
  exact hvf

/-- The slots that hold bytes of `A` after a call. -/
def MemSys.tainted (s : MemSys) (A : Nat) (T : Nat → Prop) (pid : Nat) (call : MemCall) (slot : Nat) : Prop :=
  T slot ∨ pid = A ∧ s.slotTaken pid call = some slot

theorem Agree.taint (h : Agree A T s t) (s₀ : MemSys) (pid : Nat) (call : MemCall) :
    Agree A (s₀.tainted A T pid call) s t where
  mm := h.mm
  dev := h.dev
  ram := h.ram
  swp := fun x hx => h.swp x fun hT => hx (.inl hT)

theorem MemSys.exchanges_of_swapIn {pgn v : Nat} {l : List Nat} (hpage : call.page (s.mm pid) = some pgn)
    (hp : pagingPagePresent ((s.mm pid).pgd pgn) = false) (hq : (s.mm pid).fifoPgn = l ++ [v]) :
    s.exchanges pid call = true := by
  rw [MemSys.exchanges, MemSys.faults_of_page hpage hp, hq]
  simp

theorem Agree.swapIn (h : Agree A T s t) (hL : Ledger n (s.dev .mram).freeFpList s.ramRefs) {pgn v slot : Nat}
    {l rest : List Nat} (hpage : call.page (s.mm pid) = some pgn)
    (hp : pagingPagePresent ((s.mm pid).pgd pgn) = false) (hq : (s.mm pid).fifoPgn = l ++ [v])
    (hs : (s.dev .activeMswp).freeFpList = slot :: rest) (hv : InRam ((s.mm pid).pgd v))
    (hread : pid ≠ A → ∀ slot ∈ s.slotRead pid call, ¬ T slot) :
    Agree A (s.tainted A T pid call) (s.after pid ((s.caller pid).swapIn pgn l v slot rest))
      (t.after pid ((t.caller pid).swapIn pgn l v slot rest)) := by
  have hex := MemSys.exchanges_of_swapIn hpage hp hq
  have htaken : s.slotTaken pid call = some slot := by rw [MemSys.slotTaken, if_pos hex, hs]; rfl
  have hslot : s.slotRead pid call = some (pagingPteSwp ((s.mm pid).pgd pgn)) := by
    rw [MemSys.slotRead, if_pos hex, hpage]; rfl
  obtain ⟨mm, dev⟩ := t
  obtain rfl : mm = s.mm := h.mm
  refine ⟨rfl, exchange_dev h.dev _ slot _ rest, fun x hx => ?_, fun x hx => ?_⟩
  · have hclear := clear_of_swapIn hp hv hx
    refine copyFrame_congr (fun hxv => ?_) fun _ => h.ram x hclear
    by_cases hA : pid = A
    · subst hA
      exact absurd (hxv ▸ hclear) (MemSys.not_clear hL (ramFrame_eq_some.mpr ⟨hv, rfl⟩))
    · refine h.evicted (MemSys.clear_of_inRam hA hv) fun _ => ?_
      rw [cell_div_pagesz]
      exact hread hA _ hslot
  · by_cases hA : pid = A
    · have hne : x / PAGING_PAGESZ ≠ slot := fun he => hx (.inr ⟨hA, he ▸ htaken⟩)
      refine (copyFrame_of_ne hne).trans ((h.swp x fun hT => hx (.inl hT)).trans (copyFrame_of_ne hne).symm)
    · exact h.evicted (MemSys.clear_of_inRam hA hv) fun _ hT => hx (.inl hT)

theorem PageOutcome.agree {pgn : Nat} {fpn : Option Nat} (hout : PageOutcome (s.caller pid) pgn fpn c')
    (h : Agree A T s t) (hL : Ledger n (s.dev .mram).freeFpList s.ramRefs) (hpage : call.page (s.mm pid) = some pgn)
    (hvictim : s.VictimInRam pid call) (hread : pid ≠ A → ∀ slot ∈ s.slotRead pid call, ¬ T slot) :
    ∃ d', PageOutcome (t.caller pid) pgn fpn d' ∧
      Agree A (s.tainted A T pid call) (s.after pid c') (t.after pid d') := by
  have hmm : (t.caller pid).mm = (s.caller pid).mm := congrFun h.mm pid
  cases hout with
  | hit hp =>
    refine ⟨t.caller pid, hmm ▸ .hit (hmm ▸ hp), ?_⟩
    rw [MemSys.after_caller, MemSys.after_caller]
    exact h.taint s pid call
  | noVictim hp hq =>
    refine ⟨t.caller pid, .noVictim (hmm ▸ hp) (hmm ▸ hq), ?_⟩
    rw [MemSys.after_caller, MemSys.after_caller]
    exact h.taint s pid call
  | @swapIn l v slot rest hp hq hv hs hvf ht =>
    refine ⟨(t.caller pid).swapIn pgn l v slot rest, ?_, h.swapIn hL hpage hp hq hs (hvictim.inRam hpage hp hq) hread⟩
    rw [← hmm] at hp hq hvf ht ⊢
    refine .swapIn hp hq hv ((h.free .activeMswp).trans hs) ?_ ?_
    · exact hvf.trans_eq (h.maxsz .mram).symm
    · exact ht.trans_eq (h.maxsz .activeMswp).symm

/-! ## Calls -/

/-- The calls that keep the bytes of `A` from the others: growth maps frames that fit their entries, faults
evict pages in RAM, `A` writes and the others read on pages that are not marked swapped, and the others'
reads find a frame. -/
structure MemSys.KeepsApart (A : Nat) (s : MemSys) (pid : Nat) (call : MemCall) : Prop where
  access : (s.mm pid).AccessOk call
  frames : s.FramesFit pid call
  victim : s.VictimInRam pid call
  writes : pid = A → call.Writes → ∀ pgn ∈ call.page (s.mm pid), ¬ Swapped ((s.mm pid).pgd pgn)
  reads : pid ≠ A → ¬ call.Writes → ∀ pgn ∈ call.page (s.mm pid), ¬ Swapped ((s.mm pid).pgd pgn)
  found : pid ≠ A → ¬ call.Writes → s.faults pid call = true → (s.mm pid).fifoPgn ≠ []

inductive Varies (A : Nat) : Nat × MemCall → Nat × MemCall → Prop
  | same (act : Nat × MemCall) : Varies A act act
  | data (data data' : BYTE) (destination offset : Nat) :
      Varies A (A, .write data destination offset) (A, .write data' destination offset)

/-- Another process than `A` gets the same result in both runs, and a value if it reads. -/
def Sees (A : Nat) (e : Entry MemSys (Nat × MemCall) MemResult) (r : MemResult) : Prop :=
  e.act.1 ≠ A → r = e.res ∧ ∀ source offset, e.act.2 = .read source offset → e.res.value ≠ none

/-- The same byte stored in both runs, or any bytes in a frame that is not clear of `A`. -/
theorem Agree.store {c₁ d₁ : Caller} (h : Agree A T (s.after pid c₁) (t.after pid d₁)) {addr : Nat} {v v' : BYTE}
    (hv : v' = v ∨ ¬ (s.after pid c₁).Clear A (addr / PAGING_PAGESZ)) :
    Agree A T (s.after pid (c₁.store addr v)) (t.after pid (d₁.store addr v')) where
  mm := h.mm
  dev := fun k => by
    have hk : d₁.dev k = { c₁.dev k with storage := (d₁.dev k).storage } := h.dev k
    rw [MemSys.after_dev, MemSys.after_dev, d₁.store_dev, c₁.store_dev, hk]
  ram := fun x hx => by
    have hx' : (s.after pid c₁).Clear A (x / PAGING_PAGESZ) := by
      rw [MemSys.Clear, MemSys.after_dev, Caller.store_dev] at hx
      exact hx
    have hold : (d₁.dev .mram).storage x = (c₁.dev .mram).storage x := h.ram x hx'
    simp only [MemSys.after_dev, Caller.store, Caller.setDev_dev_self]
    by_cases hxa : x = addr
    · subst hxa
      rw [Function.update_self, Function.update_self]
      exact hv.resolve_right fun hn => hn hx'
    · rw [Function.update_of_ne hxa, Function.update_of_ne hxa, hold]
  swp := fun x hx => by
    have hold : (d₁.dev .activeMswp).storage x = (c₁.dev .activeMswp).storage x := h.swp x hx
    simp only [MemSys.after_dev, Caller.store, Caller.setDev_mram_swp]
    exact hold

variable {r : MemResult} {call' : MemCall}

theorem CallOutcome.agree (hout : CallOutcome (s.caller pid) a call r c') (ha : (s.mm pid).Single a)
    (h : Agree A T s t) (hL : Ledger n (s.dev .mram).freeFpList s.ramRefs) (hk : s.KeepsApart A pid call)
    (hread : pid ≠ A → ∀ slot ∈ s.slotRead pid call, ¬ T slot) (hvar : Varies A (pid, call) (pid, call')) :
    ∃ r' d', CallOutcome (t.caller pid) a call' r' d' ∧
      Agree A (s.tainted A T pid call) (s.after pid c') (t.after pid d') ∧ Sees A ⟨s, (pid, call), r⟩ r' := by
  have hlike := h.like pid
  have hself := h.taint s pid call
  obtain ⟨mm, dev⟩ := t
  obtain rfl : mm = s.mm := h.mm
  have hsame : ∀ b rgid rg, Agree A (s.tainted A T pid call) (s.after pid ((s.caller pid).place b rgid rg))
      (MemSys.after ⟨s.mm, dev⟩ pid ((MemSys.caller ⟨s.mm, dev⟩ pid).place b rgid rg)) := fun b rgid rg =>
    hself.after (hlike.place b rgid rg) (fun _ => rfl) (fun _ => rfl) fun f hf => clear_of_pgd rfl rfl hf
  have hnop : Agree A (s.tainted A T pid call) (s.after pid (s.caller pid))
      (MemSys.after ⟨s.mm, dev⟩ pid (MemSys.caller ⟨s.mm, dev⟩ pid)) := by
    rw [MemSys.after_caller, MemSys.after_caller]
    exact hself
  rcases hout with (hr | ⟨hv, hcase, hfits⟩) | (hr | ⟨hv, hle⟩ | ⟨hv, hlt⟩) | (hr | ⟨hv, hp⟩ | ⟨hv, hp, hb⟩) |
    (hr | ⟨hv, hp⟩ | ⟨hv, hp, hb⟩)
  · cases hvar with
    | same => exact ⟨_, _, .alloc (.refused hr), hnop, fun _ => ⟨rfl, fun _ _ he => (nomatch he)⟩⟩
  · cases hvar with
    | same =>
      refine ⟨_, _, .alloc (.placed hv hcase ?_), ?_, fun _ => ⟨rfl, fun _ _ he => (nomatch he)⟩⟩
      · unfold Caller.MapFits at hfits ⊢
        rw [show ((MemSys.caller ⟨s.mm, dev⟩ pid).dev .mram).freeFpList = ((s.caller pid).dev .mram).freeFpList from
          h.free .mram]
        exact hfits
      · refine hself.after ((hlike.mapRam _ _).place _ _ _) (fun k => Caller.mapRam_storage ..)
          (fun k => Caller.mapRam_storage ..) fun f hf =>
            clear_of_mapRam (c := .place _ _ _ _) ha hv hk.frames rfl ?_ hf
        exact ((s.caller pid).mapRam_devKept ..).free .mram
  · cases hvar with
    | same => exact ⟨_, _, .free (.refused hr), hnop, fun _ => ⟨rfl, fun _ _ he => (nomatch he)⟩⟩
  · cases hvar with
    | same => exact ⟨_, _, .free (.empty hv hle), hsame _ _ _, fun _ => ⟨rfl, fun _ _ he => (nomatch he)⟩⟩
  · cases hvar with
    | same => exact ⟨_, _, .free (.freed hv hlt), hsame _ _ _, fun _ => ⟨rfl, fun _ _ he => (nomatch he)⟩⟩
  · cases hvar with
    | same => exact absurd hr hk.access.1.not_refused
  · cases hvar with
    | same =>
      obtain ⟨d', hd, hag⟩ := hp.agree h hL rfl hk.victim hread
      refine ⟨_, d', .read (.noPage hv hd), hag, fun hA => ?_⟩
      cases hp with
      | noVictim hpres hq => exact absurd hq (hk.found hA id (MemSys.faults_of_page rfl hpres))
  · next source offset fpn =>
    cases hvar with
    | same =>
      obtain ⟨d', hd, hag⟩ := hp.agree h hL rfl hk.victim hread
      have hmax : (d'.dev .mram).maxsz = (c'.dev .mram).maxsz := hag.maxsz .mram
      refine ⟨_, d', .read (.byte hv hd (hmax ▸ hb)), hag, fun hA => ⟨?_, fun _ _ _ he => (nomatch he)⟩⟩
      have hbyte := hag.ram _ (.inr ⟨pid, _, hA,
        hp.ramRefs (hk.reads hA id _ rfl) (s.mm pid) (toInt source) (toInt offset)⟩)
      exact congrArg (fun b => MemResult.mk 0 (some (b.signExtend 32))) hbyte
  · cases hvar with
    | same => exact absurd hr hk.access.1.not_refused
    | data => exact absurd hr hk.access.1.not_refused
  · obtain ⟨d', hd, hag⟩ := hp.agree h hL rfl hk.victim hread
    cases hvar with
    | same => exact ⟨_, d', .write (.noPage hv hd), hag, fun _ => ⟨rfl, fun _ _ he => (nomatch he)⟩⟩
    | data => exact ⟨_, d', .write (.noPage hv hd), hag, fun hA => absurd rfl hA⟩
  · next b destination offset c₁ fpn =>
    obtain ⟨d', hd, hag⟩ := hp.agree h hL rfl hk.victim hread
    have hmax : (d'.dev .mram).maxsz = (c₁.dev .mram).maxsz := hag.maxsz .mram
    cases hvar with
    | same =>
      exact ⟨_, _, .write (.byte hv hd (hmax ▸ hb)), hag.store (.inl rfl), fun _ => ⟨rfl, fun _ _ he => (nomatch he)⟩⟩
    | data =>
      refine ⟨_, _, .write (.byte hv hd (hmax ▸ hb)), hag.store (.inr ?_), fun hA => absurd rfl hA⟩
      have hcase : TableCase (s.caller _) a (.write b destination offset) c₁.tables := hp.tableCase rfl
      have hL₁ := hcase.ramLedger ha hL hk.frames hk.victim
      exact MemSys.not_clear hL₁ (hp.ramRefs (hk.writes rfl trivial _ rfl) (s.mm _) (toInt destination) (toInt offset))

instance (A : Nat) (s : MemSys) (pid : Nat) (call : MemCall) : Decidable (s.KeepsApart A pid call) :=
  decidable_of_iff ((s.mm pid).AccessOk call ∧ s.FramesFit pid call ∧ s.VictimInRam pid call ∧
    (pid = A → call.Writes → ∀ pgn ∈ call.page (s.mm pid), ¬ Swapped ((s.mm pid).pgd pgn)) ∧
    (pid ≠ A → ¬ call.Writes → ∀ pgn ∈ call.page (s.mm pid), ¬ Swapped ((s.mm pid).pgd pgn)) ∧
    (pid ≠ A → ¬ call.Writes → s.faults pid call = true → (s.mm pid).fifoPgn ≠ []))
    ⟨fun h => ⟨h.1, h.2.1, h.2.2.1, h.2.2.2.1, h.2.2.2.2.1, h.2.2.2.2.2⟩,
      fun h => ⟨h.access, h.frames, h.victim, h.writes, h.reads, h.found⟩⟩

/-! ## Runs -/

/-- The swap slots filled by faults of `A` in a history. -/
def Tainted (A : Nat) (h : History) (slot : Nat) : Prop :=
  ∃ e ∈ h, e.act.1 = A ∧ e.before.slotTaken A e.act.2 = some slot

/-- A fault of another process than `A` reads a slot no earlier fault of `A` filled. -/
def ReadsApart (A : Nat) (e e' : Entry MemSys (Nat × MemCall) MemResult) : Prop :=
  e.act.1 ≠ A → e'.act.1 = A → ∀ slot ∈ e.before.slotRead e.act.1 e.act.2, e'.before.slotTaken A e'.act.2 ≠ some slot

instance (A : Nat) (e e' : Entry MemSys (Nat × MemCall) MemResult) : Decidable (ReadsApart A e e') :=
  inferInstanceAs (Decidable (_ → _ → _))

structure IsolInv (A ram swp : Nat) (h : History) (s t : MemSys) : Prop where
  ok : s.Ok ram swp
  ledger : Ledger (ram / PAGING_PAGESZ) (s.dev .mram).freeFpList s.ramRefs
  agree : Agree A (Tainted A h) s t

variable {ram swp : Nat} {h : History} {s' : MemSys} {act act' : Nat × MemCall}

theorem tainted_cons {slot : Nat} (hslot : s.tainted A (Tainted A h) act.1 act.2 slot) :
    Tainted A (⟨s, act, r⟩ :: h) slot := by
  rcases hslot with ⟨e, he, hA, htaken⟩ | ⟨hA, htaken⟩
  · exact ⟨e, List.mem_cons_of_mem _ he, hA, htaken⟩
  · exact ⟨_, List.mem_cons_self .., hA, hA ▸ htaken⟩

theorem Varies.pid_eq (h : Varies A act act') : act'.1 = act.1 := by
  cases h <;> rfl

/-- Step lemma: a call that keeps the bytes of `A` from the others is matched in the second run. -/
theorem agree_step (hI : IsolInv A ram swp h s t) (hk : s.KeepsApart A act.1 act.2)
    (hP : ∀ e ∈ h, ReadsApart A ⟨s, act, r⟩ e) (hvar : Varies A act act') (hx : sysCall s act = .ok (r, s')) :
    ∃ r' t', sysCall t act' = .ok (r', t') ∧ IsolInv A ram swp (⟨s, act, r⟩ :: h) s' t' ∧
      Sees A ⟨s, act, r⟩ r' := by
  obtain ⟨a, c', ha, hout, rfl⟩ := sysCall_cases hI.ok hx
  have hpid := hvar.pid_eq
  obtain ⟨pid, call⟩ := act
  obtain ⟨pid', call'⟩ := act'
  obtain rfl : pid' = pid := hpid
  have hread : pid' ≠ A → ∀ slot ∈ s.slotRead pid' call, ¬ Tainted A h slot := by
    intro hA slot hslot ⟨e, he, heA, htaken⟩
    exact hP e he hA heA slot hslot htaken
  obtain ⟨r', d', hd, hag, hsees⟩ := hout.agree ha hI.agree hI.ledger hk hread hvar
  have hat : (t.mm pid').Single a := hI.agree.mm ▸ ha
  refine ⟨r', t.after pid' d', ?_, ⟨sysCall_ok hI.ok hx, ?_, ?_⟩, hsees⟩
  · exact Exec.bind_ok.mpr ⟨_, (memCall_ok_iff hat (hI.agree.devOk hI.ok.devOk)).mpr hd, rfl⟩
  · exact hout.tableCase.ramLedger ha hI.ledger hk.frames hk.victim
  · exact ⟨hag.mm, hag.dev, hag.ram, fun x hnot => hag.swp x fun hT => hnot (tainted_cons hT)⟩

/-- Isolation: in every run of such calls, in which no fault of another process reads a slot filled by
`A`, the second run goes through whatever `A` writes, and the other processes get the same results. -/
theorem isolation {bs : List (Nat × MemCall)} (hram : ram < 2 ^ 31) (hswp : swp < 2 ^ 31)
    (hrun : Run sysCall (MemSys.boot ram swp) h s) (hC : ∀ e ∈ h, e.before.KeepsApart A e.act.1 e.act.2)
    (hP : h.Pairwise (ReadsApart A)) (hbs : List.Forall₂ (Varies A) (h.map Entry.act) bs) :
    ∃ k t, Run sysCall (MemSys.boot ram swp) k t ∧ k.map Entry.act = bs ∧
      List.Forall₂ (fun e e' => Sees A e e'.res) h k := by
  obtain ⟨k, t, hk, hact, -, hsees⟩ := hrun.simulate (R := IsolInv A ram swp)
    (C := fun s act => s.KeepsApart A act.1 act.2) (M := Varies A)
    ⟨boot_ok hram hswp, boot_ramLedger ram swp, rfl, fun _ => rfl, fun _ _ => rfl, fun _ _ => rfl⟩
    (fun _ _ _ _ _ _ _ hI hk hP hvar hx => agree_step hI hk hP hvar hx) hC hP bs hbs
  exact ⟨k, t, hk, hact, hsees⟩

/-- Process 1 faults first, process 0 after it. -/
theorem isolation_faults : ∃ h s k t, Run sysCall (MemSys.boot 2048 4096) h s ∧
    h.map Entry.act = [(1, .read 1 0), (0, .write 7 1 0), (0, .alloc 256 1), (0, .alloc 256 0), (1, .read 1 0),
      (1, .alloc 256 1), (1, .alloc 256 0)] ∧
    Run sysCall (MemSys.boot 2048 4096) k t ∧
    k.map Entry.act = [(1, .read 1 0), (0, .write 9 1 0), (0, .alloc 256 1), (0, .alloc 256 0), (1, .read 1 0),
      (1, .alloc 256 1), (1, .alloc 256 0)] ∧ List.Forall₂ (fun e e' => Sees 0 e e'.res) h k := by
  obtain ⟨h, s, hrun, hact, hp⟩ := exists_run_of_replay sysCall (MemSys.boot 2048 4096)
    [(1, .read 1 0), (0, .write 7 1 0), (0, .alloc 256 1), (0, .alloc 256 0), (1, .read 1 0),
      (1, .alloc 256 1), (1, .alloc 256 0)]
    (fun h _ => decide ((∀ e ∈ h, e.before.KeepsApart 0 e.act.1 e.act.2) ∧ h.Pairwise (ReadsApart 0)))
    (by decide +kernel)
  obtain ⟨hC, hP⟩ := of_decide_eq_true hp
  have hvar : List.Forall₂ (Varies 0) (h.map Entry.act) [(1, .read 1 0), (0, .write 9 1 0), (0, .alloc 256 1),
      (0, .alloc 256 0), (1, .read 1 0), (1, .alloc 256 1), (1, .alloc 256 0)] := by
    rw [hact]
    exact .cons (.same _) (.cons (.data 7 9 1 0) (List.forall₂_same.mpr fun _ _ => .same _))
  obtain ⟨k, t, hk, hkact, hsees⟩ := isolation (by decide) (by decide) hrun hC hP hvar
  exact ⟨h, s, k, t, hrun, hact, hk, hkact, hsees⟩

/-- Process 0 writes a byte and faults: its page goes to slot 0, from which the fault of process 1 fills a
page that was never mapped. -/
theorem byte_leaked : ¬ ∀ A ram swp : Nat, ram < 2 ^ 31 → swp < 2 ^ 31 → ∀ h s k t,
    Run sysCall (MemSys.boot ram swp) h s → Run sysCall (MemSys.boot ram swp) k t →
    List.Forall₂ (Varies A) (h.map Entry.act) (k.map Entry.act) →
    (∀ e ∈ h, (e.before.mm e.act.1).AccessOk e.act.2) → (∀ e ∈ k, (e.before.mm e.act.1).AccessOk e.act.2) →
    List.Forall₂ (fun e e' => e.act.1 ≠ A → e'.res = e.res) h k := by
  intro hall
  have hrun : ∀ b ∈ [7, 9], ∃ h s, Run sysCall (MemSys.boot 4096 4096) h s ∧
      h.map Entry.act = [(1, .read 1 0), (1, .alloc 256 1), (1, .alloc 256 0), (0, .read 1 0), (0, .alloc 256 1),
        (0, .write b 0 0), (0, .alloc 256 0)] ∧
      decide ((∀ e ∈ h, (e.before.mm e.act.1).AccessOk e.act.2) ∧
        h.head?.map (fun e => (e.act.1, e.res)) = some (1, ⟨0, some (b.signExtend 32)⟩)) = true := by
    intro b hb
    rw [List.mem_cons, List.mem_singleton] at hb
    rcases hb with rfl | rfl
    · exact exists_run_of_replay sysCall _ _ _ (by decide +kernel)
    · exact exists_run_of_replay sysCall _ _ _ (by decide +kernel)
  obtain ⟨h, s, hh, hact, hp⟩ := hrun 7 (by simp)
  obtain ⟨k, t, hk, kact, kp⟩ := hrun 9 (by simp)
  obtain ⟨haccess, hhead⟩ := of_decide_eq_true hp
  obtain ⟨kaccess, khead⟩ := of_decide_eq_true kp
  have hvar : List.Forall₂ (Varies 0) (h.map Entry.act) (k.map Entry.act) := by
    rw [hact, kact]
    exact .cons (.same _) (.cons (.same _) (.cons (.same _) (.cons (.same _) (.cons (.same _)
      (.cons (.data 7 9 0 0) (List.forall₂_same.mpr fun _ _ => .same _))))))
  have hres := hall 0 4096 4096 (by decide) (by decide) h s k t hh hk hvar haccess kaccess
  cases hres with
  | nil => cases hhead
  | @cons e e' h k hsame =>
    rw [List.head?_cons, Option.map_some, Option.some_inj, Prod.mk.injEq] at hhead khead
    have heq := hsame (by rw [hhead.1]; decide)
    rw [hhead.2, khead.2] at heq
    exact absurd heq (by decide)

end SimpleOs.Mm
