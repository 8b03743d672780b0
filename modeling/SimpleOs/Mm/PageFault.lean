import SimpleOs.Mm.AccessSpec

/-!
# What a page fault preserves

* `Caller.home` : the device and the frame that hold a mapped page; `Caller.contents` : its bytes;
* `WellPaged` : homes are pairwise distinct frames, none of them free, and the queue lists the resident
  pages;
* `home_swapIn`, `wellPaged_swapIn`, `contents_swapIn` : the fault path moves two pages and keeps all
  contents;
* `GetpagePreserves`, `FaultSound` : what `pg_getpage` should do, and where it does;
* `getpagePreserves_iff` : the two agree;
* `swapped_page_lost` : a swapped page taken for a resident one.
-/

namespace SimpleOs.Mm

/-- The device and the frame an entry names: the swap frame when it is marked swapped, else the RAM frame
when it is marked present. -/
def homeOf (pte : Word) : Option (Dev × Nat) :=
  if pte &&& PAGING_PTE_SWAPPED_MASK ≠ 0#32 then some (.activeMswp, pagingPteSwp pte)
  else if pagingPagePresent pte then some (.mram, pagingFpn pte) else none

def Caller.home (c : Caller) (pgn : Nat) : Option (Dev × Nat) :=
  if pgn < PAGING_MAX_PGN then homeOf (c.mm.pgd pgn) else none

/-- Byte `i` of a frame. -/
def Caller.frameByte (c : Caller) (frame : Dev × Nat) (i : Nat) : BYTE :=
  (c.dev frame.1).storage (frame.2 * PAGING_PAGESZ + i)

def Caller.contents (c : Caller) (pgn i : Nat) : Option BYTE := (c.home pgn).map fun frame => c.frameByte frame i

/-- The mapped pages are in distinct frames their devices have, swap frames in use are not free, the queue
lists the resident pages and is not empty, and neither is the list of free swap frames; an entry can name
each of these. -/
structure WellPaged (c : Caller) : Prop where
  distinct : ∀ p q frame, c.home p = some frame → c.home q = some frame → p = q
  range : ∀ p frame, c.home p = some frame → (frame.2 + 1) * PAGING_PAGESZ ≤ (c.dev frame.1).maxsz
  used : ∀ p s, c.home p = some (.activeMswp, s) → s ∉ (c.dev .activeMswp).freeFpList
  resident : ∀ p, p ∈ c.mm.fifoPgn ↔ ∃ f, c.home p = some (.mram, f)
  once : c.mm.fifoPgn.Nodup
  victim : c.mm.fifoPgn ≠ []
  freeOnce : (c.dev .activeMswp).freeFpList.Nodup
  named : ∀ s ∈ (c.dev .activeMswp).freeFpList, s < 2 ^ 21
  slot : (c.dev .activeMswp).freeFpList ≠ []

/-- `pg_getpage` delivers a RAM frame with the contents of page `pgn`, and keeps all contents. -/
def GetpagePreserves (c : Caller) (pgn : Nat) : Prop :=
  ∃ fpn c', pgGetpage c pgn = .ok (0, some fpn, c') ∧ (fpn + 1) * PAGING_PAGESZ ≤ (c'.dev .mram).maxsz ∧
    (∀ i < PAGING_PAGESZ, c.contents pgn i = some (c'.frameByte (.mram, fpn) i)) ∧
    (∀ p, c.home p ≠ none → ∀ i < PAGING_PAGESZ, c'.contents p i = c.contents p i) ∧ WellPaged c'

/-- The page is in RAM; or it is swapped and not marked present, and two swap frames are free; or it is
swapped and marked present, and the RAM frame with the number in the frame field of its entry has the same
bytes as its swap frame. -/
def FaultSound (c : Caller) (pgn : Nat) : Prop :=
  InRam (c.mm.pgd pgn) ∨
  (pagingPagePresent (c.mm.pgd pgn) = false ∧ 1 < (c.dev .activeMswp).freeFpList.length) ∨
  (Swapped (c.mm.pgd pgn) ∧ (pagingFpn (c.mm.pgd pgn) + 1) * PAGING_PAGESZ ≤ (c.dev .mram).maxsz ∧
    ∀ i < PAGING_PAGESZ, c.frameByte (.activeMswp, pagingPteSwp (c.mm.pgd pgn)) i =
      c.frameByte (.mram, pagingFpn (c.mm.pgd pgn)) i)

variable {c : Caller} {pgn p : Nat} {pte : Word} {l rest : List Nat} {v s : Nat}

/-! ## Homes -/

theorem homeOf_inRam (h : InRam pte) : homeOf pte = some (.mram, pagingFpn pte) := by
  rw [homeOf, if_neg (not_not_intro h.2), if_pos h.1]

theorem homeOf_swapped (h : pte &&& PAGING_PTE_SWAPPED_MASK ≠ 0#32) :
    homeOf pte = some (.activeMswp, pagingPteSwp pte) :=
  if_pos h

theorem homeOf_eq_mram {f : Nat} (h : homeOf pte = some (.mram, f)) : InRam pte ∧ f = pagingFpn pte := by
  unfold homeOf at h
  split at h
  · cases h
  · next hs =>
    split at h
    · next hp =>
      cases h
      exact ⟨⟨hp, not_not.mp hs⟩, rfl⟩
    · cases h

theorem homeOf_setFpn (pte : Word) {f : Nat} (hf : f < 2 ^ 13) : homeOf (pteSetFpn pte f) = some (.mram, f) := by
  rw [homeOf_inRam (inRam_setFpn pte f), pagingFpn_setFpn, Nat.mod_eq_of_lt hf]

theorem homeOf_setSwap (pte : Word) {s : Nat} (hs : s < 2 ^ 21) :
    homeOf (pteSetSwap pte 0 s) = some (.activeMswp, s) := by
  rw [homeOf_swapped (swapped_setSwap pte 0 s).2, pagingPteSwp_setSwap, Nat.mod_eq_of_lt hs]

theorem Caller.home_of_lt (hp : p < PAGING_MAX_PGN) : c.home p = homeOf (c.mm.pgd p) := if_pos hp

theorem Caller.lt_of_home (h : c.home p ≠ none) : p < PAGING_MAX_PGN := by
  by_contra hp
  exact h (if_neg hp)

theorem Caller.home_eq_mram {f : Nat} (h : c.home p = some (.mram, f)) :
    InRam (c.mm.pgd p) ∧ f = pagingFpn (c.mm.pgd p) := by
  rw [Caller.home_of_lt (Caller.lt_of_home (by rw [h]; simp))] at h
  exact homeOf_eq_mram h

theorem Caller.home_of_not_present (hm : c.home pgn ≠ none) (hp : pagingPagePresent (c.mm.pgd pgn) = false) :
    c.home pgn = some (.activeMswp, pagingPteSwp (c.mm.pgd pgn)) := by
  have hlt := Caller.lt_of_home hm
  rw [Caller.home_of_lt hlt] at hm ⊢
  apply homeOf_swapped
  intro hs
  apply hm
  rw [homeOf, if_neg (not_not_intro hs), hp]
  rfl

theorem WellPaged.ramRange (hw : WellPaged c) {f : Nat} (h : c.home p = some (.mram, f)) :
    (f + 1) * PAGING_PAGESZ ≤ (c.dev .mram).maxsz := hw.range p (.mram, f) h

theorem WellPaged.swpRange (hw : WellPaged c) {f : Nat} (h : c.home p = some (.activeMswp, f)) :
    (f + 1) * PAGING_PAGESZ ≤ (c.dev .activeMswp).maxsz := hw.range p (.activeMswp, f) h

/-! ## The fault path -/

structure FaultOn (c : Caller) (pgn : Nat) (l : List Nat) (v s : Nat) (rest : List Nat) : Prop where
  home : c.home pgn = some (.activeMswp, pagingPteSwp (c.mm.pgd pgn))
  queue : c.mm.fifoPgn = l ++ [v]
  free : (c.dev .activeMswp).freeFpList = s :: rest

theorem FaultOn.victim_home (h : FaultOn c pgn l v s rest) (hw : WellPaged c) :
    c.home v = some (.mram, pagingFpn (c.mm.pgd v)) := by
  obtain ⟨f, hf⟩ := (hw.resident v).mp (by rw [h.queue]; exact List.mem_append_right _ List.mem_cons_self)
  rw [hf, (Caller.home_eq_mram hf).2]

theorem FaultOn.ne (h : FaultOn c pgn l v s rest) (hw : WellPaged c) : pgn ≠ v := by
  intro he
  have hv := h.victim_home hw
  rw [← he, h.home] at hv
  cases hv

theorem FaultOn.slot_free (h : FaultOn c pgn l v s rest) : s ∈ (c.dev .activeMswp).freeFpList := by
  rw [h.free]
  exact List.mem_cons_self

theorem home_swapIn (h : FaultOn c pgn l v s rest) (hw : WellPaged c) (p : Nat) :
    (c.swapIn pgn l v s rest).home p =
      if p = pgn then some (.mram, pagingFpn (c.mm.pgd v)) else if p = v then some (.activeMswp, s) else c.home p := by
  have hne := h.ne hw
  by_cases hp : p = pgn
  · subst hp
    rw [if_pos rfl, Caller.home_of_lt (Caller.lt_of_home (by rw [h.home]; simp)), c.swapIn_pgd_self hne,
      homeOf_setFpn _ (pagingFpn_lt _)]
  · rw [if_neg hp]
    by_cases hv : p = v
    · subst hv
      rw [if_pos rfl, Caller.home_of_lt (Caller.lt_of_home (by rw [h.victim_home hw]; simp)),
        c.swapIn_pgd_victim hne, homeOf_setSwap _ (hw.named s h.slot_free)]
    · rw [if_neg hv, Caller.home, c.swapIn_pgd_of_ne hp hv]
      rfl

theorem frameByte_swapIn (h : FaultOn c pgn l v s rest) (hw : WellPaged c) {i : Nat} (hi : i < PAGING_PAGESZ)
    (frame : Dev × Nat) : (c.swapIn pgn l v s rest).frameByte frame i =
      if frame = (.mram, pagingFpn (c.mm.pgd v)) then c.frameByte (.activeMswp, pagingPteSwp (c.mm.pgd pgn)) i
      else if frame = (.activeMswp, s) then c.frameByte (.mram, pagingFpn (c.mm.pgd v)) i
      else c.frameByte frame i := by
  have hdiv : ∀ f, (f * PAGING_PAGESZ + i) / PAGING_PAGESZ = f := fun f => by
    rw [Nat.mul_comm, Nat.mul_add_div (by decide), Nat.div_eq_of_lt hi, Nat.add_zero]
  have hmod : ∀ f, (f * PAGING_PAGESZ + i) % PAGING_PAGESZ = i := fun f => by
    rw [Nat.mul_comm, Nat.mul_add_mod, Nat.mod_eq_of_lt hi]
  have hslot : pagingPteSwp (c.mm.pgd pgn) ≠ s := fun he =>
    hw.used pgn _ h.home (he ▸ h.slot_free)
  obtain ⟨d, f⟩ := frame
  cases d with
  | mram =>
    show copyFrame (evicted c.dev _ s) _ (c.dev .mram).storage _ _ = _
    by_cases hf : f = pagingFpn (c.mm.pgd v)
    · rw [if_pos (by rw [hf]), copyFrame_of_eq (by rw [hdiv, hf]), hmod, evicted,
        copyFrame_of_ne (by rw [hdiv]; exact hslot)]
      rfl
    · rw [if_neg (by simpa using hf), if_neg (by simp), copyFrame_of_ne (by rw [hdiv]; exact hf)]
      rfl
  | activeMswp =>
    show evicted c.dev _ s _ = _
    rw [if_neg (by simp)]
    by_cases hf : f = s
    · rw [if_pos (by rw [hf]), evicted, copyFrame_of_eq (by rw [hdiv, hf]), hmod]
      rfl
    · rw [if_neg (by simpa using hf), evicted, copyFrame_of_ne (by rw [hdiv]; exact hf)]
      rfl

/-- A fault keeps the contents of every mapped page. -/
theorem contents_swapIn (h : FaultOn c pgn l v s rest) (hw : WellPaged c) {i : Nat} (hi : i < PAGING_PAGESZ)
    (hp : c.home p ≠ none) : (c.swapIn pgn l v s rest).contents p i = c.contents p i := by
  have hv := h.victim_home hw
  rw [Caller.contents, Caller.contents, home_swapIn h hw]
  by_cases hpg : p = pgn
  · subst hpg
    rw [if_pos rfl, Option.map_some, frameByte_swapIn h hw hi, if_pos rfl, h.home]
    rfl
  · rw [if_neg hpg]
    by_cases hpv : p = v
    · subst hpv
      rw [if_pos rfl, Option.map_some, frameByte_swapIn h hw hi, if_neg (by simp), if_pos rfl, hv]
      rfl
    · rw [if_neg hpv]
      obtain ⟨frame, hf⟩ := Option.ne_none_iff_exists'.mp hp
      have hfv : frame ≠ (.mram, pagingFpn (c.mm.pgd v)) := fun he => hpv (hw.distinct p v _ hf (he ▸ hv))
      have hfs : frame ≠ (.activeMswp, s) := fun he => hw.used p s (he ▸ hf) h.slot_free
      rw [hf, Option.map_some, frameByte_swapIn h hw hi, if_neg hfv, if_neg hfs, Option.map_some]

theorem FaultOn.mem_left (h : FaultOn c pgn l v s rest) (hw : WellPaged c) (x : Nat) :
    x ∈ l ↔ x ≠ v ∧ ∃ f, c.home x = some (.mram, f) := by
  have hqueue := hw.once
  rw [h.queue] at hqueue
  rw [← hw.resident, h.queue, List.mem_append, List.mem_singleton]
  constructor
  · intro hx
    refine ⟨fun he => ?_, .inl hx⟩
    rw [he] at hx
    exact (List.nodup_append.mp hqueue).2.2 v hx v List.mem_cons_self rfl
  · intro ⟨hxv, hx⟩
    exact hx.resolve_right hxv

/-- A page other than the two that change places keeps its home, which is neither of theirs. -/
theorem FaultOn.other (h : FaultOn c pgn l v s rest) (hw : WellPaged c) {x : Nat} {frame : Dev × Nat} (hxv : x ≠ v)
    (hx : c.home x = some frame) : frame ≠ (.mram, pagingFpn (c.mm.pgd v)) ∧ frame ≠ (.activeMswp, s) :=
  ⟨fun he => hxv (hw.distinct x v _ hx (he ▸ h.victim_home hw)), fun he => hw.used x s (he ▸ hx) h.slot_free⟩

theorem distinct_swapIn (h : FaultOn c pgn l v s rest) (hw : WellPaged c) (x y : Nat) (frame : Dev × Nat)
    (hx : (c.swapIn pgn l v s rest).home x = some frame) (hy : (c.swapIn pgn l v s rest).home y = some frame) :
    x = y := by
  rw [home_swapIn h hw] at hx hy
  split at hx
  · split at hy
    · next hx' hy' => rw [hx', hy']
    · split at hy
      · rw [← hx] at hy
        cases hy
      · next hyv => exact absurd (Option.some_inj.mp hx).symm (h.other hw hyv hy).1
  · split at hx
    · split at hy
      · rw [← hx] at hy
        cases hy
      · split at hy
        · next hx' _ hy' => rw [hx', hy']
        · next hyv => exact absurd (Option.some_inj.mp hx).symm (h.other hw hyv hy).2
    · next hxv =>
      split at hy
      · exact absurd (Option.some_inj.mp hy).symm (h.other hw hxv hx).1
      · split at hy
        · exact absurd (Option.some_inj.mp hy).symm (h.other hw hxv hx).2
        · exact hw.distinct x y frame hx hy

theorem resident_swapIn (h : FaultOn c pgn l v s rest) (hw : WellPaged c) (x : Nat) :
    x ∈ (c.swapIn pgn l v s rest).mm.fifoPgn ↔ ∃ f, (c.swapIn pgn l v s rest).home x = some (.mram, f) := by
  rw [Caller.swapIn_fifoPgn, List.mem_cons, h.mem_left hw, home_swapIn h hw]
  by_cases hxp : x = pgn
  · rw [if_pos hxp]
    exact iff_of_true (.inl hxp) ⟨_, rfl⟩
  · rw [if_neg hxp, or_iff_right hxp]
    by_cases hxv : x = v
    · rw [if_pos hxv]
      refine iff_of_false (fun hx => hx.1 hxv) fun ⟨f, hf⟩ => ?_
      cases hf
    · rw [if_neg hxv]
      exact and_iff_right hxv

theorem range_swapIn (h : FaultOn c pgn l v s rest) (hw : WellPaged c) (hd : DevOk c.dev) (x : Nat)
    (frame : Dev × Nat) (hx : (c.swapIn pgn l v s rest).home x = some frame) :
    (frame.2 + 1) * PAGING_PAGESZ ≤ ((c.swapIn pgn l v s rest).dev frame.1).maxsz := by
  have hmax : ((c.swapIn pgn l v s rest).dev frame.1).maxsz = (c.dev frame.1).maxsz := by
    cases frame.1
    · rfl
    · rfl
  rw [hmax]
  rw [home_swapIn h hw] at hx
  split at hx
  · cases hx
    exact hw.range v _ (h.victim_home hw)
  · split at hx
    · cases hx
      exact hd.free .activeMswp s h.slot_free
    · exact hw.range x frame hx

/-- A fault keeps the pages well formed as long as a swap frame is left. -/
theorem wellPaged_swapIn (h : FaultOn c pgn l v s rest) (hw : WellPaged c) (hd : DevOk c.dev) (hrest : rest ≠ []) :
    WellPaged (c.swapIn pgn l v s rest) := by
  have hfree := hw.freeOnce
  have hqueue := hw.once
  rw [h.free, List.nodup_cons] at hfree
  rw [h.queue] at hqueue
  have hleft : ∀ x ∈ rest, x ∈ (c.dev .activeMswp).freeFpList := fun x hx => by
    rw [h.free]
    exact List.mem_cons_of_mem _ hx
  refine ⟨distinct_swapIn h hw, range_swapIn h hw hd, fun x t hx => ?_, resident_swapIn h hw, ?_, ?_, hfree.2,
    fun x hx => hw.named x (hleft x hx), hrest⟩
  · rw [home_swapIn h hw] at hx
    show t ∉ rest
    split at hx
    · cases hx
    · split at hx
      · cases hx
        exact hfree.1
      · exact fun hin => hw.used x t hx (hleft t hin)
  · rw [Caller.swapIn_fifoPgn, List.nodup_cons]
    refine ⟨fun hin => ?_, (List.nodup_append.mp hqueue).1⟩
    obtain ⟨f, hf⟩ := ((h.mem_left hw pgn).mp hin).2
    rw [h.home] at hf
    cases hf
  · rw [Caller.swapIn_fifoPgn]
    exact List.cons_ne_nil _ _

/-! ## `pg_getpage` -/

theorem faultOn_of_not_present (hw : WellPaged c) (hm : c.home pgn ≠ none)
    (hp : pagingPagePresent (c.mm.pgd pgn) = false) : ∃ l v s rest, FaultOn c pgn l v s rest := by
  obtain ⟨s, rest, hs⟩ := List.exists_cons_of_ne_nil hw.slot
  rcases List.eq_nil_or_concat c.mm.fifoPgn with hq | ⟨l, v, hq⟩
  · exact absurd hq hw.victim
  · rw [List.concat_eq_append] at hq
    exact ⟨l, v, s, rest, Caller.home_of_not_present hm hp, hq, hs⟩

theorem FaultOn.getpage (h : FaultOn c pgn l v s rest) (hw : WellPaged c) (hd : DevOk c.dev)
    (hp : pagingPagePresent (c.mm.pgd pgn) = false) :
    pgGetpage c pgn = .ok (0, some (pagingFpn (c.mm.pgd v)), c.swapIn pgn l v s rest) := by
  have hpgn : pgn < PAGING_MAX_PGN := Caller.lt_of_home (by rw [h.home]; simp)
  have hv := h.victim_home hw
  rw [pgGetpage_ok_iff hd hpgn]
  exact ⟨.swapIn hp h.queue (Caller.lt_of_home (by rw [hv]; simp)) h.free (hw.ramRange hv) (hw.swpRange h.home), rfl⟩

theorem getpage_present (hd : DevOk c.dev) (hpgn : pgn < PAGING_MAX_PGN)
    (hp : pagingPagePresent (c.mm.pgd pgn) = true) :
    pgGetpage c pgn = .ok (0, some (pagingFpn (c.mm.pgd pgn)), c) := by
  rw [pgGetpage_ok_iff hd hpgn]
  exact ⟨.hit hp, rfl⟩

theorem preserves_not_present (hd : DevOk c.dev) (hw : WellPaged c) (hm : c.home pgn ≠ none)
    (hp : pagingPagePresent (c.mm.pgd pgn) = false) :
    GetpagePreserves c pgn ↔ 1 < (c.dev .activeMswp).freeFpList.length := by
  obtain ⟨l, v, s, rest, hf⟩ := faultOn_of_not_present hw hm hp
  have hget := hf.getpage hw hd hp
  have hv := hf.victim_home hw
  rw [hf.free, List.length_cons, Nat.lt_add_left_iff_pos, List.length_pos_iff]
  constructor
  · intro ⟨fpn, c', hget', _, _, _, hw'⟩
    rw [hget] at hget'
    cases hget'
    exact hw'.slot
  · intro hrest
    refine ⟨_, _, hget, hw.ramRange hv, fun i hi => ?_, fun p hp' i hi => contents_swapIn hf hw hi hp',
      wellPaged_swapIn hf hw hd hrest⟩
    rw [← contents_swapIn hf hw hi hm, Caller.contents, home_swapIn hf hw, if_pos rfl]
    rfl

theorem preserves_present (hd : DevOk c.dev) (hw : WellPaged c) (hpgn : pgn < PAGING_MAX_PGN)
    (hp : pagingPagePresent (c.mm.pgd pgn) = true) :
    GetpagePreserves c pgn ↔ (pagingFpn (c.mm.pgd pgn) + 1) * PAGING_PAGESZ ≤ (c.dev .mram).maxsz ∧
      ∀ i < PAGING_PAGESZ, c.contents pgn i = some (c.frameByte (.mram, pagingFpn (c.mm.pgd pgn)) i) := by
  have hget := getpage_present hd hpgn hp
  constructor
  · intro ⟨fpn, c', hget', hrange, hbytes, _, _⟩
    rw [hget] at hget'
    cases hget'
    exact ⟨hrange, hbytes⟩
  · intro ⟨hrange, hbytes⟩
    exact ⟨_, c, hget, hrange, hbytes, fun _ _ _ _ => rfl, hw⟩

/-- `pg_getpage` preserves the contents of every page if and only if the fault is sound. -/
theorem getpagePreserves_iff (hd : DevOk c.dev) (hw : WellPaged c) (hm : c.home pgn ≠ none) :
    GetpagePreserves c pgn ↔ FaultSound c pgn := by
  have hpgn := Caller.lt_of_home hm
  cases hp : pagingPagePresent (c.mm.pgd pgn) with
  | false =>
    rw [preserves_not_present hd hw hm hp]
    constructor
    · intro hfree
      exact .inr (.inl ⟨hp, hfree⟩)
    · intro hsound
      rcases hsound with hr | ⟨_, hfree⟩ | hs
      · rw [hr.1] at hp
        cases hp
      · exact hfree
      · rw [hs.1.1] at hp
        cases hp
  | true =>
    rw [preserves_present hd hw hpgn hp]
    by_cases hr : InRam (c.mm.pgd pgn)
    · have hhome : c.home pgn = some (.mram, pagingFpn (c.mm.pgd pgn)) := by
        rw [Caller.home_of_lt hpgn, homeOf_inRam hr]
      refine iff_of_true ⟨hw.ramRange hhome, fun i _ => ?_⟩ (.inl hr)
      rw [Caller.contents, hhome]
      rfl
    · have hs : Swapped (c.mm.pgd pgn) := ((present_iff _).mp hp).resolve_left hr
      have hhome : c.home pgn = some (.activeMswp, pagingPteSwp (c.mm.pgd pgn)) := by
        rw [Caller.home_of_lt hpgn, homeOf_swapped hs.2]
      have hbyte : ∀ i, c.contents pgn i = some (c.frameByte (.activeMswp, pagingPteSwp (c.mm.pgd pgn)) i) := by
        intro i
        rw [Caller.contents, hhome]
        rfl
      simp only [hbyte, Option.some_inj]
      constructor
      · intro hsame
        exact .inr (.inr ⟨hs, hsame⟩)
      · intro hsound
        rcases hsound with hr' | ⟨hp', _⟩ | hsame
        · exact absurd hr' hr
        · rw [hp] at hp'
          cases hp'
        · exact hsame.2

/-! ## A swapped page -/

/-- One RAM frame of fives, which page 1 is in, and three swap frames of sevens; page 0 is in the first. -/
def twoPages : Caller where
  mm :=
    { pgd := fun p => if p = 0 then pteSetSwap 0 0 0 else if p = 1 then pteSetFpn 0 0 else 0
      mmap := [⟨0, 0, 512, 512, []⟩]
      symrgtbl := fun i => if i = 0 then ⟨0, 0, 512⟩ else ⟨0, 0, 0⟩
      fifoPgn := [1] }
  dev
    | .mram => ⟨fun _ => 5, 256, true, 0, []⟩
    | .activeMswp => ⟨fun _ => 7, 768, true, 0, [1, 2]⟩

theorem twoPages_devOk : DevOk twoPages.dev where
  random := fun d => by cases d <;> rfl
  maxsz := fun d => by cases d <;> decide
  free := fun d => by cases d <;> decide

theorem twoPages_home (p : Nat) :
    twoPages.home p = if p = 0 then some (.activeMswp, 0) else if p = 1 then some (.mram, 0) else none := by
  by_cases h₀ : p = 0
  · rw [h₀]
    decide
  · by_cases h₁ : p = 1
    · rw [h₁]
      decide
    · rw [if_neg h₀, if_neg h₁, Caller.home]
      split
      · show homeOf (if p = 0 then _ else if p = 1 then _ else 0) = none
        rw [if_neg h₀, if_neg h₁]
        decide
      · rfl

theorem twoPages_wellPaged : WellPaged twoPages where
  distinct := fun p q frame hp hq => by
    rw [twoPages_home] at hp hq
    split at hp <;> split at hq <;> grind
  range := fun p frame hp => by
    rw [twoPages_home] at hp
    split at hp
    · cases hp
      decide
    · split at hp
      · cases hp
        decide
      · cases hp
  used := fun p s hp => by
    rw [twoPages_home] at hp
    split at hp
    · cases hp
      decide
    · split at hp
      · cases hp
      · cases hp
  resident := fun p => by
    rw [twoPages_home]
    show p ∈ [1] ↔ _
    rw [List.mem_singleton]
    by_cases h₀ : p = 0
    · simp [h₀]
    · by_cases h₁ : p = 1
      · simp [h₁]
      · simp [h₀, h₁]
  once := by decide
  victim := by decide
  freeOnce := by decide
  named := by decide
  slot := by decide

theorem WellPaged.of_home {c' : Caller} (h : WellPaged c) (hhome : ∀ p, c'.home p = c.home p) (hdev : c'.dev = c.dev)
    (hq : c'.mm.fifoPgn = c.mm.fifoPgn) : WellPaged c' where
  distinct := fun p q frame => by
    rw [hhome, hhome]
    exact h.distinct p q frame
  range := fun p frame => by
    rw [hhome, hdev]
    exact h.range p frame
  used := fun p s => by
    rw [hhome, hdev]
    exact h.used p s
  resident := fun p => by
    rw [hhome, hq]
    exact h.resident p
  once := hq ▸ h.once
  victim := hq ▸ h.victim
  freeOnce := hdev ▸ h.freeOnce
  named := hdev ▸ h.named
  slot := hdev ▸ h.slot

/-- `twoPages` with page 0 swapped and not marked present. -/
def absentPage : Caller where
  mm :=
    { twoPages.mm with pgd := Function.update twoPages.mm.pgd 0 (clrbit (twoPages.mm.pgd 0) PAGING_PTE_PRESENT_MASK) }
  dev := twoPages.dev

theorem absentPage_home (p : Nat) : absentPage.home p = twoPages.home p := by
  by_cases h₀ : p = 0
  · rw [h₀]
    decide
  · simp only [Caller.home, absentPage, Function.update_of_ne h₀]

/-- A fault on the page in swap. -/
theorem getpagePreserves_iff_absent : pagingPagePresent (absentPage.mm.pgd 0) = false ∧ FaultSound absentPage 0 ∧
    (GetpagePreserves absentPage 0 ↔ FaultSound absentPage 0) := by
  have hp : pagingPagePresent (absentPage.mm.pgd 0) = false := by decide
  have hwell := twoPages_wellPaged.of_home absentPage_home rfl rfl
  exact ⟨hp, .inr (.inl ⟨hp, by decide⟩), getpagePreserves_iff twoPages_devOk hwell (by decide)⟩

/-- A swapped page is taken for a resident one: page 0 is delivered in the frame that holds page 1. -/
theorem swapped_page_lost : DevOk twoPages.dev ∧ WellPaged twoPages ∧ twoPages.home 0 = some (.activeMswp, 0) ∧
    pgGetpage twoPages 0 = .ok (0, some 0, twoPages) ∧ ¬ GetpagePreserves twoPages 0 := by
  refine ⟨twoPages_devOk, twoPages_wellPaged, by decide, getpage_present twoPages_devOk (by decide) (by decide),
    fun hpres => ?_⟩
  have hbyte := ((preserves_present twoPages_devOk twoPages_wellPaged (by decide) (by decide)).mp hpres).2 0 (by decide)
  exact absurd hbyte (by decide)

end SimpleOs.Mm
