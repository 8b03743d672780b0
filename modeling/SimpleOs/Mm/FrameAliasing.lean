import SimpleOs.Mm.FrameLedger

/-!
# No RAM frame is named twice

* `MemSys.NoAliasing` : entries in RAM name distinct frames of the device, none of them free;
* `no_frame_aliasing` : it holds in every run whose faults evict pages that are in RAM;
* `frame_aliasing` : a run whose fault evicts a page that was swapped out before.
-/

namespace SimpleOs.Mm
open CInt

/-- The entries that mark their page as held in RAM name frames of the device, each its own, and none
of the free list. -/
structure MemSys.NoAliasing (ram : Nat) (s : MemSys) : Prop where
  lt : ∀ i p, InRam ((s.mm i).pgd p) → pagingFpn ((s.mm i).pgd p) < ram / PAGING_PAGESZ
  inj : ∀ i p j q, InRam ((s.mm i).pgd p) → InRam ((s.mm j).pgd q) →
    pagingFpn ((s.mm i).pgd p) = pagingFpn ((s.mm j).pgd q) → i = j ∧ p = q
  free : ∀ i p, InRam ((s.mm i).pgd p) → pagingFpn ((s.mm i).pgd p) ∉ (s.dev .mram).freeFpList

variable {ram swp : Nat} {s : MemSys} {h : History}

theorem MemSys.ramRefs_eq {i p : Nat} (hp : InRam ((s.mm i).pgd p)) :
    s.ramRefs (i, p) = some (pagingFpn ((s.mm i).pgd p)) := ramFrame_eq_some.mpr ⟨hp, rfl⟩

theorem noAliasing_of_ledger (hL : Ledger (ram / PAGING_PAGESZ) (s.dev .mram).freeFpList s.ramRefs) :
    s.NoAliasing ram where
  lt := fun i p hp => hL.ref_lt (i, p) _ (MemSys.ramRefs_eq hp)
  inj := fun i p j q hp hq he =>
    Prod.mk.inj (hL.inj (i, p) (j, q) _ (MemSys.ramRefs_eq hp) (he ▸ MemSys.ramRefs_eq hq))
  free := fun i p hp => hL.notMem (i, p) _ (MemSys.ramRefs_eq hp)

theorem framesFit_of_pool_lt {pid : Nat} {call : MemCall} (h : ∀ f ∈ (s.dev .mram).freeFpList, f < 2 ^ 13) :
    s.FramesFit pid call := by
  cases call with
  | alloc => exact fun _ _ _ _ f hf => h f (List.mem_of_mem_take hf)
  | free => trivial
  | read => trivial
  | write => trivial

/-- No frame aliasing: up to 2 MB of RAM, in every run whose faults evict a page that is in RAM. -/
theorem no_frame_aliasing (hram : ram ≤ 2 ^ 21) (hswp : swp < 2 ^ 31)
    (hrun : Run sysCall (MemSys.boot ram swp) h s)
    (hvictim : ∀ e ∈ h, e.before.VictimInRam e.act.1 e.act.2) : s.NoAliasing ram := by
  have hfit : ∀ f, f < ram / PAGING_PAGESZ → f < 2 ^ 13 := by
    intro f hf
    have hdiv : ram / PAGING_PAGESZ ≤ 2 ^ 21 / PAGING_PAGESZ := Nat.div_le_div_right hram
    exact hf.trans_le hdiv
  refine noAliasing_of_ledger (hrun.guarded (I := fun _ s => s.Ok ram swp ∧
    Ledger (ram / PAGING_PAGESZ) (s.dev .mram).freeFpList s.ramRefs) (C := fun s act => s.VictimInRam act.1 act.2)
    ⟨boot_ok (by omega) hswp, boot_ramLedger ram swp⟩ ?_ hvictim).2
  rintro - s act r s' ⟨hs, hL⟩ hv hx
  have hfits : s.FramesFit act.1 act.2 := framesFit_of_pool_lt fun f hf => hfit f (hL.pool_lt f hf)
  exact ⟨sysCall_ok hs hx, ramLedger_step hs hx hL hfits hv⟩

theorem no_frame_aliasing_fault : ∃ h s, Run sysCall (MemSys.boot 2048 4096) h s ∧
    h.map Entry.act = [(1, .write 5 0 0), (0, .read 1 0), (1, .alloc 300 0), (0, .alloc 256 1), (0, .alloc 256 0)] ∧
    s.NoAliasing 2048 := by
  obtain ⟨h, s, hrun, hact, hp⟩ := exists_run_of_replay sysCall (MemSys.boot 2048 4096)
    [(1, .write 5 0 0), (0, .read 1 0), (1, .alloc 300 0), (0, .alloc 256 1), (0, .alloc 256 0)]
    (fun h _ => decide (∀ e ∈ h, e.before.VictimInRam e.act.1 e.act.2)) (by decide +kernel)
  exact ⟨h, s, hrun, hact, no_frame_aliasing (by decide) (by decide) hrun (of_decide_eq_true hp)⟩

/-- Growth enlists page 2 a second time, its first copy is evicted to slot 2, and the fault on page 8
evicts the second copy: it takes the slot field of the swapped entry for a frame number, 64, which is
free. -/
theorem frame_aliasing : ¬ ∀ ram swp : Nat, ram ≤ 2 ^ 21 → swp < 2 ^ 31 → ∀ h s,
    Run sysCall (MemSys.boot ram swp) h s → s.NoAliasing ram := by
  intro hall
  obtain ⟨h, s, hrun, -, hp⟩ := exists_run_of_replay sysCall (MemSys.boot 32768 4096)
    [(0, .read 4 0), (0, .alloc 256 4), (0, .read 3 0), (0, .alloc 256 3), (0, .read 2 0), (0, .alloc 256 2),
      (0, .read 1 0), (0, .alloc 256 1), (0, .read 0 0), (0, .alloc 256 0)]
    (fun _ s => decide (InRam ((s.mm 0).pgd 8) ∧ pagingFpn ((s.mm 0).pgd 8) = 64 ∧
      64 ∈ (s.dev .mram).freeFpList)) (by decide +kernel)
  obtain ⟨hin, hfpn, hfree⟩ := of_decide_eq_true hp
  have hnot := (hall 32768 4096 (by decide) (by decide) h s hrun).free 0 8 hin
  rw [hfpn] at hnot
  exact hnot hfree

end SimpleOs.Mm
