import Ossim.Mm.Frames

/-!
# Where the swap frames are

The entry of an evicted page names the swap frame that its bytes went to. `swappedFrames` collects
these frames over the pages of a process, and `MemSystem.swapFrames` adds those of all processes and
the free list. A fault moves a frame from the list into the entry of the victim. Nothing ever
returns one, and a heap that grows over an evicted page forgets the frame in its entry; so the total
can shrink but not grow, and no frame is in it twice.
-/

namespace Ossim.Mm

/-- The swap frame an entry names, if its page is swapped out. -/
def swapOf (pte : Pte) : Multiset Nat := if swappedOut pte then {pagingPteSwp pte} else 0

/-- The swap frames of the evicted pages. -/
def swappedFrames (pgd : Pgn → Pte) : Multiset Nat := ∑ p, swapOf (pgd p)

theorem swapOf_of_swappedOut {pte : Pte} (h : swappedOut pte = true) :
    swapOf pte = {pagingPteSwp pte} := by
  simp [swapOf, h]

theorem swapOf_of_not_swappedOut {pte : Pte} (h : swappedOut pte = false) : swapOf pte = 0 := by
  simp [swapOf, h]

/-- Writing one entry exchanges its swap frame. -/
theorem swappedFrames_update (pgd : Pgn → Pte) (p : Pgn) (pte : Pte) :
    swappedFrames (Function.update pgd p pte) + swapOf (pgd p) = swappedFrames pgd + swapOf pte :=
  FamilySum.sum_update_add (fun _ => swapOf) pgd p pte

theorem mem_swappedFrames {pgd : Pgn → Pte} {p : Pgn} (h : swappedOut (pgd p) = true) :
    pagingPteSwp (pgd p) ∈ swappedFrames pgd := by
  refine Multiset.mem_of_le (FamilySum.le_sum_multiset (fun q => swapOf (pgd q)) p) ?_
  rw [swapOf_of_swappedOut h]
  exact Multiset.mem_singleton_self _

/-- Mapping a page forgets the swap frame it had. -/
theorem swappedFrames_map_le (pgd : Pgn → Pte) (p : Pgn) (pte : Pte) (fpn : Nat) :
    swappedFrames (Function.update pgd p (pteSetFpn pte fpn)) ≤ swappedFrames pgd := by
  have hupdate := swappedFrames_update pgd p (pteSetFpn pte fpn)
  rw [swapOf_of_not_swappedOut (swappedOut_pteSetFpn pte fpn), add_zero] at hupdate
  exact hupdate ▸ Multiset.le_add_right _ _

/-- Evicting a page adds its swap frame at most. -/
theorem swappedFrames_evict_le (pgd : Pgn → Pte) (v : Pgn) (pte : Pte) {s : Nat} (hs : s < 2 ^ 21) :
    swappedFrames (Function.update pgd v (pteSetSwap pte 0 s)) ≤ swappedFrames pgd + {s} := by
  have hupdate := swappedFrames_update pgd v (pteSetSwap pte 0 s)
  rw [swapOf_of_swappedOut (swappedOut_pteSetSwap pte 0 s), pagingPteSwp_pteSetSwap pte 0 hs]
    at hupdate
  exact hupdate ▸ Multiset.le_add_right _ _

theorem Mapped.swappedFrames_le {pgd pgd' : Pgn → Pte} {fifo fifo' : List Pgn} {n : Nat}
    {frames : List Nat} (h : Mapped pgd fifo n frames pgd' fifo') :
    swappedFrames pgd' ≤ swappedFrames pgd := by
  induction h with
  | nil => exact le_rfl
  | cons p hp _ ih => exact ih.trans (swappedFrames_map_le _ p _ _)

/-- **No operation names a swap frame that was neither free nor named before.** -/
theorem PageStep.swappedFrames_le {c c' : Pcb} (h : PageStep c c')
    (hlt : ∀ f ∈ c.activeMswp.freeFpList, f < 2 ^ 21) :
    swappedFrames c'.mm.pgd + ↑c'.activeMswp.freeFpList ≤
      swappedFrames c.mm.pgd + ↑c.activeMswp.freeFpList := by
  cases h with
  | same hpgd hfifo hram hswap => rw [hpgd, hswap]
  | mapped hram hmapped hnew hswap =>
      rw [hswap]
      exact add_le_add_left hmapped.swappedFrames_le _
  | @fault p v newer s habsent hlist hswap hpgd hlist' hram =>
      obtain ⟨pte, pte', hpgd⟩ := hpgd
      have hs : s < 2 ^ 21 := hlt s (by simp [hswap])
      have hle := (swappedFrames_map_le (Function.update c.mm.pgd v (pteSetSwap pte 0 s)) p pte'
        (pagingFpn (c.mm.pgd v))).trans (swappedFrames_evict_le c.mm.pgd v pte hs)
      rw [hpgd, hswap, ← Multiset.cons_coe, ← Multiset.singleton_add, ← add_assoc]
      exact add_le_add_left hle _

/-! ## The whole system -/

variable {ι : Type} [Fintype ι]

/-- The free swap frames and those of the evicted pages of all processes. -/
def MemSystem.swapFrames (s : MemSystem ι) : Multiset Nat :=
  ↑s.activeMswp.freeFpList + ∑ i, swappedFrames (s.mm i).pgd

/-- The swap frames of the system are among `F`. -/
def SwapKept (F : Multiset Nat) (s : MemSystem ι) : Prop := s.swapFrames ≤ F

theorem SwapKept.step [DecidableEq ι] {F : Multiset Nat} (hF : ∀ f ∈ F, f < 2 ^ 21)
    {s s' : MemSystem ι} {a : ι × MemOp} (hs : SwapKept F s) (hnew : GrowsNew s a)
    (h : MemSystem.Step s a s') : SwapKept F s' := by
  obtain ⟨c', hexec, rfl⟩ := MemSystem.step_cases h
  have hle := (MemOp.pageStep hnew hexec).swappedFrames_le fun f hf =>
    hF f (Multiset.mem_of_le hs (Multiset.mem_add.mpr (.inl (Multiset.mem_coe.mpr hf))))
  exact (FamilySum.add_sum_update_le (fun _ (mm : MmStruct) => swappedFrames mm.pgd) s.mm a.1 c'.mm
    hle).trans hs

/-- The swap frame of an evicted page is not free. -/
theorem SwapKept.not_free {F : Multiset Nat} (hF : F.Nodup) {s : MemSystem ι} (hs : SwapKept F s)
    {i : ι} {p : Pgn} (hp : swappedOut ((s.mm i).pgd p) = true) :
    pagingPteSwp ((s.mm i).pgd p) ∉ s.activeMswp.freeFpList := by
  intro hfree
  have hnodup : s.swapFrames.Nodup := Multiset.nodup_of_le hs hF
  exact Multiset.disjoint_left.mp (Multiset.nodup_add.mp hnodup).2.2 (Multiset.mem_coe.mpr hfree)
    (Multiset.mem_of_le (FamilySum.le_sum_multiset (fun j => swappedFrames (s.mm j).pgd) i)
      (mem_swappedFrames hp))

/-- No page of an unmapped system is swapped out. -/
theorem Unmapped.swapKept {F : Multiset Nat} {s : MemSystem ι} (h : Unmapped F s) :
    SwapKept ↑s.activeMswp.freeFpList s := by
  have hzero : ∀ i, swappedFrames (s.mm i).pgd = 0 := fun i =>
    Finset.sum_eq_zero fun p _ => swapOf_of_not_swappedOut (by simp [swappedOut, h.absent i p])
  unfold SwapKept MemSystem.swapFrames
  rw [Finset.sum_eq_zero fun i _ => hzero i, add_zero]

theorem swapKept_of_run [DecidableEq ι] {F : Multiset Nat} {s₀ s : MemSystem ι}
    {as : List (ι × MemOp)} (hinit : Unmapped F s₀)
    (hlt : ∀ f ∈ s₀.activeMswp.freeFpList, f < 2 ^ 21)
    (hrun : Steps (Steps.Meeting GrowsNew MemSystem.Step) s₀ as s) :
    SwapKept ↑s₀.activeMswp.freeFpList s :=
  hrun.state_invariant hinit.swapKept fun _ _ _ hs h =>
    hs.step (fun f hf => hlt f (Multiset.mem_coe.mp hf)) h.1 h.2

end Ossim.Mm
