import Mathlib.Algebra.BigOperators.Fin
import Ossim.Mm.Frames
import Ossim.Mm.SwapFrames

/-!
# Giving the frames of a process back (`free_pcb_memph`)

`free_pcb_memph` goes through the page table and gives one frame number back for every entry. Which
device it goes to depends on the present bit, and the test is the wrong way round: an entry that is
not present yields a RAM frame, and one that is present yields the swap offset in its bits, also if
its page is in RAM. So a resident page never returns its frame, and every page that was never mapped
returns RAM frame 0 (`released_ram`, `released_swap`).

What the function is for, `FramesReturned`, is therefore met by the page tables without resident and
without unmapped pages only.
-/

namespace Ossim.Mm

/-- The page table of a process that may be terminated: every entry is resident, swapped out or
zero, and the frames it names are its own. -/
structure Terminable (c : Pcb) : Prop where
  entries : ∀ p, resident (c.mm.pgd p) = true ∨ swappedOut (c.mm.pgd p) = true ∨ c.mm.pgd p = 0
  ramDistinct : (residentFrames c.mm.pgd).Nodup
  ramApart : ∀ f ∈ residentFrames c.mm.pgd, f ∉ c.mram.freeFpList
  swapDistinct : (swappedFrames c.mm.pgd).Nodup
  swapApart : ∀ f ∈ swappedFrames c.mm.pgd, f ∉ c.activeMswp.freeFpList

/-- Both free lists have got exactly the frames of the process, and hold no frame twice. -/
structure FramesReturned (c c' : Pcb) : Prop where
  ram : (c'.mram.freeFpList : Multiset Nat) = c.mram.freeFpList + residentFrames c.mm.pgd
  swap : (c'.activeMswp.freeFpList : Multiset Nat) =
    c.activeMswp.freeFpList + swappedFrames c.mm.pgd
  ramNodup : c'.mram.freeFpList.Nodup
  swapNodup : c'.activeMswp.freeFpList.Nodup

/-! ## What the loop gives back -/

/-- What an entry adds to the free list of RAM. -/
def releasedRam (pte : Pte) : Multiset Nat := if pagingPagePresent pte then 0 else {pagingFpn pte}

/-- What an entry adds to the free list of swap. -/
def releasedSwap (pte : Pte) : Multiset Nat :=
  if pagingPagePresent pte then {pagingPteSwp pte} else 0

namespace Pcb

theorem freeFrame_of_present {c : Pcb} {p : Pgn} (h : pagingPagePresent (c.mm.pgd p) = true) :
    c.freeFrame p =
      { c with activeMswp := c.activeMswp.putFreefp (pagingPteSwp (c.mm.pgd p)) } := by
  simp only [freeFrame, h, Bool.not_true, Bool.false_eq_true, if_false]

theorem freeFrame_of_absent {c : Pcb} {p : Pgn} (h : pagingPagePresent (c.mm.pgd p) = false) :
    c.freeFrame p = { c with mram := c.mram.putFreefp (pagingFpn (c.mm.pgd p)) } := by
  simp only [freeFrame, h, Bool.not_false, if_true]

/-- A round leaves the page table alone. -/
theorem freeFrame_mm (c : Pcb) (p : Pgn) : (c.freeFrame p).mm = c.mm := by
  cases hpresent : pagingPagePresent (c.mm.pgd p) with
  | true => rw [freeFrame_of_present hpresent]
  | false => rw [freeFrame_of_absent hpresent]

theorem freeFrame_ram (c : Pcb) (p : Pgn) :
    ((c.freeFrame p).mram.freeFpList : Multiset Nat) =
      c.mram.freeFpList + releasedRam (c.mm.pgd p) := by
  unfold releasedRam
  cases hpresent : pagingPagePresent (c.mm.pgd p) with
  | true => rw [freeFrame_of_present hpresent, if_pos rfl, add_zero]
  | false =>
      rw [freeFrame_of_absent hpresent, if_neg Bool.false_ne_true, Memphy.putFreefp,
        ← Multiset.cons_coe, ← Multiset.singleton_add, add_comm]

theorem freeFrame_swap (c : Pcb) (p : Pgn) :
    ((c.freeFrame p).activeMswp.freeFpList : Multiset Nat) =
      c.activeMswp.freeFpList + releasedSwap (c.mm.pgd p) := by
  unfold releasedSwap
  cases hpresent : pagingPagePresent (c.mm.pgd p) with
  | true =>
      rw [freeFrame_of_present hpresent, if_pos rfl, Memphy.putFreefp, ← Multiset.cons_coe,
        ← Multiset.singleton_add, add_comm]
  | false => rw [freeFrame_of_absent hpresent, if_neg Bool.false_ne_true, add_zero]

theorem freeFrames_ram (c : Pcb) (pages : List Pgn) :
    ((pages.foldl freeFrame c).mram.freeFpList : Multiset Nat) =
      c.mram.freeFpList + (pages.map fun p => releasedRam (c.mm.pgd p)).sum := by
  induction pages generalizing c with
  | nil => simp
  | cons p pages ih =>
      rw [List.foldl_cons, ih, freeFrame_ram, freeFrame_mm, List.map_cons, List.sum_cons, add_assoc]

theorem freeFrames_swap (c : Pcb) (pages : List Pgn) :
    ((pages.foldl freeFrame c).activeMswp.freeFpList : Multiset Nat) =
      c.activeMswp.freeFpList + (pages.map fun p => releasedSwap (c.mm.pgd p)).sum := by
  induction pages generalizing c with
  | nil => simp
  | cons p pages ih =>
      rw [List.foldl_cons, ih, freeFrame_swap, freeFrame_mm, List.map_cons, List.sum_cons, add_assoc]

/-- RAM gets a frame number from every entry that is not present. -/
theorem released_ram (c : Pcb) : (c.freePcbMemph.mram.freeFpList : Multiset Nat) =
    c.mram.freeFpList + ∑ p, releasedRam (c.mm.pgd p) := by
  unfold freePcbMemph
  rw [freeFrames_ram, ← Fin.sum_univ_def]

/-- Swap gets one from every entry that is. -/
theorem released_swap (c : Pcb) : (c.freePcbMemph.activeMswp.freeFpList : Multiset Nat) =
    c.activeMswp.freeFpList + ∑ p, releasedSwap (c.mm.pgd p) := by
  unfold freePcbMemph
  rw [freeFrames_swap, ← Fin.sum_univ_def]

end Pcb

/-! ## When these are the frames of the process -/

/-- To swap goes what should go there, and for a resident page something more. -/
theorem releasedSwap_eq (pte : Pte) :
    releasedSwap pte = swapOf pte + if resident pte then {pagingPteSwp pte} else 0 := by
  unfold releasedSwap swapOf
  cases hpresent : pagingPagePresent pte <;> cases hswapped : pteSwapped pte <;>
    simp [resident, swappedOut, hpresent, hswapped]

/-- If the right frames come back, every page was swapped out. -/
theorem swappedOut_of_framesReturned {c : Pcb} (h : FramesReturned c c.freePcbMemph) (p : Pgn) :
    swappedOut (c.mm.pgd p) = true := by
  have hswap := h.swap
  rw [Pcb.released_swap, add_right_inj] at hswap
  simp only [releasedSwap_eq, Finset.sum_add_distrib] at hswap
  -- nothing can come from resident pages, so there are none
  have hextra : ∑ q, (if resident (c.mm.pgd q) then {pagingPteSwp (c.mm.pgd q)}
      else (0 : Multiset Nat)) = 0 := by
    unfold swappedFrames at hswap
    exact add_eq_left.mp hswap
  have hresident : ∀ q, resident (c.mm.pgd q) = false := by
    intro q
    have hzero := Finset.sum_eq_zero_iff.mp hextra q (Finset.mem_univ q)
    cases hq : resident (c.mm.pgd q) with
    | false => rfl
    | true => simp [hq] at hzero
  -- then RAM gets nothing, so all pages are present
  have hram := h.ram
  have hnone : residentFrames c.mm.pgd = 0 :=
    Finset.sum_eq_zero fun q _ => frameOf_of_not_resident (hresident q)
  rw [Pcb.released_ram, hnone, add_right_inj] at hram
  have hpresent := Finset.sum_eq_zero_iff.mp hram p (Finset.mem_univ p)
  cases hp : pagingPagePresent (c.mm.pgd p) with
  | false => simp [releasedRam, hp] at hpresent
  | true =>
      cases hout : swappedOut (c.mm.pgd p) with
      | true => rfl
      | false => exact absurd (resident_of_present hp hout) (by simp [hresident p])

/-- **Terminating a process returns exactly its frames if and only if all its pages are swapped
out**, and the free lists have no frame twice to begin with. -/
theorem frames_returned_iff {c : Pcb} (h : Terminable c) :
    FramesReturned c c.freePcbMemph ↔
      (∀ p, swappedOut (c.mm.pgd p) = true) ∧ c.mram.freeFpList.Nodup ∧
        c.activeMswp.freeFpList.Nodup := by
  constructor
  · intro hret
    have hout := swappedOut_of_framesReturned hret
    refine ⟨hout, ?_, ?_⟩
    · have hnodup := Multiset.coe_nodup.mpr hret.ramNodup
      rw [hret.ram] at hnodup
      exact Multiset.coe_nodup.mp (Multiset.nodup_of_le (Multiset.le_add_right _ _) hnodup)
    · have hnodup := Multiset.coe_nodup.mpr hret.swapNodup
      rw [hret.swap] at hnodup
      exact Multiset.coe_nodup.mp (Multiset.nodup_of_le (Multiset.le_add_right _ _) hnodup)
  · rintro ⟨hout, hramNodup, hswapNodup⟩
    have hpresent : ∀ p, pagingPagePresent (c.mm.pgd p) = true := by
      intro p
      have hp := hout p
      unfold swappedOut at hp
      exact (Bool.and_eq_true _ _ ▸ hp).1
    have hresident : ∀ p, resident (c.mm.pgd p) = false := by
      intro p
      have hp := hout p
      unfold swappedOut at hp
      simp_all [resident]
    have hram : (c.freePcbMemph.mram.freeFpList : Multiset Nat) =
        c.mram.freeFpList + residentFrames c.mm.pgd := by
      rw [Pcb.released_ram]
      congr 1
      exact Finset.sum_congr rfl fun p _ => by
        rw [frameOf_of_not_resident (hresident p), releasedRam, if_pos (hpresent p)]
    have hswap : (c.freePcbMemph.activeMswp.freeFpList : Multiset Nat) =
        c.activeMswp.freeFpList + swappedFrames c.mm.pgd := by
      rw [Pcb.released_swap]
      congr 1
      exact Finset.sum_congr rfl fun p _ => by
        rw [swapOf_of_swappedOut (hout p), releasedSwap, if_pos (hpresent p)]
    refine ⟨hram, hswap, ?_, ?_⟩
    · rw [← Multiset.coe_nodup, hram, Multiset.nodup_add]
      exact ⟨Multiset.coe_nodup.mpr hramNodup, h.ramDistinct,
        Multiset.disjoint_right.mpr fun hf hmem => h.ramApart _ hf (Multiset.mem_coe.mp hmem)⟩
    · rw [← Multiset.coe_nodup, hswap, Multiset.nodup_add]
      exact ⟨Multiset.coe_nodup.mpr hswapNodup, h.swapDistinct,
        Multiset.disjoint_right.mpr fun hf hmem => h.swapApart _ hf (Multiset.mem_coe.mp hmem)⟩

/-- A process with one page, in RAM frame 0. -/
def oneMapped : Pcb where
  mm := freshMm.mapPage (pagingPgn 0) 0
  mram := { fourFrames with freeFpList := [1, 2, 3] }
  activeMswp := fourFrames

theorem terminable_oneMapped : Terminable oneMapped := by
  have hzero : residentFrames freshMm.pgd = 0 :=
    Finset.sum_eq_zero fun _ _ => frameOf_of_not_resident resident_zero
  have hram : residentFrames oneMapped.mm.pgd = {0} := by
    have hupdate := residentFrames_update freshMm.pgd (pagingPgn 0) (pteSetFpn 0 0)
    rw [hzero, frameOf_pteSetFpn 0 (by decide), zero_add,
      show frameOf (freshMm.pgd (pagingPgn 0)) = 0 from frameOf_of_not_resident resident_zero,
      add_zero] at hupdate
    exact hupdate
  have hswap : swappedFrames oneMapped.mm.pgd = 0 := by
    refine Finset.sum_eq_zero fun p _ => swapOf_of_not_swappedOut ?_
    simp only [oneMapped, MmStruct.mapPage, Function.update_apply]
    split
    · exact swappedOut_pteSetFpn _ _
    · exact show swappedOut 0 = false by decide
  refine ⟨fun p => ?_, ?_, ?_, ?_, ?_⟩
  · simp only [oneMapped, MmStruct.mapPage, Function.update_apply]
    split
    · exact .inl (resident_pteSetFpn _ _)
    · exact .inr (.inr rfl)
  · rw [hram]
    exact Multiset.nodup_singleton 0
  · rw [hram]
    decide
  · rw [hswap]
    exact Multiset.nodup_zero
  · simp [hswap]

theorem frames_returned_iff_oneMapped :
    Terminable oneMapped ∧
      (FramesReturned oneMapped oneMapped.freePcbMemph ↔
        (∀ p, swappedOut (oneMapped.mm.pgd p) = true) ∧ oneMapped.mram.freeFpList.Nodup ∧
          oneMapped.activeMswp.freeFpList.Nodup) :=
  ⟨terminable_oneMapped, frames_returned_iff terminable_oneMapped⟩

/-- Its frame does not come back. -/
theorem resident_frame_not_returned :
    Terminable oneMapped ∧ ¬ FramesReturned oneMapped oneMapped.freePcbMemph := by
  refine ⟨terminable_oneMapped, ?_⟩
  intro hret
  exact absurd (swappedOut_of_framesReturned hret (pagingPgn 0)) (by decide)

end Ossim.Mm
