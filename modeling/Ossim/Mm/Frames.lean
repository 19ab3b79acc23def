import Ossim.Library.Sum
import Ossim.Mm.MemOp

/-!
# Where the RAM frames are

Every frame of RAM is on the free list or mapped by one resident page. `residentFrames` collects the
frames the resident pages of a process map, and `MemSystem.frames` adds those of all processes and
the free list. Mapping moves frames from the list to pages and a fault moves a frame from one page
to another, so this total never changes; and since no frame occurs in it twice, no two pages share
one.

The list of mapped pages is kept in step: `FifoExact` says that it holds the resident pages of the
process, each once.

Both fail if the heap grows over a page that a fault has already populated: the entry is
overwritten, its frame is lost, and the page is enlisted a second time.
-/

namespace Ossim.Mm

/-! ## The frames of a page directory -/

/-- The frame an entry maps, if it is resident. -/
def frameOf (pte : Pte) : Multiset Nat := if resident pte then {pagingFpn pte} else 0

/-- The frames the resident pages map. -/
def residentFrames (pgd : Pgn → Pte) : Multiset Nat := ∑ p, frameOf (pgd p)

theorem frameOf_of_not_resident {pte : Pte} (h : resident pte = false) : frameOf pte = 0 := by
  simp [frameOf, h]

theorem frameOf_of_resident {pte : Pte} (h : resident pte = true) :
    frameOf pte = {pagingFpn pte} := by
  simp [frameOf, h]

theorem frameOf_pteSetFpn (pte : Pte) {fpn : Nat} (h : fpn < 2 ^ 13) :
    frameOf (pteSetFpn pte fpn) = {fpn} := by
  rw [frameOf_of_resident (resident_pteSetFpn pte fpn), pagingFpn_pteSetFpn pte h]

/-- Writing one entry exchanges its frame. -/
theorem residentFrames_update (pgd : Pgn → Pte) (p : Pgn) (pte : Pte) :
    residentFrames (Function.update pgd p pte) + frameOf (pgd p) =
      residentFrames pgd + frameOf pte := by
  unfold residentFrames
  exact FamilySum.sum_update_add (fun _ => frameOf) pgd p pte

theorem mem_residentFrames {pgd : Pgn → Pte} {p : Pgn} (h : resident (pgd p) = true) :
    pagingFpn (pgd p) ∈ residentFrames pgd := by
  have hle := FamilySum.le_sum_multiset (fun q => frameOf (pgd q)) p
  unfold residentFrames
  refine Multiset.mem_of_le hle ?_
  rw [frameOf_of_resident h]
  exact Multiset.mem_singleton_self _

/-- In a directory without a repeated frame, the frame determines the page. -/
theorem eq_of_pagingFpn_eq {pgd : Pgn → Pte} (h : (residentFrames pgd).Nodup) {p q : Pgn}
    (hp : resident (pgd p) = true) (hq : resident (pgd q) = true)
    (heq : pagingFpn (pgd p) = pagingFpn (pgd q)) : p = q := by
  unfold residentFrames at h
  exact FamilySum.eq_of_mem_of_nodup (m := fun r => frameOf (pgd r)) h (a := pagingFpn (pgd p))
    (by rw [frameOf_of_resident hp]; exact Multiset.mem_singleton_self _)
    (by rw [frameOf_of_resident hq, heq]; exact Multiset.mem_singleton_self _)

/-! ## The list of mapped pages -/

/-- The list holds exactly the resident pages, each once. -/
structure FifoExact (pgd : Pgn → Pte) (fifo : List Pgn) : Prop where
  nodup : fifo.Nodup
  mem_iff : ∀ p, p ∈ fifo ↔ resident (pgd p) = true

/-- Mapping a page that is not resident. -/
theorem FifoExact.map_page {pgd : Pgn → Pte} {fifo : List Pgn} (h : FifoExact pgd fifo) {p : Pgn}
    (hp : resident (pgd p) = false) (pte : Pte) (fpn : Nat) :
    FifoExact (Function.update pgd p (pteSetFpn pte fpn)) (p :: fifo) := by
  refine ⟨List.nodup_cons.mpr ⟨?_, h.nodup⟩, fun q => ?_⟩
  · rw [h.mem_iff, hp]
    simp
  · rcases eq_or_ne q p with rfl | hne
    · simp
    · simp [hne, h.mem_iff]

/-- Evicting the oldest page. -/
theorem FifoExact.evict {pgd : Pgn → Pte} {newer : List Pgn} {v : Pgn}
    (h : FifoExact pgd (newer ++ [v])) (pte : Pte) (s : Nat) :
    FifoExact (Function.update pgd v (pteSetSwap pte 0 s)) newer := by
  have hv : v ∉ newer := fun hmem => by
    have := (List.nodup_append.mp h.nodup).2.2 v hmem v (by simp)
    exact this rfl
  refine ⟨(List.nodup_append.mp h.nodup).1, fun q => ?_⟩
  rcases eq_or_ne q v with rfl | hne
  · simp [hv]
  · rw [Function.update_of_ne hne, ← h.mem_iff]
    simp [hne]

/-! ## Mapping and faults -/

theorem Mapped.residentFrames {pgd pgd' : Pgn → Pte} {fifo fifo' : List Pgn} {n : Nat}
    {frames : List Nat} (h : Mapped pgd fifo n frames pgd' fifo')
    (hnew : ∀ p : Pgn, n ≤ p → (p : Nat) < n + frames.length → resident (pgd p) = false)
    (hlt : ∀ f ∈ frames, f < 2 ^ 13) :
    Mm.residentFrames pgd' = Mm.residentFrames pgd + ↑frames := by
  induction h with
  | nil => simp
  | @cons pgd pgd' fifo fifo' n fpn frames p hp _ ih =>
      simp only [List.length_cons] at hnew
      have hhead := residentFrames_update pgd p (pteSetFpn (pgd p) fpn)
      rw [frameOf_of_not_resident (hnew p (by omega) (by omega)),
        frameOf_pteSetFpn _ (hlt fpn (by simp)), add_zero] at hhead
      rw [ih (fun q hlo hhi => ?_) fun f hf => hlt f (List.mem_cons_of_mem _ hf), hhead, add_assoc,
        Multiset.singleton_add, Multiset.cons_coe]
      have hne : q ≠ p := by
        rintro rfl
        omega
      rw [Function.update_of_ne hne]
      exact hnew q (by omega) (by omega)

theorem Mapped.fifoExact {pgd pgd' : Pgn → Pte} {fifo fifo' : List Pgn} {n : Nat}
    {frames : List Nat} (h : Mapped pgd fifo n frames pgd' fifo')
    (hnew : ∀ p : Pgn, n ≤ p → (p : Nat) < n + frames.length → resident (pgd p) = false)
    (hfifo : FifoExact pgd fifo) : FifoExact pgd' fifo' := by
  induction h with
  | nil => exact hfifo
  | @cons pgd pgd' fifo fifo' n fpn frames p hp _ ih =>
      simp only [List.length_cons] at hnew
      refine ih (fun q hlo hhi => ?_) (hfifo.map_page (hnew p (by omega) (by omega)) _ _)
      have hne : q ≠ p := by
        rintro rfl
        omega
      rw [Function.update_of_ne hne]
      exact hnew q (by omega) (by omega)

/-- A page that is not present is not resident. -/
theorem not_resident_of_absent {pte : Pte} (h : pagingPagePresent pte = false) :
    resident pte = false := by
  simp [resident, h]

/-- A fault gives the frame of the victim to the new page. -/
theorem residentFrames_fault {pgd : Pgn → Pte} {p v : Pgn}
    (habsent : pagingPagePresent (pgd p) = false) (hv : resident (pgd v) = true) (pte pte' : Pte)
    (s : Nat) :
    residentFrames (Function.update (Function.update pgd v (pteSetSwap pte 0 s)) p
      (pteSetFpn pte' (pagingFpn (pgd v)))) = residentFrames pgd := by
  have hne : p ≠ v := by
    rintro rfl
    rw [not_resident_of_absent habsent] at hv
    cases hv
  have hout := residentFrames_update pgd v (pteSetSwap pte 0 s)
  rw [frameOf_of_resident hv, frameOf_of_not_resident (resident_pteSetSwap pte 0 s),
    add_zero] at hout
  have hin := residentFrames_update (Function.update pgd v (pteSetSwap pte 0 s)) p
    (pteSetFpn pte' (pagingFpn (pgd v)))
  rw [Function.update_of_ne hne, frameOf_of_not_resident (not_resident_of_absent habsent), add_zero,
    frameOf_pteSetFpn _ (pagingFpn_lt _), hout] at hin
  exact hin

/-- **No operation gains or loses a frame**, and the list of mapped pages stays exact. -/
theorem PageStep.conserves {c c' : Pcb} (h : PageStep c c')
    (hfifo : FifoExact c.mm.pgd c.mm.fifoPgn) (hlt : ∀ f ∈ c.mram.freeFpList, f < 2 ^ 13) :
    residentFrames c'.mm.pgd + ↑c'.mram.freeFpList = residentFrames c.mm.pgd + ↑c.mram.freeFpList ∧
      FifoExact c'.mm.pgd c'.mm.fifoPgn := by
  cases h with
  | same hpgd hfifo' hram hswap =>
      rw [hpgd, hfifo', hram]
      exact ⟨rfl, hfifo⟩
  | mapped hram hmapped hnew hswap =>
      have hnew' := hnew
      unfold NewRange at hnew'
      rw [← List.length_reverse] at hnew'
      have hframes := hmapped.residentFrames hnew' fun f hf =>
        hlt f (by rw [hram]; exact List.mem_append_left _ (List.mem_reverse.mp hf))
      refine ⟨?_, hmapped.fifoExact hnew' hfifo⟩
      rw [hframes, hram, Multiset.coe_reverse, ← Multiset.coe_add, add_assoc]
  | @fault p v newer s habsent hlist hswap hpgd hlist' hram =>
      obtain ⟨pte, pte', hpgd⟩ := hpgd
      rw [hlist] at hfifo
      have hv : resident (c.mm.pgd v) = true := (hfifo.mem_iff v).mp (by simp)
      have hp : resident (Function.update c.mm.pgd v (pteSetSwap pte 0 s) p) = false := by
        rcases eq_or_ne p v with rfl | hne
        · simp
        · rw [Function.update_of_ne hne]
          exact not_resident_of_absent habsent
      rw [hpgd, hram, hlist']
      exact ⟨by rw [residentFrames_fault habsent hv], (hfifo.evict pte s).map_page hp pte' _⟩

/-! ## The whole system -/

variable {ι : Type} [Fintype ι]

/-- The free frames and the frames of the resident pages of all processes. -/
def MemSystem.frames (s : MemSystem ι) : Multiset Nat :=
  ↑s.mram.freeFpList + ∑ i, residentFrames (s.mm i).pgd

/-- When process `i` has changed its directory and the free list without gaining or losing a
frame. -/
theorem MemSystem.frames_withPcb [DecidableEq ι] (s : MemSystem ι) (i : ι) {c : Pcb}
    (h : residentFrames c.mm.pgd + ↑c.mram.freeFpList =
      residentFrames (s.mm i).pgd + ↑s.mram.freeFpList) :
    (s.withPcb i c).frames = s.frames :=
  FamilySum.add_sum_update_eq (fun _ (mm : MmStruct) => residentFrames mm.pgd) s.mm i c.mm h

theorem MemSystem.mem_frames_of_free {s : MemSystem ι} {f : Nat} (h : f ∈ s.mram.freeFpList) :
    f ∈ s.frames :=
  Multiset.mem_add.mpr (.inl (Multiset.mem_coe.mpr h))

theorem MemSystem.mem_frames_of_resident {s : MemSystem ι} {i : ι} {p : Pgn}
    (h : resident ((s.mm i).pgd p) = true) : pagingFpn ((s.mm i).pgd p) ∈ s.frames :=
  Multiset.mem_add.mpr (.inr (Multiset.mem_of_le
    (FamilySum.le_sum_multiset (fun j => residentFrames (s.mm j).pgd) i) (mem_residentFrames h)))

/-- The frames in use and on the free list are `F`, and every list of mapped pages is exact. -/
structure Accounted (F : Multiset Nat) (s : MemSystem ι) : Prop where
  frames_eq : s.frames = F
  fifo : ∀ i, FifoExact (s.mm i).pgd (s.mm i).fifoPgn

/-- The runs in which a growing heap maps new pages only. -/
def GrowsNew [DecidableEq ι] (s : MemSystem ι) (a : ι × MemOp) : Prop := MapsNewPages (s.pcb a.1) a.2

omit [Fintype ι] in
/-- A process without resident pages cannot map one again. -/
theorem growsNew_of_absent [DecidableEq ι] {s : MemSystem ι} {a : ι × MemOp}
    (h : ∀ p, resident ((s.mm a.1).pgd p) = false) : GrowsNew s a := by
  obtain ⟨i, op⟩ := a
  cases op with
  | alloc => exact fun _ _ _ _ p _ _ => h p
  | memmap => exact fun _ _ _ _ p _ _ => h p
  | free | read | write | setval | getval => trivial

theorem Accounted.step [DecidableEq ι] {F : Multiset Nat} (hF : ∀ f ∈ F, f < 2 ^ 13)
    {s s' : MemSystem ι} {a : ι × MemOp} (hs : Accounted F s) (hnew : GrowsNew s a)
    (h : MemSystem.Step s a s') : Accounted F s' := by
  obtain ⟨c', hexec, rfl⟩ := MemSystem.step_cases h
  obtain ⟨hframes, hfifo⟩ := (MemOp.pageStep hnew hexec).conserves (hs.fifo a.1) fun f hf =>
    hF f (hs.frames_eq ▸ MemSystem.mem_frames_of_free hf)
  refine ⟨(s.frames_withPcb a.1 hframes).trans hs.frames_eq, fun j => ?_⟩
  rcases eq_or_ne j a.1 with rfl | hne
  · rw [MemSystem.withPcb_mm_self]
    exact hfifo
  · rw [MemSystem.withPcb_mm_of_ne _ hne]
    exact hs.fifo j

/-- Two resident pages never share a frame. -/
theorem Accounted.page_unique [DecidableEq ι] {F : Multiset Nat} (hF : F.Nodup) {s : MemSystem ι}
    (hs : Accounted F s) {i j : ι} {p q : Pgn} (hp : resident ((s.mm i).pgd p) = true)
    (hq : resident ((s.mm j).pgd q) = true)
    (heq : pagingFpn ((s.mm i).pgd p) = pagingFpn ((s.mm j).pgd q)) : i = j ∧ p = q := by
  have hnodup : (∑ k, residentFrames (s.mm k).pgd).Nodup :=
    Multiset.nodup_of_le (Multiset.le_add_left _ _) (hs.frames_eq.symm ▸ hF)
  have hij : i = j := FamilySum.eq_of_mem_of_nodup hnodup (mem_residentFrames hp)
    (by rw [heq]; exact mem_residentFrames hq)
  subst hij
  exact ⟨rfl, eq_of_pagingFpn_eq
    (Multiset.nodup_of_le (FamilySum.le_sum_multiset (fun k => residentFrames (s.mm k).pgd) i) hnodup)
    hp hq heq⟩

/-- The frame of a resident page is not free. -/
theorem Accounted.not_free {F : Multiset Nat} (hF : F.Nodup) {s : MemSystem ι} (hs : Accounted F s)
    {i : ι} {p : Pgn} (hp : resident ((s.mm i).pgd p) = true) :
    pagingFpn ((s.mm i).pgd p) ∉ s.mram.freeFpList := by
  intro hfree
  have hnodup : s.frames.Nodup := hs.frames_eq.symm ▸ hF
  exact Multiset.disjoint_left.mp (Multiset.nodup_add.mp hnodup).2.2 (Multiset.mem_coe.mpr hfree)
    (Multiset.mem_of_le (FamilySum.le_sum_multiset (fun j => residentFrames (s.mm j).pgd) i)
      (mem_residentFrames hp))

/-! ## Runs -/

/-- No page of any process is mapped, and the frames of RAM are free. -/
structure Unmapped (F : Multiset Nat) (s : MemSystem ι) : Prop where
  free_eq : (↑s.mram.freeFpList : Multiset Nat) = F
  absent : ∀ i p, pagingPagePresent ((s.mm i).pgd p) = false
  fifo_nil : ∀ i, (s.mm i).fifoPgn = []

theorem Unmapped.accounted {F : Multiset Nat} {s : MemSystem ι} (h : Unmapped F s) :
    Accounted F s := by
  have hzero : ∀ i, residentFrames (s.mm i).pgd = 0 := fun i =>
    Finset.sum_eq_zero fun p _ => frameOf_of_not_resident (not_resident_of_absent (h.absent i p))
  refine ⟨?_, fun i => ⟨?_, fun p => ?_⟩⟩
  · unfold MemSystem.frames
    rw [h.free_eq, Finset.sum_eq_zero fun i _ => hzero i, add_zero]
  · rw [h.fifo_nil]
    exact List.nodup_nil
  · rw [h.fifo_nil, not_resident_of_absent (h.absent i p)]
    simp

/-- The run lemma behind everything about frames. -/
theorem accounted_of_run [DecidableEq ι] {F : Multiset Nat} (hF : ∀ f ∈ F, f < 2 ^ 13)
    {s₀ s : MemSystem ι} {as : List (ι × MemOp)} (hinit : Unmapped F s₀)
    (hrun : Steps (Steps.Meeting GrowsNew MemSystem.Step) s₀ as s) : Accounted F s :=
  hrun.state_invariant hinit.accounted fun _ _ _ hs h => hs.step hF h.1 h.2

/-- **RAM frame accounting.** In every run, of any number of processes, in which a growing heap maps
new pages only, the free frames and the frames of the resident pages of all processes are the
numbers 0 to `n - 1`, each once; and the list of mapped pages of a process holds its resident pages,
each once, and no other page. -/
theorem frame_accounting [DecidableEq ι] {n : Nat} (hn : n ≤ 2 ^ 13) {s₀ s : MemSystem ι}
    {as : List (ι × MemOp)} (hinit : Unmapped (Multiset.range n) s₀)
    (hrun : Steps (Steps.Meeting GrowsNew MemSystem.Step) s₀ as s) :
    (↑s.mram.freeFpList : Multiset Nat) +
        ∑ i, ∑ p, (if resident ((s.mm i).pgd p) then {pagingFpn ((s.mm i).pgd p)} else 0) =
      Multiset.range n ∧
    ∀ i, (s.mm i).fifoPgn.Nodup ∧ ∀ p, p ∈ (s.mm i).fifoPgn ↔ resident ((s.mm i).pgd p) = true := by
  have hlt : ∀ f ∈ Multiset.range n, f < 2 ^ 13 := fun f hf =>
    lt_of_lt_of_le (Multiset.mem_range.mp hf) hn
  have hs := accounted_of_run hlt hinit hrun
  exact ⟨hs.frames_eq, fun i => ⟨(hs.fifo i).nodup, (hs.fifo i).mem_iff⟩⟩

/-! ## Growing over a page that is resident already -/

/-- One process, with three frames of RAM and two of swap. -/
def threeFrames : MemSystem Unit where
  mm := fun _ => freshMm
  mram := freshDevice 3 (by decide)
  activeMswp := freshDevice 2 (by decide)

theorem unmapped_threeFrames : Unmapped (Multiset.range 3) threeFrames where
  free_eq := rfl
  absent := fun _ _ => pagingPagePresent_zero
  fifo_nil := fun _ => rfl

/-- The accounting after the heap has grown by one page, and a write past its end has faulted page 1 in:
page 0 has left its frame for it. -/
theorem frame_accounting_fault :
    ∃ s, Steps (Steps.Meeting GrowsNew MemSystem.Step) threeFrames
        [((), .alloc 256 0), ((), .write 7 0 256)] s ∧
      (resident ((s.mm ()).pgd (pagingPgn 0)) = false ∧ resident ((s.mm ()).pgd (pagingPgn 256)) = true) ∧
      ((↑s.mram.freeFpList : Multiset Nat) +
          ∑ i, ∑ p, (if resident ((s.mm i).pgd p) then {pagingFpn ((s.mm i).pgd p)} else 0) =
        Multiset.range 3 ∧
      ∀ i, (s.mm i).fifoPgn.Nodup ∧
        ∀ p, p ∈ (s.mm i).fifoPgn ↔ resident ((s.mm i).pgd p) = true) := by
  have hcheck : (threeFrames.tryStep ((), .alloc 256 0)).any (fun s₁ =>
      (s₁.tryStep ((), .write 7 0 256)).any fun s =>
        decide (resident ((s.mm ()).pgd (pagingPgn 0)) = false ∧
          resident ((s.mm ()).pgd (pagingPgn 256)) = true)) = true := by
    decide +kernel
  obtain ⟨s₁, hs₁, hrest⟩ := (Option.any_eq_true _ _).mp hcheck
  obtain ⟨s, hs, hpages⟩ := (Option.any_eq_true _ _).mp hrest
  have hnew : GrowsNew threeFrames ((), .alloc 256 0) := growsNew_of_absent fun _ => resident_zero
  have hrun : Steps (Steps.Meeting GrowsNew MemSystem.Step) threeFrames
      [((), .alloc 256 0), ((), .write 7 0 256)] s :=
    .cons ⟨hnew, MemSystem.step_of_tryStep hs₁⟩
      (.cons ⟨trivial, MemSystem.step_of_tryStep hs⟩ (.nil s))
  exact ⟨s, hrun, of_decide_eq_true hpages, frame_accounting (by decide) unmapped_threeFrames hrun⟩

/-- A write past the end of the heap faults page 1 in, and the next growth maps page 1 again: the
list of mapped pages holds it twice. -/
theorem page_enlisted_twice :
    ∃ s, Steps MemSystem.Step threeFrames
        [((), .alloc 256 0), ((), .write 7 0 256), ((), .alloc 256 1)] s ∧
      ¬ (s.mm ()).fifoPgn.Nodup := by
  have hcheck : (Steps.exec MemSystem.tryStep threeFrames
      [((), .alloc 256 0), ((), .write 7 0 256), ((), .alloc 256 1)]).any (fun s =>
        decide (¬ (s.mm ()).fifoPgn.Nodup)) = true := by
    decide +kernel
  obtain ⟨s, hs, hdup⟩ := (Option.any_eq_true _ _).mp hcheck
  exact ⟨s, MemSystem.steps_of_exec hs, of_decide_eq_true hdup⟩

end Ossim.Mm
