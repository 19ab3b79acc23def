import Ossim.Mm.AddressSpace

/-!
# Frame numbers in the page table

`MEMPHY_format` numbers the frames of a device from 0 on, as many as its size gives; the entry of a
page has 13 bits for the number of its frame. `pte_set_fpn` cuts off what does not fit, without a
check, and `pg_getpage` reads back what is left. So the pages of two frames whose numbers differ by
2^13 share the bytes of one.

`MapsTo` lists what the page table is given: the entries that the growth of a heap writes, in any run
of memory operations. `frame_numbers_iff` says that all of them are right exactly if the RAM has at
most 2^13 frames.
-/

namespace Ossim.Mm

/-- The area that an operation makes grow: area 0 for `ALLOC`, any for `SYSMEM_INC_OP`. -/
def MemOp.grows : MemOp → Option (BitVec 32)
  | .alloc _ _ => some 0
  | .memmap regs => if regs.a1 = sysmemIncOp then some regs.a2 else none
  | _ => none

/-- When area `vmaid` has grown, `alloc_pages_range` has taken the first free frames, in reverse
order, and `f` is the one at the place of page `p`, counted from the old end of the area on. -/
def GivenFrame (c : Pcb) (vmaid : BitVec 32) (c' : Pcb) (p : Pgn) (f : Nat) : Prop :=
  ∃ (taken : List Nat) (j : Nat) (area : VmArea) (k : Nat),
    c.mram.freeFpList = taken ++ c'.mram.freeFpList ∧
    c.mm.getVmaByNum vmaid = .ok (some (j, area)) ∧ (p : Nat) = firstEntry area + k ∧
    taken.reverse[k]? = some f

/-- In some run, the heap of some process grows, and page `p` is given frame `f`; then its entry is
`pte`. -/
inductive MapsTo {ι : Type} [DecidableEq ι] (s₀ : MemSystem ι) (p : Pgn) (f : Nat) : Pte → Prop
  | intro {as : List (ι × MemOp)} {s s' : MemSystem ι} {i : ι} {op : MemOp} {vmaid : BitVec 32}
      (hrun : Steps MemSystem.Step s₀ as s) (hstep : s.Step (i, op) s')
      (hgrows : op.grows = some vmaid) (hgiven : GivenFrame (s.pcb i) vmaid (s'.pcb i) p f) :
      MapsTo s₀ p f ((s'.mm i).pgd p)

/-- The page table keeps the frame numbers: an entry decodes to the number it was given, and the
addresses in two different frames differ. -/
structure FrameNumbersSurvive {ι : Type} [DecidableEq ι] (s₀ : MemSystem ι) : Prop where
  decodes : ∀ {p f pte}, MapsTo s₀ p f pte → pagingFpn pte = f
  apart : ∀ {p f pte p' f' pte'}, MapsTo s₀ p f pte → MapsTo s₀ p' f' pte' → f ≠ f' →
    ∀ addr addr', Memphy.phyaddr (BitVec.ofNat 32 (pagingFpn pte)) (pagingOffst addr) ≠
      Memphy.phyaddr (BitVec.ofNat 32 (pagingFpn pte')) (pagingOffst addr')

/-! ## Growth -/

/-- The frames that growing takes are mapped from the old end of the area on. -/
def GrowthMapped (c : Pcb) (vmaid : BitVec 32) (c' : Pcb) : Prop :=
  ∃ taken j area, c.mram.freeFpList = taken ++ c'.mram.freeFpList ∧
    c.mm.getVmaByNum vmaid = .ok (some (j, area)) ∧
    Mapped c.mm.pgd c.mm.fifoPgn (firstEntry area) taken.reverse c'.mm.pgd c'.mm.fifoPgn

theorem growthMapped_of_incStep {c c' : Pcb} {vmaid incSz : BitVec 32}
    (h : Pcb.IncStep c vmaid incSz c') :
    c'.mram.freeFpList = c.mram.freeFpList ∨ GrowthMapped c vmaid c' := by
  cases h with
  | refused => exact .inl rfl
  | @grown j area newEnd taken rest pgd' fifo' hvma hend hfree hlen hmapped =>
      exact .inr ⟨taken, j, area, hfree, hvma, hmapped⟩

/-- What a growing operation does to the pages. -/
theorem growthMapped_of_exec {c c' : Pcb} {op : MemOp} {vmaid : BitVec 32}
    (hexec : op.exec c = .ok c') (hgrows : op.grows = some vmaid) :
    c'.mram.freeFpList = c.mram.freeFpList ∨ GrowthMapped c vmaid c' := by
  cases MemOp.exec_cases hexec with
  | alloc hrun =>
      cases hgrows
      obtain ⟨c₁, c₂, hsame, hsame', rfl | ⟨hmmap, hinc, -⟩⟩ := Pcb.liballoc_cases hrun
      · exact .inl (by rw [hsame'.mram, hsame.mram])
      · rcases growthMapped_of_incStep hinc with hfree | ⟨taken, j, area, hfree, hvma, hmapped⟩
        · exact .inl (by rw [hsame'.mram, hfree, hsame.mram])
        · -- the region that is entered before plays no part
          have hlookup : c.mm.getVmaByNum 0 = c₁.mm.getVmaByNum 0 := by
            unfold MmStruct.getVmaByNum
            rw [hmmap]
          refine .inr ⟨taken, j, area, ?_, hlookup.trans hvma, ?_⟩
          · rw [← hsame.mram, hfree, hsame'.mram]
          · rwa [hsame.pgd, hsame.fifo, ← hsame'.pgd, ← hsame'.fifo] at hmapped
  | @memmap regs regs' r c' hrun =>
      simp only [MemOp.grows] at hgrows
      split at hgrows
      · next hop =>
        cases hgrows
        obtain ⟨r', hinc⟩ := inc_of_sysMemmap hop hrun
        exact growthMapped_of_incStep (Pcb.incVmaLimit_cases hinc)
      · cases hgrows
  | _ => cases hgrows

/-- **The entry of a page that is given a frame** holds the low 13 bits of its number. -/
theorem pagingFpn_of_given {c c' : Pcb} {op : MemOp} {vmaid : BitVec 32} {p : Pgn} {f : Nat}
    (hexec : op.exec c = .ok c') (hgrows : op.grows = some vmaid)
    (hgiven : GivenFrame c vmaid c' p f) : pagingFpn (c'.mm.pgd p) = f % 2 ^ 13 := by
  obtain ⟨taken, j, area, k, hfree, hvma, hp, hk⟩ := hgiven
  rcases growthMapped_of_exec hexec hgrows with hsame | ⟨taken', j', area', hfree', hvma', hmapped⟩
  · -- no frame was taken
    rw [hsame] at hfree
    obtain rfl : taken = [] := List.eq_nil_of_length_eq_zero (by
      have hlen := congrArg List.length hfree
      rw [List.length_append] at hlen
      omega)
    cases hk
  · cases hvma.symm.trans hvma'
    obtain rfl : taken = taken' := List.append_cancel_right (hfree.symm.trans hfree')
    obtain ⟨pte, hentry⟩ := hmapped.entry hk hp
    rw [hentry, pagingFpn_pteSetFpn_eq_mod]

/-! ## The free frames -/

/-- No operation adds a frame to the free list of RAM. -/
theorem freeFpList_suffix {c c' : Pcb} {op : MemOp} (hexec : op.exec c = .ok c') :
    c'.mram.freeFpList <:+ c.mram.freeFpList := by
  cases hgrows : op.grows with
  | some vmaid =>
      rcases growthMapped_of_exec hexec hgrows with hsame | ⟨taken, j, area, hfree, -⟩
      · rw [hsame]
      · rw [hfree]
        exact List.suffix_append _ _
  | none =>
      -- then it maps no page at all
      have hnew : MapsNewPages c op := by
        cases op with
        | alloc => cases hgrows
        | memmap regs =>
            intro hop
            simp only [MemOp.grows, if_pos hop] at hgrows
            cases hgrows
        | _ => trivial
      cases MemOp.pageStep hnew hexec with
      | same _ _ hram => rw [hram]
      | mapped hram =>
          rw [hram]
          exact List.suffix_append _ _
      | fault _ _ _ _ _ hram => rw [hram]

section

variable {ι : Type} [DecidableEq ι] {maxSize : Nat} {s₀ s : MemSystem ι} {p : Pgn} {f : Nat}
  {pte : Pte}

theorem freeFpList_suffix_of_run {as : List (ι × MemOp)} (hrun : Steps MemSystem.Step s₀ as s) :
    s.mram.freeFpList <:+ s₀.mram.freeFpList := by
  apply hrun.state_invariant (motive := fun s => s.mram.freeFpList <:+ s₀.mram.freeFpList)
  · exact List.suffix_rfl
  · intro t a u hsuffix hstep
    obtain ⟨c', hexec, rfl⟩ := MemSystem.step_cases hstep
    exact (freeFpList_suffix hexec).trans hsuffix

/-- An entry and its frame, at any time. -/
theorem MapsTo.pagingFpn_eq (h : MapsTo s₀ p f pte) : pagingFpn pte = f % 2 ^ 13 := by
  cases h with
  | @intro as s s' i op vmaid hrun hstep hgrows hgiven =>
      obtain ⟨c', hexec, rfl⟩ := MemSystem.step_cases hstep
      rw [MemSystem.pcb_withPcb] at hgiven
      rw [MemSystem.withPcb_mm_self]
      exact pagingFpn_of_given hexec hgrows hgiven

/-- A frame that is given to a page was free from the beginning. -/
theorem MapsTo.mem (h : MapsTo s₀ p f pte) : f ∈ s₀.mram.freeFpList := by
  cases h with
  | @intro as s s' i op vmaid hrun hstep hgrows hgiven =>
      obtain ⟨taken, j, area, k, hfree, -, -, hk⟩ := hgiven
      apply (freeFpList_suffix_of_run hrun).mem
      have hmem : f ∈ taken := List.mem_reverse.mp (List.mem_of_getElem? hk)
      rw [show s.mram.freeFpList = taken ++ _ from hfree]
      exact List.mem_append_left _ hmem

theorem MapsTo.lt (hs₀ : Configured maxSize s₀) (hmin : pagingPagesz ≤ maxSize)
    (h : MapsTo s₀ p f pte) : f < maxSize / pagingPagesz := by
  have hmem := h.mem
  rw [hs₀.freeFpList_eq hmin] at hmem
  exact List.mem_range.mp hmem

/-- A process that grows by 2^13 + 1 pages at once. -/
theorem large_growth (hs₀ : Configured maxSize s₀) (hmin : pagingPagesz ≤ maxSize)
    (hlarge : 2 ^ 13 < maxSize / pagingPagesz) (i : ι) (hp : (p : Nat) ≤ 2 ^ 13) :
    ∃ pte, MapsTo s₀ p (2 ^ 13 - p) pte := by
  have hpages : pagesOf (BitVec.ofNat 32 (256 * 8193)) = 8193 := by decide
  have hrange := hs₀.freeFpList_eq hmin
  have hlen : s₀.mram.freeFpList.length = maxSize / pagingPagesz := by
    rw [hrange, List.length_range]
  have harea := hs₀.heapArea i
  have hfirst : firstEntry ⟨0, 0, 0, 0, [⟨0, 0⟩]⟩ = 0 := harea.single.pagingPgn_vmEnd (by decide)
  obtain ⟨s', area', hstep, hgrown⟩ := inc_step harea
    (show (BitVec.ofNat 32 (256 * 8193)).toNat < 2 ^ 31 - 255 by decide) (by omega) (by omega)
  obtain ⟨taken, hfree⟩ : s'.mram.freeFpList <:+ s₀.mram.freeFpList :=
    freeFpList_suffix_of_run (.snoc (.nil s₀) hstep)
  have hframes : s₀.mram.freeFpList.length = 8193 + s'.mram.freeFpList.length :=
    hpages ▸ hgrown.frames
  have htaken : taken.length = 8193 := by
    rw [← hfree, List.length_append] at hframes
    omega
  -- the frames taken are the first ones, and they are handed out backwards
  have hget : taken.reverse[(p : Nat)]? = some (2 ^ 13 - (p : Nat)) := by
    have hfirsts : (List.range (maxSize / pagingPagesz))[2 ^ 13 - (p : Nat)]? =
        taken[2 ^ 13 - (p : Nat)]? := by
      rw [← hrange, ← hfree, List.getElem?_append_left (by omega)]
    rw [List.getElem?_reverse (by omega), htaken, show 8193 - 1 - (p : Nat) = 2 ^ 13 - (p : Nat) by omega,
      ← hfirsts, List.getElem?_range (by omega)]
  exact ⟨_, .intro (.nil s₀) hstep rfl
    ⟨taken, 0, _, p, hfree.symm, harea.single.getVmaByNum, by rw [hfirst, Nat.zero_add], hget⟩⟩

/-- **When frame numbers survive the page table.** For every configured size of the RAM that has room
for a frame, and all that memory operations of any processes can lead to: every entry that the growth
of a heap writes decodes to the frame that was taken for its page, and different frames have
different addresses, if and only if the RAM has at most 2^13 frames. -/
theorem frame_numbers_iff [Nonempty ι] (hs₀ : Configured maxSize s₀)
    (hmin : pagingPagesz ≤ maxSize) :
    FrameNumbersSurvive s₀ ↔ maxSize / pagingPagesz ≤ 2 ^ 13 := by
  constructor
  · intro hsurvive
    by_contra hlarge
    obtain ⟨i⟩ := ‹Nonempty ι›
    have hval : (pagingPgn 0 : Nat) = 0 := by decide
    obtain ⟨pte, hmaps⟩ := large_growth (p := pagingPgn 0) hs₀ hmin (Nat.lt_of_not_le hlarge) i
      (by omega)
    have hdecode := hsurvive.decodes hmaps
    have hlt := pagingFpn_lt pte
    omega
  · intro hsmall
    have hdecodes : ∀ {p f pte}, MapsTo s₀ p f pte → pagingFpn pte = f := by
      intro p f pte h
      have hlt := h.lt hs₀ hmin
      rw [h.pagingFpn_eq, Nat.mod_eq_of_lt (by omega)]
    refine ⟨hdecodes, ?_⟩
    intro p f pte p' f' pte' h h' hne addr addr' heq
    rw [hdecodes h, hdecodes h'] at heq
    have hlt := h.lt hs₀ hmin
    have hlt' := h'.lt hs₀ hmin
    have hval := congrArg BitVec.toNat heq
    rw [Memphy.toNat_phyaddr (by omega) (pagingOffst_lt addr),
      Memphy.toNat_phyaddr (by omega) (pagingOffst_lt addr')] at hval
    have hoff := pagingOffst_lt addr
    have hoff' := pagingOffst_lt addr'
    omega

end

theorem frame_numbers_iff_systemOf :
    FrameNumbersSurvive (systemOf 1024 (by decide)) ↔ 1024 / pagingPagesz ≤ 2 ^ 13 :=
  frame_numbers_iff (configured_systemOf 1024 (by decide)) (by decide)

/-- With one frame more than the numbers that fit, two pages that are given different frames have the
same one. -/
theorem frames_alias :
    ∃ p p' pte pte', MapsTo (systemOf (2 ^ 21 + 256) (by decide)) p (2 ^ 13) pte ∧
      MapsTo (systemOf (2 ^ 21 + 256) (by decide)) p' 0 pte' ∧ pagingFpn pte = pagingFpn pte' ∧
      ¬ FrameNumbersSurvive (systemOf (2 ^ 21 + 256) (by decide)) := by
  have hs₀ := configured_systemOf (2 ^ 21 + 256) (by decide)
  have hval : (pagingPgn 0 : Nat) = 0 := by decide
  have hval' : (pagingPgn (BitVec.ofNat 32 (2 ^ 21)) : Nat) = 2 ^ 13 := by decide
  obtain ⟨pte, hmaps⟩ := large_growth (p := pagingPgn 0) hs₀ (by decide) (by decide) ()
    (by rw [hval]; decide)
  obtain ⟨pte', hmaps'⟩ := large_growth (p := pagingPgn (BitVec.ofNat 32 (2 ^ 21))) hs₀ (by decide)
    (by decide) () (by rw [hval'])
  rw [hval] at hmaps
  rw [hval', Nat.sub_self] at hmaps'
  refine ⟨_, _, pte, pte', hmaps, hmaps', ?_, fun hsurvive => ?_⟩
  · rw [hmaps.pagingFpn_eq, hmaps'.pagingFpn_eq]
    rfl
  · have hdecode := hsurvive.decodes hmaps
    rw [hmaps.pagingFpn_eq] at hdecode
    exact absurd hdecode (by decide)

end Ossim.Mm
