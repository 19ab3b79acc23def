import Ossim.Mm.Regions

/-!
# Allocations of any size

The size of `ALLOC` is an unsigned number, but `__alloc` takes an `int`. From 2^31 on it is negative:
no free region passes the size test, because there the number is an `unsigned long`, and the region
that is made at the break ends below its start. Shortly below 2^31 rounding up overflows, and the
break moves down below zero.

`alloc_handled_iff` says which calls are handled: those that find a free region, and those for which
there are enough frames and page table entries. The entries alone exclude every size above 2^22.
-/

namespace Ossim.Mm

/-- The free regions and those in use are disjoint and lie inside the area, also the empty ones of
the free list. -/
structure WellFormedHeap (mm : MmStruct) (area : VmArea) : Prop extends Regions mm area where
  inside : ∀ rg ∈ area.vmFreergList, rg.rgEnd.toNat ≤ area.vmEnd.toNat

/-- What no call may do to a heap: move its end down, or below zero, where it would be a huge
`unsigned long` and a negative `long`; or list a region as free that is in use. -/
structure HeapSound (area : VmArea) (mm' : MmStruct) (area' : VmArea) : Prop where
  mmap_eq : mm'.mmap = [area']
  vmEnd_le : area.vmEnd.toInt ≤ area'.vmEnd.toInt
  sbrk_le : area.sbrk.toInt ≤ area'.sbrk.toInt
  disjoint : ∀ rg ∈ area'.vmFreergList, rg ∉ area.vmFreergList →
    ∀ i, Disjoint (mm'.symrgtbl i).range rg.range

/-- `liballoc` handles a request: it returns an error and leaves the heap alone, or it succeeds with
a region of the right size. -/
def AllocHandled (c : Pcb) (area : VmArea) (size rgid : BitVec 32) : Prop :=
  ∃ r c' area', c.liballoc size rgid = .ok (r, c') ∧ HeapSound area c'.mm area' ∧
    (r ≠ 0 ∧ c'.mm = c.mm ∨
      r = 0 ∧ ∃ i : Rgid, (i : Nat) = rgid.toNat ∧
        ((c'.mm.symrgtbl i).rgEnd - (c'.mm.symrgtbl i).rgStart).toNat = size.toNat)

/-- The number is one of a region, and there is a free region for it, or frames and page table
entries. -/
def AllocFits (c : Pcb) (area : VmArea) (size rgid : BitVec 32) : Prop :=
  rgid.toNat < pagingMaxSymtblSz ∧ (NoneFits area size →
    pagesOf size ≤ c.mram.freeFpList.length ∧ firstEntry area + pagesOf size ≤ 2 ^ 14)

instance (c : Pcb) (area : VmArea) (size rgid : BitVec 32) :
    Decidable (AllocFits c area size rgid) :=
  inferInstanceAs (Decidable (_ ∧ (_ → _ ∧ _)))

/-! ## Rounding up -/

theorem toInt_sdiv_pagesz (y : BitVec 32) :
    (y.sdiv (BitVec.ofNat 32 pagingPagesz)).toInt = y.toInt.tdiv 256 :=
  BitVec.toInt_sdiv_of_ne_or_ne _ _ (.inr (by decide))

/-- A negative number is rounded towards zero. -/
theorem toInt_pagingPageAlignsz {x : BitVec 32}
    (h : (x + BitVec.ofNat 32 pagingPagesz - 1).toInt ≤ 0) :
    (x + BitVec.ofNat 32 pagingPagesz - 1).toInt ≤ (pagingPageAlignsz x).toInt ∧
      (pagingPageAlignsz x).toInt < (x + BitVec.ofNat 32 pagingPagesz - 1).toInt + 256 := by
  obtain ⟨y, hy⟩ : ∃ y, y = x + BitVec.ofNat 32 pagingPagesz - 1 := ⟨_, rfl⟩
  unfold pagingPageAlignsz
  rw [← hy] at h ⊢
  have hmin : -2 ^ 31 ≤ y.toInt := BitVec.le_toInt y
  have hdiv : y.toInt.tdiv 256 = -(-y.toInt / 256) := by
    rw [← Int.neg_neg y.toInt, Int.neg_tdiv, Int.tdiv_eq_ediv_of_nonneg (by omega), Int.neg_neg]
  have hpagesz : (BitVec.ofNat 32 pagingPagesz).toInt = 256 := by decide
  rw [BitVec.toInt_mul, toInt_sdiv_pagesz, hpagesz, hdiv]
  rw [Int.bmod_eq_of_le (by omega) (by omega)]
  omega

theorem toInt_add_pagesz (x : BitVec 32) :
    (x + BitVec.ofNat 32 pagingPagesz - 1).toInt = (x.toInt + 255).bmod (2 ^ 32) := by
  have hsum : x + BitVec.ofNat 32 pagingPagesz - 1 = x + 255 := by
    rw [BitVec.sub_eq_add_neg, BitVec.add_assoc]
    rfl
  rw [hsum, BitVec.toInt_add]
  rfl

/-- The sizes whose rounding overflows are rounded to negative numbers, and these stay negative when
they are rounded again. -/
theorem pagingPageAlignsz_neg {size : BitVec 32} (hlo : 2 ^ 31 - 255 ≤ size.toNat)
    (hhi : size.toNat < 2 ^ 31) : (pagingPageAlignsz size).toInt < 0 ∧
      (pagingPageAlignsz (pagingPageAlignsz size)).toInt < 0 := by
  have hsize : size.toInt = size.toNat := BitVec.toInt_eq_toNat_of_lt (by omega)
  have hsum : (size + BitVec.ofNat 32 pagingPagesz - 1).toInt = size.toNat + 255 - 2 ^ 32 := by
    rw [toInt_add_pagesz, hsize, ← Int.sub_bmod_right, Int.bmod_eq_of_le (by omega) (by omega)]
    rfl
  obtain ⟨hle, hlt⟩ := toInt_pagingPageAlignsz (x := size) (by omega)
  have hsum' : (pagingPageAlignsz size + BitVec.ofNat 32 pagingPagesz - 1).toInt =
      (pagingPageAlignsz size).toInt + 255 := by
    rw [toInt_add_pagesz, Int.bmod_eq_of_le (by omega) (by omega)]
  obtain ⟨-, hlt'⟩ := toInt_pagingPageAlignsz (x := pagingPageAlignsz size) (by omega)
  omega

/-- The end of an area, moved down by a negative `int`. -/
theorem toInt_movedEnd {mm : MmStruct} {area : VmArea} (h : HeapArea mm area) (incSz : BitVec 32) :
    (movedEnd area incSz).toInt = area.vmEnd.toInt + (pagingPageAlignsz incSz).toInt := by
  have hend := h.end_le
  have hvmEnd : area.vmEnd.toInt = area.vmEnd.toNat := BitVec.toInt_eq_toNat_of_lt (by omega)
  have hmin := BitVec.le_toInt (pagingPageAlignsz incSz)
  have hmax := BitVec.toInt_lt (x := pagingPageAlignsz incSz)
  unfold movedEnd
  rw [BitVec.toInt_add, BitVec.toInt_signExtend_of_le (by decide), hvmEnd,
    Int.bmod_eq_of_le (by omega) (by omega)]

/-! ## Requests that fit -/

/-- A range that is disjoint from the old regions and from a new one is so from the new table. -/
theorem disjoint_update {tbl : Rgid → VmRg} {i : Rgid} {new : VmRg} {s : Set Nat}
    (hnew : Disjoint new.range s) (hold : ∀ j, j ≠ i → Disjoint (tbl j).range s) (j : Rgid) :
    Disjoint (Function.update tbl i new j).range s := by
  by_cases hji : j = i
  · subst hji
    rw [Function.update_self]
    exact hnew
  · rw [Function.update_of_ne hji]
    exact hold j hji

/-- Two regions that touch. -/
theorem disjoint_touching (lo mid hi : BitVec 64) :
    Disjoint (VmRg.range ⟨lo, mid⟩) (VmRg.range ⟨mid, hi⟩) :=
  VmRg.disjoint_range_iff.mpr (le_max_of_le_right (min_le_left _ _))

namespace WellFormedHeap

variable {c c' : Pcb} {area : VmArea} {size : BitVec 32} {i : Rgid}

/-- The rest of a free region starts behind its start. -/
theorem le_carved (h : WellFormedHeap c.mm area) {best : VmRg} (hmem : best ∈ area.vmFreergList)
    (hsz : size.toNat < 2 ^ 31) (hbest : fitsSize (size.signExtend 64) best = true) :
    (best.rgStart + size.signExtend 64).toNat = best.rgStart.toNat + size.toNat := by
  have hlarge := (h.fitsSize_iff hmem hsz).mp hbest
  have hinside := h.inside best hmem
  have hend := h.end_le
  unfold LargeEnough at hlarge
  rw [BitVec.toNat_add, toNat_signExtend hsz]
  omega

/-- A free region with room for a negative size would be larger than the area. -/
theorem size_lt_of_fits (h : WellFormedHeap c.mm area) (hfits : ¬ NoneFits area size) :
    size.toNat < 2 ^ 31 := by
  by_contra hge
  apply hfits
  intro rg hrg
  have hinside := h.inside rg hrg
  have hordered := h.ordered rg hrg
  have hend := h.end_le
  have hlen : (rg.rgEnd - rg.rgStart + 1).toNat ≤ 2 ^ 22 + 1 := by
    have hsub : (rg.rgEnd - rg.rgStart).toNat = rg.rgEnd.toNat - rg.rgStart.toNat :=
      BitVec.toNat_sub_of_le (BitVec.le_def.mpr hordered)
    have hone : (1 : BitVec 64).toNat = 1 := rfl
    rw [BitVec.toNat_add, hsub, hone]
    omega
  have hle := le_toNat_signExtend size
  unfold fitsSize
  rw [decide_eq_false_iff_not, BitVec.le_def]
  omega

/-- Carving a free region. -/
theorem carved (h : WellFormedHeap c.mm area) (hfits : ¬ NoneFits area size)
    (hstep : AllocStep c area size i c') :
    (∃ area', HeapSound area c'.mm area') ∧
      ((c'.mm.symrgtbl i).rgEnd - (c'.mm.symrgtbl i).rgStart).toNat = size.toNat := by
  have hsz := h.size_lt_of_fits hfits
  cases hstep with
  | extended hnone => exact absurd hnone hfits
  | @carved pre post best hsplit hbest hfirst hlowest =>
      have hmem : best ∈ area.vmFreergList := by
        rw [hsplit]
        exact List.mem_append_right _ List.mem_cons_self
      have hcarved := h.le_carved hmem hsz hbest
      refine ⟨⟨_, rfl, le_rfl, le_rfl, fun rg hrg hnew => ?_⟩, ?_⟩
      · -- only the rest of the region is new in the list
        have hrest : rg = ⟨best.rgStart + size.signExtend 64, best.rgEnd⟩ := by
          rw [hsplit] at hnew
          simp only [List.mem_append, List.mem_cons] at hrg hnew
          tauto
        subst hrest
        apply disjoint_update (disjoint_touching _ _ _)
        intro j _
        apply (h.disjoint_free hmem j).mono_right
        apply Set.Ico_subset_Ico_left
        show best.rgStart.toNat ≤ (best.rgStart + size.signExtend 64).toNat
        omega
      · show ((Function.update c.mm.symrgtbl i _ i).rgEnd -
          (Function.update c.mm.symrgtbl i _ i).rgStart).toNat = _
        rw [Function.update_self]
        show (best.rgStart + size.signExtend 64 - best.rgStart).toNat = _
        rw [BitVec.add_comm, BitVec.add_sub_cancel, toNat_signExtend hsz]

/-- Making a region at the break, of a size that the page table has entries for. -/
theorem atBrk (h : WellFormedHeap c.mm area) (hsz : size.toNat ≤ 2 ^ 22)
    (hstep : BrkStep c area size i c') :
    (∃ area', HeapSound area c'.mm area') ∧
      ((c'.mm.symrgtbl i).rgEnd - (c'.mm.symrgtbl i).rgStart).toNat = size.toNat := by
  have hend := h.end_le
  have hlen : (brkRegion area size).rgEnd = (brkRegion area size).rgStart + size.signExtend 64 :=
    brkRegion_length h.toHeapArea (.inl (by omega))
  have hrgEnd : (brkRegion area size).rgEnd.toNat = area.vmEnd.toNat + size.toNat := by
    rw [hlen, BitVec.toNat_add, toNat_signExtend (by omega)]
    show (area.vmEnd.toNat + size.toNat) % 2 ^ 64 = _
    omega
  have htable := hstep.symrgtbl_eq
  refine ⟨?_, ?_⟩
  · cases hstep with
    | stays hstays =>
        refine ⟨_, rfl, le_rfl, le_rfl, fun rg hrg hnew => absurd ?_ hnew⟩
        -- the region ends above the end of the area, so there is no slack
        unfold slack at hrg
        rwa [if_neg (by rw [BitVec.lt_def]; omega), List.nil_append] at hrg
    | moves hmoves hmoved =>
        have hup : area.vmEnd.toInt ≤ (movedEnd area (pagingPageAlignsz size)).toInt := by
          have halign := toNat_pagingPageAlignsz (show size.toNat < 2 ^ 31 - 255 by omega)
          have halign' := toNat_pagingPageAlignsz
            (show (pagingPageAlignsz size).toNat < 2 ^ 31 - 255 by omega)
          have hpos := BitVec.toInt_eq_toNat_of_lt (x := pagingPageAlignsz (pagingPageAlignsz size))
            (by omega)
          have hmoved := toInt_movedEnd h.toHeapArea (pagingPageAlignsz size)
          omega
        refine ⟨_, rfl, hup, h.sbrk_eq ▸ hup, fun rg hrg hnew => ?_⟩
        have hslack : rg ∈ slack (brkRegion area size).rgEnd
            (movedEnd area (pagingPageAlignsz size)) :=
          (List.mem_append.mp hrg).resolve_right hnew
        unfold slack at hslack
        split at hslack
        · obtain rfl := List.mem_singleton.mp hslack
          rw [htable]
          apply disjoint_update (disjoint_touching _ _ _)
          intro j _
          rw [VmRg.disjoint_range_iff]
          by_cases hlive : (c.mm.symrgtbl j).rgStart.toNat < (c.mm.symrgtbl j).rgEnd.toNat
          · have hle := h.symrg_le hlive
            have hbelow : (c.mm.symrgtbl j).rgEnd.toNat ≤ (brkRegion area size).rgEnd.toNat := by
              omega
            exact le_max_of_le_right (min_le_of_left_le hbelow)
          · exact le_max_of_le_left (min_le_of_left_le (by omega))
        · cases hslack
  · rw [htable, Function.update_self, hlen, BitVec.add_comm, BitVec.add_sub_cancel,
      toNat_signExtend (by omega)]

end WellFormedHeap

/-! ## Requests that do not fit -/

/-- What does not move the break needs no page. -/
theorem pagesOf_of_stays {size : BitVec 32} (hsz : size.toNat < 2 ^ 31 - 255)
    (hstays : ¬ MovesBrk size) : pagesOf size = 0 := by
  have halign := toNat_pagingPageAlignsz hsz
  have hle : ((pagingPageAlignsz size).signExtend 64).toNat ≤ 1 :=
    BitVec.le_def.mp (BitVec.not_lt.mp hstays)
  rw [toNat_signExtend (by omega), halign] at hle
  unfold pagesOf
  omega

/-- A negative `int` moves the break. -/
theorem movesBrk_of_neg {size : BitVec 32} (h : (pagingPageAlignsz size).toInt < 0) :
    MovesBrk size := by
  have hsign : ((pagingPageAlignsz size).signExtend 64).toInt = (pagingPageAlignsz size).toInt :=
    BitVec.toInt_signExtend_of_le (by decide)
  have hcond := BitVec.toInt_eq_toNat_cond ((pagingPageAlignsz size).signExtend 64)
  have hone : (1 : BitVec 64).toNat = 1 := rfl
  unfold MovesBrk
  rw [BitVec.lt_def, hone]
  split at hcond <;> omega

/-- A size that is a negative `int` is not the length of the region. -/
theorem signExtend_ne {size : BitVec 32} (h : 2 ^ 31 ≤ size.toNat) :
    (size.signExtend 64).toNat ≠ size.toNat := by
  intro heq
  have hlt := size.isLt
  have hsign : (size.signExtend 64).toInt = size.toInt := BitVec.toInt_signExtend_of_le (by decide)
  have hpos : (size.signExtend 64).toInt = (size.signExtend 64).toNat :=
    BitVec.toInt_eq_toNat_of_lt (by omega)
  have hneg := BitVec.toInt_eq_toNat_cond size
  split at hneg <;> omega

/-- What a call needs that makes a region at the break and is handled. -/
theorem fits_of_handled {c c' : Pcb} {area area' : VmArea} {size : BitVec 32} {i : Rgid}
    (h : HeapArea c.mm area) (hstep : BrkStep c area size i c') (hsound : HeapSound area c'.mm area')
    (hlen : ((c'.mm.symrgtbl i).rgEnd - (c'.mm.symrgtbl i).rgStart).toNat = size.toNat) :
    pagesOf size ≤ c.mram.freeFpList.length ∧ firstEntry area + pagesOf size ≤ 2 ^ 14 := by
  have hsmall : size.toNat < 2 ^ 31 := by
    by_contra hge
    rw [hstep.symrgtbl_eq, Function.update_self, brkRegion_length h (.inr (by omega)),
      BitVec.add_comm, BitVec.add_sub_cancel] at hlen
    exact signExtend_ne (by omega) hlen
  have hround : size.toNat < 2 ^ 31 - 255 := by
    by_contra hge
    obtain ⟨hneg, hneg'⟩ := pagingPageAlignsz_neg (Nat.le_of_not_lt hge) hsmall
    cases hstep with
    | stays hstays => exact hstays (movesBrk_of_neg hneg)
    | moves hmoves hmoved =>
        -- the break has moved down
        have hdown := toInt_movedEnd h (pagingPageAlignsz size)
        obtain rfl : _ = area' := List.singleton_inj.mp hsound.mmap_eq
        have hle := hsound.vmEnd_le
        simp only at hle
        omega
  cases hstep with
  | stays hstays =>
      have hlt := firstEntry_lt area
      have hzero := pagesOf_of_stays hround hstays
      omega
  | moves hmoves hmoved =>
      rw [← mappedPages_pagingPageAlignsz hround]
      exact hmoved.enough

/-- The page table has no entries for a size above 2^22. -/
theorem size_le_of_pagesOf {size : BitVec 32} {n : Nat} (h : n + pagesOf size ≤ 2 ^ 14) :
    size.toNat ≤ 2 ^ 22 := by
  unfold pagesOf at h
  omega

/-- What a call that is handled needs. -/
theorem allocFits_of_handled {c : Pcb} {area : VmArea} (h : HeapArea c.mm area)
    {size rgid : BitVec 32} (hhandled : AllocHandled c area size rgid) :
    AllocFits c area size rgid := by
  obtain ⟨r, c', area', hrun, hsound, hret⟩ := hhandled
  obtain ⟨rfl, i, hi, hstep⟩ := Pcb.anyAlloc_of_liballoc h hrun
  obtain ⟨-, j, hj, hlen⟩ := hret.resolve_left fun hret => hret.1 rfl
  have hval := symIndex_eq_ok hi
  obtain rfl : j = i := Fin.ext (hj.trans hval.symm)
  refine ⟨hval ▸ j.isLt, fun hnone => ?_⟩
  cases hstep with
  | carved hfits => exact absurd hnone hfits
  | atBrk _ hstep => exact fits_of_handled h hstep hsound hlen

theorem handled_of_allocFits {c : Pcb} {area : VmArea} (h : WellFormedHeap c.mm area)
    {size rgid : BitVec 32} (hfits : AllocFits c area size rgid) :
    AllocHandled c area size rgid := by
  obtain ⟨hrg, henough⟩ := hfits
  obtain ⟨r, c', hrun⟩ := Pcb.liballoc_of_le h.toHeapArea hrg fun hnone _ => by
    have hsz := size_le_of_pagesOf (henough hnone).2
    rw [mappedPages_pagingPageAlignsz (by omega)]
    exact henough hnone
  obtain ⟨rfl, i, hi, hstep⟩ := Pcb.anyAlloc_of_liballoc h.toHeapArea hrun
  have hdone : (∃ area', HeapSound area c'.mm area') ∧
      ((c'.mm.symrgtbl i).rgEnd - (c'.mm.symrgtbl i).rgStart).toNat = size.toNat := by
    cases hstep with
    | carved hfits hstep => exact h.carved hfits hstep
    | atBrk hnone hstep => exact h.atBrk (size_le_of_pagesOf (henough hnone).2) hstep
  obtain ⟨⟨area', hsound⟩, hlen⟩ := hdone
  exact ⟨0, c', area', hrun, hsound, .inr ⟨rfl, i, symIndex_eq_ok hi, hlen⟩⟩

/-- **Which allocations are handled**, for every well-formed heap, every size and every region
number: those with the number of a region, for which a free region passes the size test or there are
enough frames and page table entries. -/
theorem alloc_handled_iff {c : Pcb} {area : VmArea} (h : WellFormedHeap c.mm area)
    (size rgid : BitVec 32) : AllocHandled c area size rgid ↔ AllocFits c area size rgid :=
  ⟨allocFits_of_handled h.toHeapArea, handled_of_allocFits h⟩

/-! ## A size that is not handled -/

/-- The area of a new process. -/
def emptyArea : VmArea := ⟨0, 0, 0, 0, [⟨0, 0⟩]⟩

theorem wellFormed_emptyHeap : WellFormedHeap emptyHeap.mm emptyArea where
  toRegions := freshHeap_emptyHeap.regions
  inside := by decide

theorem alloc_handled_iff_emptyHeap :
    AllocHandled emptyHeap emptyArea 300 0 ↔ AllocFits emptyHeap emptyArea 300 0 :=
  alloc_handled_iff wellFormed_emptyHeap 300 0

/-- The largest size gives the empty heap a region up to the last address, and no page. -/
theorem largest_size_not_handled :
    WellFormedHeap emptyHeap.mm emptyArea ∧ ¬ AllocHandled emptyHeap emptyArea (-1) 0 ∧
      ∃ c', emptyHeap.liballoc (-1) 0 = .ok (0, c') ∧ c'.mm.symrgtbl ⟨0, by decide⟩ = ⟨0, -1⟩ ∧
        c'.mm.mmap = [emptyArea] := by
  refine ⟨wellFormed_emptyHeap, ?_, _, rfl, rfl, rfl⟩
  intro hhandled
  have hfits := allocFits_of_handled wellFormed_emptyHeap.toHeapArea hhandled
  exact absurd hfits (by decide)

end Ossim.Mm
