import Ossim.Mm.Break

/-!
# A heap that grows page by page

With enough free frames and address space, `liballoc` succeeds on a heap in good form, and
`AllocStep` says exactly what it does: it carves a region off a free one, or it extends the area by
whole pages. `AnyAlloc` is what it does when it returns, whatever the size and the frames that are
left.
-/

namespace Ossim.Mm

/-- No free region of the area passes the size test. -/
def NoneFits (area : VmArea) (size : BitVec 32) : Prop :=
  ∀ rg ∈ area.vmFreergList, fitsSize (size.signExtend 64) rg = false

instance (area : VmArea) (size : BitVec 32) : Decidable (NoneFits area size) :=
  inferInstanceAs (Decidable (∀ rg ∈ area.vmFreergList, _))

/-! ## Allocation -/

/-- What `liballoc` does to a heap in good form. -/
inductive AllocStep (c : Pcb) (area : VmArea) (size : BitVec 32) (i : Rgid) : Pcb → Prop
  | carved {pre post : List VmRg} {best : VmRg}
      (hsplit : area.vmFreergList = pre ++ best :: post)
      (hfits : fitsSize (size.signExtend 64) best = true)
      (hfirst : ∀ rg ∈ pre, fitsSize (size.signExtend 64) rg = true → best.rgStart < rg.rgStart)
      (hlowest : ∀ rg ∈ area.vmFreergList, fitsSize (size.signExtend 64) rg = true →
        best.rgStart ≤ rg.rgStart) :
      AllocStep c area size i
        { c with
          mm :=
            { c.mm with
              mmap :=
                [{ area with
                  vmFreergList :=
                    pre ++ ⟨best.rgStart + size.signExtend 64, best.rgEnd⟩ :: post }]
              symrgtbl :=
                Function.update c.mm.symrgtbl i
                  ⟨best.rgStart, best.rgStart + size.signExtend 64⟩ } }
  | extended {taken rest : List Nat} {pgd' : Pgn → Pte} {fifo' : List Pgn} {newEnd : BitVec 64}
      (hnone : NoneFits area size)
      (hend : newEnd.toNat = area.vmEnd.toNat + 256 * pagesOf size)
      (hspace : newEnd.toNat ≤ 2 ^ 22)
      (hfree : c.mram.freeFpList = taken ++ rest)
      (hlen : taken.length = pagesOf size)
      (hmapped : Mapped c.mm.pgd c.mm.fifoPgn (area.vmEnd.toNat / 256) taken.reverse pgd' fifo') :
      AllocStep c area size i
        { c with
          mm :=
            { mmap :=
                [{ area with
                  vmEnd := newEnd
                  sbrk := newEnd
                  vmFreergList :=
                    slack (area.vmEnd + size.signExtend 64) newEnd ++ area.vmFreergList }]
              symrgtbl :=
                Function.update c.mm.symrgtbl i ⟨area.vmEnd, area.vmEnd + size.signExtend 64⟩
              pgd := pgd'
              fifoPgn := fifo' }
          mram := { c.mram with freeFpList := rest } }

/-- An allocation leaves the heap in good form. -/
theorem AllocStep.heapArea {c c' : Pcb} {area : VmArea} {size : BitVec 32} {i : Rgid}
    (h : HeapArea c.mm area) (hstep : AllocStep c area size i c') :
    ∃ area', HeapArea c'.mm area' := by
  cases hstep with
  | carved =>
      exact ⟨_, h.relisted rfl (by simp)⟩
  | extended hnone hend hspace hfree hlen hmapped =>
      have haligned := h.aligned
      exact ⟨_, h.endsAt rfl (by omega) hspace (by simp [h.freerg_ne])⟩

/-- A free region that passes the size test is carved, whatever the size. -/
theorem alloc_of_fits {c : Pcb} {area : VmArea} (h : HeapArea c.mm area) {size rgid : BitVec 32}
    (hrg : rgid.toNat < pagingMaxSymtblSz) (hfits : ¬ NoneFits area size) :
    ∃ c', c.alloc 0 rgid size = .ok (0, c') ∧ AllocStep c area size ⟨rgid.toNat, hrg⟩ c' := by
  unfold Pcb.alloc MmStruct.getFreeVmrgArea
  simp only [h.single.getVmaByNum, deref, bind, Except.bind, pure, Except.pure]
  cases hbest : bestFit (size.signExtend 64) 0 none area.vmFreergList with
  | none => exact absurd (bestFit_eq_none.mp hbest).2 hfits
  | some found =>
      obtain ⟨j, best⟩ := found
      obtain ⟨hfound, -, hlowest⟩ := bestFit_cases hbest
      obtain ⟨hfits, pre, post, hsplit, hj, hfirst, -⟩ := hfound.resolve_left (by simp)
      have hset : ∀ rg, area.vmFreergList.set j rg = pre ++ rg :: post := fun rg => by
        rw [hsplit, ← hj, Nat.zero_add, List.set_append_right _ _ le_rfl, Nat.sub_self,
          List.set_cons_zero]
      simp only [symIndex, dif_pos hrg, h.single.setVma, hset]
      exact ⟨_, rfl, .carved hsplit hfits hfirst hlowest⟩

/-- Without one, the region is made at the break. -/
theorem alloc_of_noneFits {c : Pcb} {area : VmArea} (h : HeapArea c.mm area) {size rgid : BitVec 32}
    (hnone : NoneFits area size) : c.alloc 0 rgid size = c.allocAtBrk 0 rgid size 0 area := by
  have hbest : bestFit (size.signExtend 64) 0 none area.vmFreergList = none :=
    bestFit_eq_none.mpr ⟨rfl, hnone⟩
  unfold Pcb.alloc MmStruct.getFreeVmrgArea
  simp only [h.single.getVmaByNum, hbest, deref, bind, Except.bind, pure, Except.pure]

/-- Making a region at the break extends the area, if there is address space. -/
theorem BrkStep.allocStep {c c' : Pcb} {area : VmArea} {size : BitVec 32} {i : Rgid}
    (h : HeapArea c.mm area) (hpos : 1 ≤ size.toNat) (hsz : size.toNat < 2 ^ 31 - 255)
    (hnone : NoneFits area size) (hspace : area.vmEnd.toNat + 256 * pagesOf size ≤ 2 ^ 22)
    (hstep : BrkStep c area size i c') : AllocStep c area size i c' := by
  have hpages : 1 ≤ pagesOf size ∧ size.toNat ≤ 256 * pagesOf size := by
    unfold pagesOf
    omega
  have halign := toNat_pagingPageAlignsz hsz
  have hpgn : firstEntry area = area.vmEnd.toNat / 256 := h.single.pagingPgn_vmEnd (by omega)
  have hend : (movedEnd area (pagingPageAlignsz size)).toNat =
      area.vmEnd.toNat + 256 * pagesOf size := by
    rw [toNat_movedEnd h.single (by omega), pagesOf_pagingPageAlignsz hsz]
  have hrg : brkRegion area size = ⟨area.vmEnd, area.vmEnd + size.signExtend 64⟩ :=
    congrArg (VmRg.mk area.vmEnd) (brkRegion_length h (.inl (by omega)))
  cases hstep with
  | stays hstays => exact absurd (movesBrk_of_pos hpos hsz) hstays
  | moves hmoves hmoved =>
      rw [hrg] at hmoved ⊢
      cases hmoved with
      | intro hfree hlen hmapped =>
          refine .extended hnone hend (hend ▸ hspace) hfree ?_ (hpgn ▸ hmapped)
          rw [hlen, mappedPages_pagingPageAlignsz hsz]

/-- What `liballoc` does when it returns: it takes a free region if one passes the size test, and
else makes one at the break. -/
inductive AnyAlloc (c : Pcb) (area : VmArea) (size : BitVec 32) (i : Rgid) (c' : Pcb) : Prop
  | carved (hfits : ¬ NoneFits area size) (hstep : AllocStep c area size i c')
  | atBrk (hnone : NoneFits area size) (hstep : BrkStep c area size i c')

/-- There is still one area. -/
theorem AnyAlloc.area {c c' : Pcb} {area : VmArea} {size : BitVec 32} {i : Rgid}
    (h : HeapArea c.mm area) (hstep : AnyAlloc c area size i c') :
    ∃ area', c'.mm.mmap = [area'] ∧ area'.vmId = 0 := by
  cases hstep with
  | carved hfits hstep =>
      obtain ⟨area', h'⟩ := hstep.heapArea h
      exact ⟨area', h'.mmap_eq, h'.id_eq⟩
  | atBrk hnone hstep =>
      cases hstep with
      | stays => exact ⟨_, rfl, h.id_eq⟩
      | moves => exact ⟨_, rfl, h.id_eq⟩

namespace Pcb

variable {c c' : Pcb} {area : VmArea} {size rgid : BitVec 32} {r : Int}

theorem anyAlloc_of_alloc (h : HeapArea c.mm area) (hrun : c.alloc 0 rgid size = .ok (r, c')) :
    r = 0 ∧ ∃ i, symIndex rgid.toNat = .ok i ∧ AnyAlloc c area size i c' := by
  by_cases hnone : NoneFits area size
  · rw [alloc_of_noneFits h hnone] at hrun
    obtain ⟨rfl, i, hi, hstep⟩ := brkStep_of_allocAtBrk h hrun
    exact ⟨rfl, i, hi, .atBrk hnone hstep⟩
  · by_cases hrg : rgid.toNat < pagingMaxSymtblSz
    · obtain ⟨c₁, halloc, hstep⟩ := alloc_of_fits h hrg hnone
      cases hrun.symm.trans halloc
      exact ⟨rfl, _, dif_pos hrg, .carved hnone hstep⟩
    · -- a region was found, and the table has no entry for it
      obtain ⟨k, curVma, hvma, hsearch⟩ := alloc_cases hrun
      cases hvma.symm.trans h.single.getVmaByNum
      rcases hsearch with ⟨hbest, -⟩ | ⟨j, best, i, -, hi, -⟩
      · exact absurd (bestFit_eq_none.mp hbest).2 hnone
      · cases hi.symm.trans (dif_neg hrg)

theorem anyAlloc_of_liballoc (h : HeapArea c.mm area) (hrun : c.liballoc size rgid = .ok (r, c')) :
    r = 0 ∧ ∃ i, symIndex rgid.toNat = .ok i ∧ AnyAlloc c area size i c' :=
  anyAlloc_of_alloc h (alloc_of_liballoc hrun)

/-- What `liballoc` needs. -/
theorem liballoc_of_le (h : HeapArea c.mm area) (hrg : rgid.toNat < pagingMaxSymtblSz)
    (henough : NoneFits area size → MovesBrk size →
      mappedPages (pagingPageAlignsz size) ≤ c.mram.freeFpList.length ∧
        firstEntry area + mappedPages (pagingPageAlignsz size) ≤ 2 ^ 14) :
    ∃ r c', c.liballoc size rgid = .ok (r, c') := by
  have halloc : ∃ r c', c.alloc 0 rgid size = .ok (r, c') := by
    by_cases hnone : NoneFits area size
    · rw [alloc_of_noneFits h hnone]
      exact allocAtBrk_of_le h hrg (henough hnone)
    · obtain ⟨c', hrun, -⟩ := alloc_of_fits h hrg hnone
      exact ⟨0, c', hrun⟩
  obtain ⟨r, c', hrun⟩ := halloc
  obtain ⟨-, i, -, hstep⟩ := anyAlloc_of_alloc h hrun
  obtain ⟨area', hmmap, hid⟩ := hstep.area h
  refine ⟨r, c', ?_⟩
  unfold liballoc
  simp only [hrun, getVmaByNum_single hmmap hid, deref, bind, Except.bind, pure, Except.pure]

end Pcb

/-- **Allocation succeeds** on a heap in good form, with enough frames and address space in case no
free region is found. -/
theorem liballoc_of_heapArea {c : Pcb} {area : VmArea} (h : HeapArea c.mm area)
    {size rgid : BitVec 32} (hpos : 1 ≤ size.toNat) (hsz : size.toNat < 2 ^ 31 - 255)
    (hrg : rgid.toNat < pagingMaxSymtblSz)
    (henough : NoneFits area size → pagesOf size ≤ c.mram.freeFpList.length ∧
      area.vmEnd.toNat + 256 * pagesOf size ≤ 2 ^ 22) :
    ∃ c', c.liballoc size rgid = .ok (0, c') ∧ AllocStep c area size ⟨rgid.toNat, hrg⟩ c' := by
  have hpages : 1 ≤ pagesOf size := by
    unfold pagesOf
    omega
  have haligned := h.aligned
  obtain ⟨r, c', hrun⟩ := Pcb.liballoc_of_le h hrg fun hnone _ => by
    obtain ⟨hfree, hspace⟩ := henough hnone
    have hpgn : firstEntry area = area.vmEnd.toNat / 256 := h.single.pagingPgn_vmEnd (by omega)
    rw [mappedPages_pagingPageAlignsz hsz]
    exact ⟨hfree, by omega⟩
  obtain ⟨rfl, i, hi, hstep⟩ := Pcb.anyAlloc_of_liballoc h hrun
  obtain rfl : i = ⟨rgid.toNat, hrg⟩ := Fin.ext (symIndex_eq_ok hi)
  refine ⟨c', hrun, ?_⟩
  cases hstep with
  | carved _ hstep => exact hstep
  | atBrk hnone hstep => exact hstep.allocStep h hpos hsz hnone (henough hnone).2

/-! ## Requests that can be met -/

/-- The end of the only area. -/
def MmStruct.heapEnd (mm : MmStruct) : Nat := ((mm.mmap.head?).map (·.vmEnd.toNat)).getD 0

/-- A request for memory in the range of sizes that can be rounded up, which finds enough frames and
address space if the heap has to grow. -/
def AllocOk (c : Pcb) (size regIndex : BitVec 32) : Prop :=
  1 ≤ size.toNat ∧ size.toNat < 2 ^ 31 - 255 ∧ regIndex.toNat < pagingMaxSymtblSz ∧
    ∀ area ∈ c.mm.mmap, NoneFits area size →
      pagesOf size ≤ c.mram.freeFpList.length ∧ area.vmEnd.toNat + 256 * pagesOf size ≤ 2 ^ 22

instance (c : Pcb) (size regIndex : BitVec 32) : Decidable (AllocOk c size regIndex) :=
  inferInstanceAs (Decidable (_ ∧ _ ∧ _ ∧ ∀ area ∈ c.mm.mmap, _))

theorem HeapArea.heapEnd_eq {mm : MmStruct} {area : VmArea} (h : HeapArea mm area) :
    mm.heapEnd = area.vmEnd.toNat := by
  unfold MmStruct.heapEnd
  rw [h.mmap_eq]
  rfl

theorem HeapArea.mem_mmap {mm : MmStruct} {area : VmArea} (h : HeapArea mm area) :
    area ∈ mm.mmap := by
  rw [h.mmap_eq]
  exact List.mem_singleton_self area

/-! ## Freeing -/

/-- What `libfree` can do: nothing, or merge a region that is not empty with the free regions that
touch it. -/
inductive FreeStep (c : Pcb) (area : VmArea) : Pcb → Prop
  | refused : FreeStep c area c
  | merged {i : Rgid} (hlt : (c.mm.symrgtbl i).rgStart < (c.mm.symrgtbl i).rgEnd) :
      FreeStep c area
        { c with
          mm :=
            { c.mm with
              mmap :=
                [{ area with
                  vmFreergList :=
                    (coalesce (c.mm.symrgtbl i) area.vmFreergList).1 ::
                      (coalesce (c.mm.symrgtbl i) area.vmFreergList).2 }]
              symrgtbl := Function.update c.mm.symrgtbl i ⟨0, 0⟩ } }

/-- Freeing goes through on a heap in good form, with any number. -/
theorem libfree_of_heapArea {c : Pcb} {area : VmArea} (h : HeapArea c.mm area) (rgid : BitVec 32) :
    ∃ r c', c.libfree rgid = .ok (r, c') ∧ FreeStep c area c' := by
  unfold Pcb.libfree Pcb.free
  split
  · simp only [h.single.getVmaByNum, deref, bind, Except.bind, pure, Except.pure]
    exact ⟨_, _, rfl, .refused⟩
  · next hrange =>
    have hrg : rgid.toNat < pagingMaxSymtblSz := by
      simp only [BitVec.toInt_eq_toNat_cond] at hrange
      unfold pagingMaxSymtblSz at hrange ⊢
      have := rgid.isLt
      split at hrange <;> omega
    simp only [symIndex, dif_pos hrg, bind, Except.bind, pure, Except.pure]
    by_cases hempty :
        (c.mm.symrgtbl ⟨rgid.toNat, hrg⟩).rgEnd ≤ (c.mm.symrgtbl ⟨rgid.toNat, hrg⟩).rgStart
    · simp only [hempty, if_true, h.single.getVmaByNum, deref]
      exact ⟨_, _, rfl, .refused⟩
    · -- The report at the end looks the area up again, after the list of free regions has changed.
      have h' : HeapArea { c.mm with
          mmap :=
            [{ area with
              vmFreergList :=
                (coalesce (c.mm.symrgtbl ⟨rgid.toNat, hrg⟩) area.vmFreergList).1 ::
                  (coalesce (c.mm.symrgtbl ⟨rgid.toNat, hrg⟩) area.vmFreergList).2 }] } _ :=
        h.relisted rfl (by simp)
      simp only [hempty, if_false, h.single.getVmaByNum, deref, h.single.setVma,
        MmStruct.getVmaByNum_setSymrg, h'.single.getVmaByNum]
      exact ⟨_, _, rfl, .merged (BitVec.not_le.mp hempty)⟩

end Ossim.Mm
