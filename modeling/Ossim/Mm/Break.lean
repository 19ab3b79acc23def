import Ossim.Mm.Heap

/-!
# The break of a heap

A process has one area, number 0, which starts at address 0 and ends at its break. In `HeapArea` the
end is a page boundary within the bus width, and the free list is not empty.

`ALLOC` moves the break by a size that may be any 32-bit number. It passes through `int`, where
rounding up can overflow, and is added to the end of the area as an `unsigned long`; so the break may
move down, or very far up, and then no page is mapped, because the number of pages is negative.

`Moved` is all that `inc_vma_limit` does to a heap in good form when it returns, and `BrkStep` all
that the second half of `__alloc` does. Whether they return depends on two numbers only: there must
be enough free frames, and enough page table entries behind the one of the old end, whose page number
is masked.
-/

namespace Ossim.Mm

/-- The only area of a process, number 0. Its break is at its end, a page boundary on the bus. -/
structure SingleArea (mm : MmStruct) (area : VmArea) : Prop where
  mmap_eq : mm.mmap = [area]
  id_eq : area.vmId = 0
  sbrk_eq : area.sbrk = area.vmEnd
  aligned : area.vmEnd.toNat % 256 = 0
  end_le : area.vmEnd.toNat ≤ 2 ^ 22

/-- The only area of a process, in the form every growth leaves it in. -/
structure HeapArea (mm : MmStruct) (area : VmArea) : Prop where
  mmap_eq : mm.mmap = [area]
  id_eq : area.vmId = 0
  start_eq : area.vmStart = 0
  sbrk_eq : area.sbrk = area.vmEnd
  aligned : area.vmEnd.toNat % 256 = 0
  end_le : area.vmEnd.toNat ≤ 2 ^ 22
  freerg_ne : area.vmFreergList ≠ []

/-- The number of pages an allocation of `size` bytes needs. -/
def pagesOf (size : BitVec 32) : Nat := (size.toNat + 255) / 256

/-- Rounding a size up does not change the number of pages. -/
theorem pagesOf_pagingPageAlignsz {size : BitVec 32} (h : size.toNat < 2 ^ 31 - 255) :
    pagesOf (pagingPageAlignsz size) = pagesOf size := by
  unfold pagesOf
  rw [toNat_pagingPageAlignsz h]
  omega

/-- The lookup finds the only area. -/
theorem getVmaByNum_single {mm : MmStruct} {area : VmArea} (h : mm.mmap = [area])
    (hid : area.vmId = 0) : mm.getVmaByNum 0 = .ok (some (0, area)) := by
  unfold MmStruct.getVmaByNum
  rw [h, if_neg (by simp), MmStruct.seekVma, hid, if_neg (by decide)]

namespace SingleArea

variable {mm : MmStruct} {area : VmArea}

theorem getVmaByNum (h : SingleArea mm area) : mm.getVmaByNum 0 = .ok (some (0, area)) :=
  getVmaByNum_single h.mmap_eq h.id_eq

theorem setVma (h : SingleArea mm area) (area' : VmArea) :
    mm.setVma 0 area' = { mm with mmap := [area'] } := by
  unfold MmStruct.setVma
  rw [h.mmap_eq]
  rfl

/-- As an `int`, the end of the area has the same value. -/
theorem toNat_vmEnd (h : SingleArea mm area) :
    (area.vmEnd.setWidth 32).toNat = area.vmEnd.toNat := by
  have := h.end_le
  rw [BitVec.toNat_setWidth]
  omega

/-- Converting the end of the area to `int` and back does nothing. -/
theorem signExtend_vmEnd (h : SingleArea mm area) :
    (area.vmEnd.setWidth 32).signExtend 64 = area.vmEnd := by
  have hend := h.end_le
  have hnat := h.toNat_vmEnd
  exact BitVec.eq_of_toNat_eq (by rw [toNat_signExtend (by omega), hnat])

/-- The first page after the area. -/
theorem pagingPgn_vmEnd (h : SingleArea mm area) (hlt : area.vmEnd.toNat < 2 ^ 22) :
    (pagingPgn (area.vmEnd.setWidth 32) : Nat) = area.vmEnd.toNat / 256 := by
  rw [pagingPgn_val (by rw [h.toNat_vmEnd]; exact hlt), h.toNat_vmEnd]

/-- An extension at the break does not overlap the area. -/
theorem validateOverlapVmArea (h : SingleArea mm area) (vmaend : BitVec 32) :
    mm.validateOverlapVmArea (area.sbrk.setWidth 32) vmaend = 0 := by
  unfold MmStruct.validateOverlapVmArea
  rw [h.mmap_eq, h.sbrk_eq, h.signExtend_vmEnd]
  simp

end SingleArea

namespace HeapArea

variable {mm : MmStruct} {area : VmArea}

theorem single (h : HeapArea mm area) : SingleArea mm area :=
  ⟨h.mmap_eq, h.id_eq, h.sbrk_eq, h.aligned, h.end_le⟩

/-- The region that `__alloc` makes at the break starts at the end of the area. -/
theorem signExtend_sbrk (h : HeapArea mm area) :
    (area.sbrk.setWidth 32).signExtend 64 = area.vmEnd := by
  rw [h.sbrk_eq, h.single.signExtend_vmEnd]

/-- The regions play no part in the form of the area. -/
theorem setSymrg (h : HeapArea mm area) (i : Rgid) (rg : VmRg) : HeapArea (mm.setSymrg i rg) area :=
  ⟨h.mmap_eq, h.id_eq, h.start_eq, h.sbrk_eq, h.aligned, h.end_le, h.freerg_ne⟩

/-- The area may have any other list of free regions. -/
theorem relisted (h : HeapArea mm area) {mm' : MmStruct} {l : List VmRg}
    (hmmap : mm'.mmap = [{ area with vmFreergList := l }]) (hne : l ≠ []) :
    HeapArea mm' { area with vmFreergList := l } :=
  ⟨hmmap, h.id_eq, h.start_eq, h.sbrk_eq, h.aligned, h.end_le, hne⟩

/-- It may end at any other page boundary on the bus. -/
theorem endsAt (h : HeapArea mm area) {mm' : MmStruct} {newEnd : BitVec 64} {l : List VmRg}
    (hmmap : mm'.mmap = [{ area with vmEnd := newEnd, sbrk := newEnd, vmFreergList := l }])
    (haligned : newEnd.toNat % 256 = 0) (hle : newEnd.toNat ≤ 2 ^ 22) (hne : l ≠ []) :
    HeapArea mm' { area with vmEnd := newEnd, sbrk := newEnd, vmFreergList := l } :=
  ⟨hmmap, h.id_eq, h.start_eq, rfl, haligned, hle, hne⟩

end HeapArea

/-! ## Moving the break -/

/-- The number of pages that `inc_vma_limit` maps. -/
def mappedPages (incSz : BitVec 32) : Nat := (incNumPage incSz).toInt.toNat

/-- They are the pages of the size, if that is not negative when it is rounded. -/
theorem mappedPages_eq {incSz : BitVec 32} (hsz : incSz.toNat < 2 ^ 31 - 255) :
    mappedPages incSz = pagesOf incSz := toNat_incNumPage hsz

theorem mappedPages_pagingPageAlignsz {size : BitVec 32} (hsz : size.toNat < 2 ^ 31 - 255) :
    mappedPages (pagingPageAlignsz size) = pagesOf size := by
  have halign := toNat_pagingPageAlignsz hsz
  rw [mappedPages_eq (by omega), pagesOf_pagingPageAlignsz hsz]

/-- The end of the area after `inc_vma_limit`. -/
def movedEnd (area : VmArea) (incSz : BitVec 32) : BitVec 64 :=
  area.vmEnd + (pagingPageAlignsz incSz).signExtend 64

/-- The number of the page table entry at which mapping starts. -/
def firstEntry (area : VmArea) : Nat := pagingPgn (area.vmEnd.setWidth 32)

/-- The break of the area has moved by the rounded size, and the pages are mapped to the first free
frames. -/
inductive Moved (c : Pcb) (area : VmArea) (incSz : BitVec 32) : Pcb → Prop
  | intro {taken rest : List Nat} {pgd' : Pgn → Pte} {fifo' : List Pgn}
      (hfree : c.mram.freeFpList = taken ++ rest) (hlen : taken.length = mappedPages incSz)
      (hmapped : Mapped c.mm.pgd c.mm.fifoPgn (firstEntry area) taken.reverse pgd' fifo') :
      Moved c area incSz
        { c with
          mm :=
            { c.mm with
              mmap := [{ area with vmEnd := movedEnd area incSz, sbrk := movedEnd area incSz }]
              pgd := pgd'
              fifoPgn := fifo' }
          mram := { c.mram with freeFpList := rest } }

theorem pgn_lt (p : Pgn) : (p : Nat) < 2 ^ 14 := Nat.lt_of_lt_of_eq p.isLt pagingMaxPgn_eq

/-- The pages that are mapped have entries. -/
theorem Mapped.le_pagingMaxPgn {pgd pgd' : Pgn → Pte} {fifo fifo' : List Pgn} {n : Nat}
    {frames : List Nat} (h : Mapped pgd fifo n frames pgd' fifo') (hn : n ≤ 2 ^ 14) :
    n + frames.length ≤ 2 ^ 14 := by
  induction h with
  | nil => exact hn
  | @cons pgd pgd' fifo fifo' n fpn frames p hp hrest ih =>
      have hlt := pgn_lt p
      have hle := ih (by omega)
      rw [List.length_cons]
      omega

theorem firstEntry_lt (area : VmArea) : firstEntry area < 2 ^ 14 := pgn_lt _

theorem toNat_movedEnd {mm : MmStruct} {area : VmArea} (h : SingleArea mm area) {incSz : BitVec 32}
    (hsz : incSz.toNat < 2 ^ 31 - 255) :
    (movedEnd area incSz).toNat = area.vmEnd.toNat + 256 * pagesOf incSz := by
  have hend := h.end_le
  have halign := toNat_pagingPageAlignsz hsz
  unfold movedEnd pagesOf
  rw [BitVec.toNat_add, toNat_signExtend (by omega), halign]
  omega

namespace Moved

variable {c c' : Pcb} {area : VmArea} {incSz : BitVec 32}

theorem mmap_eq (h : Moved c area incSz c') : c'.mm.mmap =
    [{ area with vmEnd := movedEnd area incSz, sbrk := movedEnd area incSz }] := by
  cases h
  rfl

/-- What the mapping needs. -/
theorem enough (h : Moved c area incSz c') : mappedPages incSz ≤ c.mram.freeFpList.length ∧
    firstEntry area + mappedPages incSz ≤ 2 ^ 14 := by
  cases h with
  | intro hfree hlen hmapped =>
      have hle := hmapped.le_pagingMaxPgn (Nat.le_of_lt (firstEntry_lt area))
      rw [List.length_reverse, hlen] at hle
      refine ⟨?_, hle⟩
      rw [hfree, List.length_append, hlen]
      exact Nat.le_add_right _ _

end Moved

namespace Pcb

variable {c c' : Pcb} {area : VmArea} {incSz size rgid : BitVec 32} {r : Int}

/-- The new end never overlaps the area, so only mapping can go wrong. -/
theorem incVmaLimit_eq (h : SingleArea c.mm area) (incSz : BitVec 32) :
    c.incVmaLimit 0 incSz = (do
      let (ret, c) ← { c with
        mm := { c.mm with
          mmap := [{ area with vmEnd := movedEnd area incSz, sbrk := movedEnd area incSz }] } }.vmMapRam
        (area.vmEnd.setWidth 32) (incNumPage incSz)
      if ret < 0 then return (-1, c) else return (0, c)) := by
  have hvalid := h.validateOverlapVmArea
    ((area.sbrk + (pagingPageAlignsz incSz).signExtend 64).setWidth 32)
  unfold incVmaLimit MmStruct.getVmAreaNodeAtBrk
  simp only [h.getVmaByNum, deref, bind, Except.bind, pure, Except.pure, hvalid]
  rw [if_neg (by decide), h.setVma, h.sbrk_eq]
  rfl

theorem moved_of_incVmaLimit (h : SingleArea c.mm area) (hrun : c.incVmaLimit 0 incSz = .ok (r, c')) :
    r = 0 ∧ Moved c area incSz c' := by
  rw [incVmaLimit_eq h] at hrun
  obtain ⟨⟨ret, c₁⟩, hmap, hret⟩ := Exec.bind_eq_ok.mp hrun
  obtain ⟨taken, rest, pgd', fifo', rfl, hfree, hlen, hmapped, rfl⟩ := vmMapRam_cases hmap
  cases hret
  exact ⟨rfl, .intro hfree hlen hmapped⟩

theorem incVmaLimit_of_le (h : SingleArea c.mm area)
    (hfree : mappedPages incSz ≤ c.mram.freeFpList.length)
    (hpgd : firstEntry area + mappedPages incSz ≤ 2 ^ 14) :
    ∃ c', c.incVmaLimit 0 incSz = .ok (0, c') := by
  obtain ⟨⟨ret, c₁⟩, hmap⟩ := vmMapRam_of_le
    { c with mm := { c.mm with
      mmap := [{ area with vmEnd := movedEnd area incSz, sbrk := movedEnd area incSz }] } }
    (area.vmEnd.setWidth 32) (incNumPage incSz) hfree (Nat.le_trans hpgd (Nat.le_of_eq pagingMaxPgn_eq.symm))
  obtain ⟨taken, rest, pgd', fifo', rfl, -⟩ := vmMapRam_cases hmap
  refine ⟨c₁, ?_⟩
  rw [incVmaLimit_eq h]
  exact Exec.bind_eq_ok.mpr ⟨_, hmap, rfl⟩

end Pcb

/-! ## The second half of `__alloc` -/

/-- The free region that is left between the end of a new region and the end of the area. -/
def slack (lo hi : BitVec 64) : List VmRg := if lo < hi then [⟨lo, hi⟩] else []

/-- Enlisting the slack. -/
theorem HeapArea.enlistVmFreergList {mm : MmStruct} {area : VmArea} (h : mm.mmap = [area])
    (hne : area.vmFreergList ≠ []) {rg : VmRg} (hlt : rg.rgStart < rg.rgEnd) :
    mm.enlistVmFreergList rg =
      .ok (0, { mm with mmap := [{ area with vmFreergList := rg :: area.vmFreergList }] }) := by
  unfold MmStruct.enlistVmFreergList MmStruct.setVma
  have hle : ¬ rg.rgEnd ≤ rg.rgStart := BitVec.not_le.mpr hlt
  simp only [h, List.head?_cons, deref, bind, Except.bind, hle, if_false, hne, pure, Except.pure,
    List.set_cons_zero]

/-- The region that `__alloc` makes at the break. -/
def brkRegion (area : VmArea) (size : BitVec 32) : VmRg :=
  ⟨area.vmEnd, (area.vmEnd.setWidth 32 + size).signExtend 64⟩

/-- The test of `__alloc` for moving the break, when there is no room behind it. -/
def MovesBrk (size : BitVec 32) : Prop := 1 < (pagingPageAlignsz size).signExtend 64

instance (size : BitVec 32) : Decidable (MovesBrk size) :=
  inferInstanceAs (Decidable ((1 : BitVec 64) < _))

/-- The region at the break has the length of the request, as an `int`. -/
theorem brkRegion_length {mm : MmStruct} {area : VmArea} (h : HeapArea mm area) {size : BitVec 32}
    (hfit : area.vmEnd.toNat + size.toNat < 2 ^ 31 ∨ 2 ^ 31 ≤ size.toNat) :
    (brkRegion area size).rgEnd = (brkRegion area size).rgStart + size.signExtend 64 := by
  have hend := h.end_le
  have hvmEnd : area.vmEnd.toInt = area.vmEnd.toNat := BitVec.toInt_eq_toNat_of_lt (by omega)
  have hint : (area.vmEnd.setWidth 32).toInt = area.vmEnd.toNat := by
    rw [BitVec.toInt_eq_toNat_of_lt (by rw [h.single.toNat_vmEnd]; omega),
      h.single.toNat_vmEnd]
  have hsize := BitVec.toInt_eq_toNat_cond size
  have hlt := size.isLt
  apply BitVec.eq_of_toInt_eq
  show ((area.vmEnd.setWidth 32 + size).signExtend 64).toInt =
    (area.vmEnd + size.signExtend 64).toInt
  rw [BitVec.toInt_signExtend_of_le (by decide), BitVec.toInt_add, BitVec.toInt_add,
    BitVec.toInt_signExtend_of_le (by decide), hint, hvmEnd]
  split at hsize
  · rw [Int.bmod_eq_of_le (by omega) (by omega), Int.bmod_eq_of_le (by omega) (by omega)]
  · rw [Int.bmod_eq_of_le (by omega) (by omega), Int.bmod_eq_of_le (by omega) (by omega)]

/-- Every size moves the break that is not empty and not negative when it is rounded. -/
theorem movesBrk_of_pos {size : BitVec 32} (hpos : 1 ≤ size.toNat)
    (hsz : size.toNat < 2 ^ 31 - 255) : MovesBrk size := by
  have halign := toNat_pagingPageAlignsz hsz
  have hone : (1 : BitVec 64).toNat = 1 := rfl
  unfold MovesBrk
  rw [BitVec.lt_def, hone, toNat_signExtend (by omega), halign]
  omega

/-- What the second half of `__alloc` does when it returns: it enters the region, moves the break if
the size asks for it, and enlists what is left below the break. -/
inductive BrkStep (c : Pcb) (area : VmArea) (size : BitVec 32) (i : Rgid) : Pcb → Prop
  | stays (hstays : ¬ MovesBrk size) :
      BrkStep c area size i
        { c with
          mm :=
            { c.mm with
              mmap :=
                [{ area with
                  vmFreergList :=
                    slack (brkRegion area size).rgEnd area.vmEnd ++ area.vmFreergList }]
              symrgtbl := Function.update c.mm.symrgtbl i (brkRegion area size) } }
  | moves {c₁ : Pcb} (hmoves : MovesBrk size)
      (hmoved : Moved { c with mm := c.mm.setSymrg i (brkRegion area size) } area
        (pagingPageAlignsz size) c₁) :
      BrkStep c area size i
        { c₁ with
          mm :=
            { c₁.mm with
              mmap :=
                [{ area with
                  vmEnd := movedEnd area (pagingPageAlignsz size)
                  sbrk := movedEnd area (pagingPageAlignsz size)
                  vmFreergList :=
                    slack (brkRegion area size).rgEnd (movedEnd area (pagingPageAlignsz size)) ++
                      area.vmFreergList }] } }

/-- The region is in the table. -/
theorem BrkStep.symrgtbl_eq {c c' : Pcb} {area : VmArea} {size : BitVec 32} {i : Rgid}
    (h : BrkStep c area size i c') :
    c'.mm.symrgtbl = Function.update c.mm.symrgtbl i (brkRegion area size) := by
  cases h with
  | stays => rfl
  | moves hmoves hmoved =>
      cases hmoved
      rfl

namespace Pcb

variable {c c' : Pcb} {area : VmArea} {incSz size rgid : BitVec 32} {r : Int}

/-- The end of `__alloc`, where the slack is enlisted. -/
def enlistSlack (c : Pcb) (rg : VmRg) : Exec (Int × Pcb) := do
  let curVma ← deref c.mm.mmap[0]?
  if rg.rgEnd < curVma.sbrk then do
    let (_, mm) ← c.mm.enlistVmFreergList ⟨rg.rgEnd, curVma.sbrk⟩
    return (0, { c with mm := mm })
  else return (0, c)

theorem enlistSlack_eq (hmmap : c.mm.mmap = [area]) (hne : area.vmFreergList ≠ []) (rg : VmRg) :
    c.enlistSlack rg = .ok (0, { c with
      mm := { c.mm with
        mmap := [{ area with
          vmFreergList := slack rg.rgEnd area.sbrk ++ area.vmFreergList }] } }) := by
  unfold enlistSlack slack
  simp only [hmmap, List.getElem?_cons_zero, deref, bind, Except.bind, pure, Except.pure]
  by_cases hslack : rg.rgEnd < area.sbrk
  · have henlist := HeapArea.enlistVmFreergList hmmap hne
      (show VmRg.rgStart ⟨rg.rgEnd, area.sbrk⟩ < VmRg.rgEnd ⟨rg.rgEnd, area.sbrk⟩ from hslack)
    rw [if_pos hslack, if_pos hslack, henlist]
    rfl
  · rw [if_neg hslack, if_neg hslack, List.nil_append, ← hmmap]

/-- The second half of `__alloc`, on a heap in good form. -/
theorem allocAtBrk_eq (h : HeapArea c.mm area) (rgid size : BitVec 32) :
    c.allocAtBrk 0 rgid size 0 area = (do
      let i ← symIndex rgid.toNat
      let c₁ ← (if MovesBrk size then do
          let (_, c₁) ← { c with mm := c.mm.setSymrg i (brkRegion area size) }.incVmaLimit 0
            (pagingPageAlignsz size)
          return c₁
        else .ok { c with mm := c.mm.setSymrg i (brkRegion area size) } : Exec Pcb)
      c₁.enlistSlack (brkRegion area size)) := by
  have hone : area.vmEnd - area.vmEnd + 1 = 1 := by
    rw [BitVec.sub_self]
    rfl
  have hend : (area.sbrk.setWidth 32 + size).signExtend 64 = (brkRegion area size).rgEnd := by
    rw [h.sbrk_eq]
    rfl
  have hrg : (⟨area.vmEnd, (brkRegion area size).rgEnd⟩ : VmRg) = brkRegion area size := rfl
  unfold allocAtBrk
  simp only [h.signExtend_sbrk, hend, hrg, sysMemmap_inc]
  refine congrArg (symIndex rgid.toNat >>= ·) (funext fun i => ?_)
  rw [hone]
  by_cases hmoves : MovesBrk size
  · have hlt : 1 < (pagingPageAlignsz size).signExtend 64 := hmoves
    rw [if_pos hlt, if_pos hmoves]
    cases { c with mm := c.mm.setSymrg i (brkRegion area size) }.incVmaLimit 0
      (pagingPageAlignsz size) with
    | error e => rfl
    | ok x => rfl
  · have hle : ¬ 1 < (pagingPageAlignsz size).signExtend 64 := hmoves
    rw [if_neg hle, if_neg hmoves]
    rfl

theorem brkStep_of_allocAtBrk (h : HeapArea c.mm area)
    (hrun : c.allocAtBrk 0 rgid size 0 area = .ok (r, c')) :
    r = 0 ∧ ∃ i, symIndex rgid.toNat = .ok i ∧ BrkStep c area size i c' := by
  rw [allocAtBrk_eq h] at hrun
  obtain ⟨i, hi, hbody⟩ := Exec.bind_eq_ok.mp hrun
  obtain ⟨c₁, hgrow, henlist⟩ := Exec.bind_eq_ok.mp hbody
  split at hgrow
  · next hmoves =>
    obtain ⟨⟨ret, c₂⟩, hinc, hret⟩ := Exec.bind_eq_ok.mp hgrow
    cases hret
    obtain ⟨-, hmoved⟩ := moved_of_incVmaLimit (h.setSymrg i _).single hinc
    have hdone := enlistSlack_eq hmoved.mmap_eq h.freerg_ne (brkRegion area size)
    cases henlist.symm.trans hdone
    exact ⟨rfl, i, hi, .moves hmoves hmoved⟩
  · next hstays =>
    cases hgrow
    have hdone := enlistSlack_eq (c := { c with mm := c.mm.setSymrg i (brkRegion area size) })
      h.mmap_eq h.freerg_ne (brkRegion area size)
    have hslack : slack (brkRegion area size).rgEnd area.sbrk =
        slack (brkRegion area size).rgEnd area.vmEnd := by rw [h.sbrk_eq]
    rw [hslack] at hdone
    cases henlist.symm.trans hdone
    exact ⟨rfl, i, hi, .stays hstays⟩

/-- What the second half of `__alloc` needs. -/
theorem allocAtBrk_of_le (h : HeapArea c.mm area) (hrg : rgid.toNat < pagingMaxSymtblSz)
    (henough : MovesBrk size → mappedPages (pagingPageAlignsz size) ≤ c.mram.freeFpList.length ∧
      firstEntry area + mappedPages (pagingPageAlignsz size) ≤ 2 ^ 14) :
    ∃ r c', c.allocAtBrk 0 rgid size 0 area = .ok (r, c') := by
  obtain ⟨i, hi⟩ : ∃ i, symIndex rgid.toNat = .ok i := ⟨_, dif_pos hrg⟩
  suffices hgrow : ∃ c₁ area₁, c₁.mm.mmap = [area₁] ∧ area₁.vmFreergList ≠ [] ∧
      (if MovesBrk size then do
          let (_, c₁) ← { c with mm := c.mm.setSymrg i (brkRegion area size) }.incVmaLimit 0
            (pagingPageAlignsz size)
          return c₁
        else .ok { c with mm := c.mm.setSymrg i (brkRegion area size) } : Exec Pcb) = .ok c₁ by
    obtain ⟨c₁, area₁, hmmap, hne, hgrow⟩ := hgrow
    rw [allocAtBrk_eq h]
    exact ⟨_, _, Exec.bind_eq_ok.mpr
      ⟨i, hi, Exec.bind_eq_ok.mpr ⟨c₁, hgrow, enlistSlack_eq hmmap hne _⟩⟩⟩
  by_cases hmoves : MovesBrk size
  · obtain ⟨hfree, hpgd⟩ := henough hmoves
    obtain ⟨c₁, hinc⟩ := incVmaLimit_of_le
      (c := { c with mm := c.mm.setSymrg i (brkRegion area size) }) (h.setSymrg i _).single hfree hpgd
    obtain ⟨-, hmoved⟩ := moved_of_incVmaLimit (h.setSymrg i _).single hinc
    rw [if_pos hmoves]
    exact ⟨c₁, _, hmoved.mmap_eq, h.freerg_ne, Exec.bind_eq_ok.mpr ⟨_, hinc, rfl⟩⟩
  · rw [if_neg hmoves]
    exact ⟨{ c with mm := c.mm.setSymrg i (brkRegion area size) }, area, h.mmap_eq, h.freerg_ne, rfl⟩

end Pcb

end Ossim.Mm
