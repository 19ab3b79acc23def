import Ossim.Mm.PagedHeap
import Ossim.Mm.Regions

/-!
# Running out of frames (`alloc_pages_range`, `__alloc`)

`alloc_pages_range` takes frames off the free list of RAM one by one. When the list ends too early,
its clean-up loop runs `while (newfp_str == NULL)` and follows the pointer it has just found to be
`NULL`: with the empty list that `vm_map_ram` passes, a shortage is never reported but ends the
program. `clean_failure_iff` says so for one call, and `all_or_nothing_iff` for `liballoc`, four
calls further out, in every heap that `ALLOC` and `FREE` can build.

There the size test of the free list search adds a second way to fail: it accepts a region that is
one byte too short, so a request for one byte is met from the empty region that `init_mm` enlists,
and the byte lies on no page at all.
-/

namespace Ossim.Mm

/-! ## Taking frames off the free list -/

namespace Memphy

/-- A clean frame allocation: it fails exactly if there are too few frames, it hands out the first
frames of the list in reverse order, and a failure leaves every frame on the list. -/
def CleanAlloc (mp : Memphy) (reqPgnum : BitVec 32) : Prop :=
  ∃ r frmLst mp', mp.allocPagesRange reqPgnum [] = .ok (r, frmLst, mp') ∧
    (r = 0 ↔ reqPgnum.toInt ≤ mp.freeFpList.length) ∧
    (r = 0 → frmLst = (mp.freeFpList.take reqPgnum.toInt.toNat).reverse ∧
      mp'.freeFpList = mp.freeFpList.drop reqPgnum.toInt.toNat) ∧
    (r ≠ 0 → r = -1 ∧ frmLst = [] ∧ mp'.freeFpList.Perm mp.freeFpList)

/-- Without enough frames, the loop follows `NULL`. -/
theorem takeFrames_of_lt {mp : Memphy} {n : Nat} (newfp : List Nat)
    (h : mp.freeFpList.length < n) : takeFrames mp [] n newfp = .error .nullDeref := by
  induction n generalizing mp newfp with
  | zero => exact absurd h (Nat.not_lt_zero _)
  | succ n ih =>
      unfold takeFrames getFreefp
      cases hfree : mp.freeFpList with
      | nil => rfl
      | cons fpn rest =>
          simp only
          apply ih
          rw [hfree, List.length_cons] at h
          exact Nat.lt_of_succ_lt_succ h

/-- **A frame allocation is clean exactly if there are enough frames.** -/
theorem clean_failure_iff (mp : Memphy) (reqPgnum : BitVec 32) :
    mp.CleanAlloc reqPgnum ↔ reqPgnum.toInt ≤ mp.freeFpList.length := by
  constructor
  · rintro ⟨r, frmLst, mp', hrun, -⟩
    by_contra hshort
    have hlt : mp.freeFpList.length < reqPgnum.toInt.toNat := by omega
    cases hrun.symm.trans (takeFrames_of_lt [] hlt)
  · intro henough
    have hle : reqPgnum.toInt.toNat ≤ mp.freeFpList.length := by omega
    obtain ⟨⟨r, frmLst, mp'⟩, hrun⟩ := takeFrames_of_le [] [] hle
    obtain ⟨taken, rfl, hsplit, hlen, hfrm, -⟩ := takeFrames_cases hrun
    refine ⟨0, frmLst, mp', hrun, ⟨fun _ => henough, fun _ => rfl⟩, fun _ => ?_, fun hne => ?_⟩
    · rw [hfrm, hsplit, ← hlen, List.take_left, List.drop_left, List.append_nil]
      exact ⟨rfl, rfl⟩
    · exact absurd rfl hne

/-- One frame is asked for, and there is none. -/
theorem no_frame_not_clean : ¬ ({ oneFrame with freeFpList := [] } : Memphy).CleanAlloc 1 := by
  rintro ⟨r, frmLst, mp', hrun, -⟩
  cases hrun.symm.trans (takeFrames_of_lt [] (by decide))

end Memphy

/-! ## Allocation -/

namespace Pcb

/-- The process with another list of free frames: other processes take frames and return them
between its calls. -/
def withFree (c : Pcb) (free : List Nat) : Pcb :=
  { c with mram := { c.mram with freeFpList := free } }

@[simp] theorem withFree_mm (c : Pcb) (free : List Nat) : (c.withFree free).mm = c.mm := rfl

/-- Every page of a region has a present entry. -/
def PagesPresent (mm : MmStruct) (rg : VmRg) : Prop :=
  ∀ a, rg.rgStart.toNat ≤ a → a < rg.rgEnd.toNat →
    ∃ p : Pgn, (p : Nat) = a / 256 ∧ pagingPagePresent (mm.pgd p) = true

/-- All or nothing: the call returns 0 and the pages of the new region are there, or it returns an
error and the heap and the free frames are as before. -/
def AllOrNothing (c : Pcb) (size rgid : BitVec 32) : Prop :=
  (∃ c', c.liballoc size rgid = .ok (0, c') ∧
      ∀ i : Rgid, (i : Nat) = rgid.toNat → PagesPresent c'.mm (c'.mm.symrgtbl i)) ∨
    ∃ r c', c.liballoc size rgid = .ok (r, c') ∧ r ≠ 0 ∧ c'.mm = c.mm ∧
      c'.mram.freeFpList = c.mram.freeFpList

/-- A request that can be met: what is carved from the lowest free region that passes the size test
lies in the area, and if none passes there are enough free frames and enough address space. -/
def CanMeet (c : Pcb) (size : BitVec 32) : Prop :=
  ∀ area ∈ c.mm.mmap,
    (∀ best ∈ area.vmFreergList, fitsSize (size.signExtend 64) best = true →
      (∀ rg ∈ area.vmFreergList, fitsSize (size.signExtend 64) rg = true →
        best.rgStart ≤ rg.rgStart) →
      ∀ a ∈ VmRg.range ⟨best.rgStart, best.rgStart + size.signExtend 64⟩,
        a < area.vmEnd.toNat) ∧
    (NoneFits area size → pagesOf size ≤ c.mram.freeFpList.length ∧
      area.vmEnd.toNat + 256 * pagesOf size ≤ 2 ^ 22)

variable {c c' : Pcb} {area : VmArea} {size rgid : BitVec 32} {r : Int}

/-- What the second half of `__alloc` has done when it returns: it never reports a failure, it took the
frames it needs, and the region begins at the old end of the area. -/
theorem allocAtBrk_of_noneFits (h : HeapArea c.mm area) (hpos : 1 ≤ size.toNat)
    (hsz : size.toNat < 2 ^ 31 - 255) {i : Rgid} (hi : (i : Nat) = rgid.toNat)
    (hrun : c.allocAtBrk 0 rgid size 0 area = .ok (r, c')) :
    r = 0 ∧ pagesOf size ≤ c.mram.freeFpList.length ∧
      ∃ e, area.vmEnd.toNat + size.toNat ≤ e.toNat ∧ c'.mm.symrgtbl i = ⟨area.vmEnd, e⟩ := by
  obtain ⟨rfl, j, hj, hstep⟩ := brkStep_of_allocAtBrk h hrun
  obtain rfl : j = i := Fin.ext ((symIndex_eq_ok hj).trans hi.symm)
  have hframes : pagesOf size ≤ c.mram.freeFpList.length := by
    cases hstep with
    | stays hstays => exact absurd (movesBrk_of_pos hpos hsz) hstays
    | moves hmoves hmoved =>
        rw [← mappedPages_pagingPageAlignsz hsz]
        exact hmoved.enough.1
  refine ⟨rfl, hframes, (brkRegion area size).rgEnd, ?_, ?_⟩
  · have hend := h.end_le
    have hsum : (area.vmEnd.setWidth 32 + size).toNat = area.vmEnd.toNat + size.toNat := by
      rw [BitVec.toNat_add, h.single.toNat_vmEnd]
      omega
    rw [← hsum]
    exact le_toNat_signExtend _
  · rw [hstep.symrgtbl_eq, Function.update_self]
    rfl

/-- The same for `liballoc`. -/
theorem liballoc_of_noneFits (h : HeapArea c.mm area) (hpos : 1 ≤ size.toNat)
    (hsz : size.toNat < 2 ^ 31 - 255) (hnone : NoneFits area size) {i : Rgid}
    (hi : (i : Nat) = rgid.toNat) (hrun : c.liballoc size rgid = .ok (r, c')) :
    r = 0 ∧ pagesOf size ≤ c.mram.freeFpList.length ∧
      ∃ e, area.vmEnd.toNat + size.toNat ≤ e.toNat ∧ c'.mm.symrgtbl i = ⟨area.vmEnd, e⟩ := by
  have halloc := alloc_of_liballoc hrun
  rw [alloc_of_noneFits h hnone] at halloc
  exact allocAtBrk_of_noneFits h hpos hsz hi halloc

/-! ## The heaps that `ALLOC` and `FREE` build -/

/-- One call, on whatever list of free frames it finds. -/
def RefilledStep (c : Pcb) (a : List Nat × MemOp) (c' : Pcb) : Prop :=
  MemOp.Step (c.withFree a.1) a.2 c'

/-- An `ALLOC` or a `FREE` with valid arguments, which keeps the heap within the bus width. -/
def AllocFreeOp (c : Pcb) (a : List Nat × MemOp) : Prop :=
  match a.2 with
  | .alloc size rgid => 1 ≤ size.toNat ∧ size.toNat < 2 ^ 31 - 255 ∧
      rgid.toNat < pagingMaxSymtblSz ∧ ∀ area ∈ c.mm.mmap, NoneFits area size →
        area.vmEnd.toNat + 256 * pagesOf size ≤ 2 ^ 22
  | .free _ => True
  | _ => False

/-- Every such call keeps the pages below the end of the heap resident. -/
theorem pagedArea_step {a : List Nat × MemOp} (h : PagedArea c.mm area) (hop : AllocFreeOp c a)
    (hstep : RefilledStep c a c') : ∃ area', PagedArea c'.mm area' := by
  obtain ⟨free, op⟩ := a
  have h' : PagedArea (c.withFree free).mm area := h
  cases MemOp.exec_cases hstep with
  | @alloc size rgid r c' hcall =>
      obtain ⟨hpos, hsz, hrg, hspace⟩ := hop
      obtain ⟨c₁, hrun, halloc⟩ := liballoc_of_heapArea h'.toHeapArea hpos hsz hrg fun hnone =>
        ⟨(liballoc_of_noneFits h'.toHeapArea hpos hsz hnone (i := ⟨rgid.toNat, hrg⟩) rfl hcall).2.1,
          hspace area h.mem_mmap hnone⟩
      cases hrun.symm.trans hcall
      exact h'.allocStep halloc
  | @free rgid r c' hcall =>
      obtain ⟨r', c₁, hrun, hfree⟩ := libfree_of_heapArea h'.toHeapArea rgid
      cases hrun.symm.trans hcall
      exact h'.freeStep hfree
  | read | write | memmap | setval | getval => exact hop.elim

/-- On a heap whose pages are resident up to its end, the entry of an address is present exactly if
the address lies below the end. -/
theorem pagesPresent_iff {mm : MmStruct} (h : PagedArea mm area) (rg : VmRg) :
    PagesPresent mm rg ↔ ∀ a ∈ rg.range, a < area.vmEnd.toNat := by
  have haligned := h.aligned
  have hend := h.end_le
  constructor
  · rintro hpages a ⟨hlo, hhi⟩
    obtain ⟨p, hp, hpresent⟩ := hpages a hlo hhi
    have hres := (h.resident_iff p).mp (h.resident_of_present p hpresent)
    omega
  · intro hbelow a hlo hhi
    have ha := hbelow a ⟨hlo, hhi⟩
    have hp : a / 256 < pagingMaxPgn := by
      rw [pagingMaxPgn_eq]
      omega
    refine ⟨⟨a / 256, hp⟩, rfl, present_of_resident ((h.resident_iff _).mpr ?_)⟩
    simp only
    omega

/-- Without a free region that fits, all or nothing means enough frames and address space. -/
theorem allOrNothing_of_noneFits (h : PagedArea c.mm area) (hpos : 1 ≤ size.toNat)
    (hsz : size.toNat < 2 ^ 31 - 255) (hrg : rgid.toNat < pagingMaxSymtblSz)
    (hnone : NoneFits area size) :
    c.AllOrNothing size rgid ↔ pagesOf size ≤ c.mram.freeFpList.length ∧
      area.vmEnd.toNat + 256 * pagesOf size ≤ 2 ^ 22 := by
  have hi : ((⟨rgid.toNat, hrg⟩ : Rgid) : Nat) = rgid.toNat := rfl
  have haligned := h.aligned
  have hend := h.end_le
  constructor
  · rintro (⟨c', hrun, hpages⟩ | ⟨r, c', hrun, hne, -⟩)
    · obtain ⟨-, hframes, e, he, htbl⟩ := liballoc_of_noneFits h.toHeapArea hpos hsz hnone hi hrun
      refine ⟨hframes, ?_⟩
      -- the last byte of the region lies on a page of the directory
      have hlast := hpages _ hi (area.vmEnd.toNat + size.toNat - 1)
      rw [htbl] at hlast
      obtain ⟨p, hp, -⟩ := hlast (by simp only; omega) (by simp only; omega)
      have hmax := p.isLt
      have hpgn := pagingMaxPgn_eq
      unfold pagesOf
      omega
    · exact absurd (liballoc_of_noneFits h.toHeapArea hpos hsz hnone hi hrun).1 hne
  · rintro henough
    obtain ⟨c', hrun, hstep⟩ := liballoc_of_heapArea h.toHeapArea hpos hsz hrg fun _ => henough
    refine .inl ⟨c', hrun, ?_⟩
    rintro i hirg
    obtain rfl : i = ⟨rgid.toNat, hrg⟩ := Fin.ext hirg
    obtain ⟨area', harea'⟩ := h.allocStep hstep
    rw [pagesPresent_iff harea']
    rintro a ⟨hlo, hhi⟩
    cases hstep with
    | @carved pre post best hsplit hfits =>
        have hnot := hnone best (by rw [hsplit]; simp)
        rw [hfits] at hnot
        cases hnot
    | @extended taken rest pgd' fifo' newEnd _ hnewEnd hspace hfree hlen hmapped =>
        cases harea'.mmap_eq
        have hsum : (area.vmEnd + size.signExtend 64).toNat = area.vmEnd.toNat + size.toNat := by
          rw [BitVec.toNat_add, toNat_signExtend (by omega)]
          omega
        simp only [Function.update_self, hsum] at hhi
        simp only [hnewEnd]
        unfold pagesOf
        omega

/-- If a free region fits, all or nothing means that what is carved from the lowest of them lies in
the area. -/
theorem allOrNothing_of_fits (h : PagedArea c.mm area) (hrg : rgid.toNat < pagingMaxSymtblSz)
    {best : VmRg} (hbest : best ∈ area.vmFreergList)
    (hfits : fitsSize (size.signExtend 64) best = true)
    (hlowest : ∀ rg ∈ area.vmFreergList, fitsSize (size.signExtend 64) rg = true →
      best.rgStart ≤ rg.rgStart) (hpos : 1 ≤ size.toNat) (hsz : size.toNat < 2 ^ 31 - 255) :
    c.AllOrNothing size rgid ↔
      ∀ a ∈ VmRg.range ⟨best.rgStart, best.rgStart + size.signExtend 64⟩, a < area.vmEnd.toNat := by
  have hsome : ¬ NoneFits area size := by
    intro hnone
    have hnot := hnone best hbest
    rw [hfits] at hnot
    cases hnot
  obtain ⟨c', hrun, hstep⟩ := liballoc_of_heapArea h.toHeapArea hpos hsz hrg fun hnone =>
    absurd hnone hsome
  obtain ⟨area', harea'⟩ := h.allocStep hstep
  have htbl : c'.mm.symrgtbl ⟨rgid.toNat, hrg⟩ =
      ⟨best.rgStart, best.rgStart + size.signExtend 64⟩ ∧ area'.vmEnd = area.vmEnd := by
    cases hstep with
    | @carved pre post low hsplit hlow hfirst hleast =>
        have hmem : low ∈ area.vmFreergList := by
          rw [hsplit]
          simp
        have hstart : low.rgStart = best.rgStart :=
          BitVec.le_antisymm (hleast best hbest hfits) (hlowest low hmem hlow)
        cases harea'.mmap_eq
        refine ⟨?_, rfl⟩
        simp only [Function.update_self, hstart]
    | extended hnone => exact absurd hnone hsome
  have hpresent := pagesPresent_iff harea' (c'.mm.symrgtbl ⟨rgid.toNat, hrg⟩)
  rw [htbl.1, htbl.2] at hpresent
  rw [← hpresent]
  constructor
  · rintro (⟨c₁, hrun₁, hpages⟩ | ⟨r, c₁, hrun₁, hne, -⟩)
    · cases hrun₁.symm.trans hrun
      rw [← htbl.1]
      exact hpages _ rfl
    · cases hrun₁.symm.trans hrun
      exact absurd rfl hne
  · rintro hpages
    refine .inl ⟨c', hrun, ?_⟩
    rintro i hirg
    obtain rfl : i = ⟨rgid.toNat, hrg⟩ := Fin.ext hirg
    rw [htbl.1]
    exact hpages

/-- The free region that the search would take, if any fits. -/
theorem exists_lowest_fitting (l : List VmRg) (size : BitVec 64)
    (h : ∃ rg ∈ l, fitsSize size rg = true) :
    ∃ best ∈ l, fitsSize size best = true ∧
      ∀ rg ∈ l, fitsSize size rg = true → best.rgStart ≤ rg.rgStart := by
  cases hbest : bestFit size 0 none l with
  | none =>
      obtain ⟨rg, hrg, hfits⟩ := h
      rw [(bestFit_eq_none.mp hbest).2 rg hrg] at hfits
      cases hfits
  | some found =>
      obtain ⟨j, best⟩ := found
      obtain ⟨hfound, -, hlowest⟩ := bestFit_cases hbest
      obtain ⟨hfits, pre, post, hsplit, -, -, -⟩ := hfound.resolve_left (by simp)
      exact ⟨best, by rw [hsplit]; simp, hfits, hlowest⟩

/-- All or nothing, on one heap in good form. -/
theorem allOrNothing_iff (h : PagedArea c.mm area) (hpos : 1 ≤ size.toNat)
    (hsz : size.toNat < 2 ^ 31 - 255) (hrg : rgid.toNat < pagingMaxSymtblSz) :
    c.AllOrNothing size rgid ↔ c.CanMeet size := by
  have hone : ∀ area' ∈ c.mm.mmap, area' = area := by
    rw [h.mmap_eq]
    simp
  by_cases hnone : NoneFits area size
  · rw [allOrNothing_of_noneFits h hpos hsz hrg hnone]
    constructor
    · intro henough area' hmem
      obtain rfl := hone area' hmem
      refine ⟨fun best hbest hfits => ?_, fun _ => henough⟩
      rw [hnone best hbest] at hfits
      cases hfits
    · intro hmeet
      exact (hmeet area h.mem_mmap).2 hnone
  · have hsome : ∃ rg ∈ area.vmFreergList, fitsSize (size.signExtend 64) rg = true := by
      by_contra hno
      refine hnone fun rg hrg' => ?_
      by_contra hfits
      exact hno ⟨rg, hrg', by simpa using hfits⟩
    obtain ⟨best, hbest, hfits, hlowest⟩ := exists_lowest_fitting _ _ hsome
    rw [allOrNothing_of_fits h hrg hbest hfits hlowest hpos hsz]
    constructor
    · intro hbelow area' hmem
      obtain rfl := hone area' hmem
      refine ⟨fun low hlow hlowfits hlowleast => ?_, fun hnone' => absurd hnone' hnone⟩
      -- the lowest fitting regions start at the same address
      have hstart : low.rgStart = best.rgStart :=
        BitVec.le_antisymm (hlowleast best hbest hfits) (hlowest low hlow hlowfits)
      rw [hstart]
      exact hbelow
    · intro hmeet
      exact (hmeet area h.mem_mmap).1 best hbest hfits hlowest

/-- **Allocation is all or nothing exactly if the request can be met.** In every heap that `ALLOC`
and `FREE` build from an empty one within the bus width, whatever list of free frames each call
finds. -/
theorem all_or_nothing_iff {c₀ c : Pcb} {area : VmArea} {calls : List (List Nat × MemOp)}
    (hheap : HeapArea c₀.mm area) (hempty : area.vmEnd = 0)
    (habsent : ∀ p, pagingPagePresent (c₀.mm.pgd p) = false)
    (hrun : Steps (Steps.Meeting AllocFreeOp RefilledStep) c₀ calls c) (free : List Nat)
    {size rgid : BitVec 32} (hpos : 1 ≤ size.toNat) (hsz : size.toNat < 2 ^ 31 - 255)
    (hrg : rgid.toNat < pagingMaxSymtblSz) :
    (c.withFree free).AllOrNothing size rgid ↔ (c.withFree free).CanMeet size := by
  have hinit : PagedArea c₀.mm area := by
    refine ⟨hheap, fun p => ?_, fun p hp => ?_⟩
    · rw [not_resident_of_absent (habsent p), hempty]
      simp
    · rw [habsent p] at hp
      cases hp
  obtain ⟨area', harea'⟩ := hrun.state_invariant (motive := fun c => ∃ area, PagedArea c.mm area)
    ⟨area, hinit⟩ fun c a c' ⟨area, harea⟩ hstep => pagedArea_step harea hstep.1 hstep.2
  exact allOrNothing_iff (c := c.withFree free) harea' hpos hsz hrg

/-- A heap has been extended once, and then RAM has no free frame left: a request that fits in the
slack is met, and one that does not is not. -/
theorem all_or_nothing_iff_full_ram :
    ∃ c, Steps (Steps.Meeting AllocFreeOp RefilledStep) emptyHeap [([2, 0], .alloc 300 0)] c ∧
      ((c.withFree []).AllOrNothing 100 1 ↔ (c.withFree []).CanMeet 100) ∧
      ((c.withFree []).AllOrNothing 400 1 ↔ (c.withFree []).CanMeet 400) := by
  have hcheck : (MemOp.tryStep (emptyHeap.withFree [2, 0]) (.alloc 300 0)).isSome = true := by
    decide +kernel
  obtain ⟨c, hc⟩ := Option.isSome_iff_exists.mp hcheck
  have hop : AllocFreeOp emptyHeap ([2, 0], .alloc 300 0) :=
    ⟨by decide, by decide, by decide, by decide⟩
  have hrun : Steps (Steps.Meeting AllocFreeOp RefilledStep) emptyHeap [([2, 0], .alloc 300 0)] c :=
    .cons ⟨hop, MemOp.step_of_tryStep hc⟩ (.nil _)
  have hheap : HeapArea emptyHeap.mm ⟨0, 0, 0, 0, [⟨0, 0⟩]⟩ :=
    ⟨rfl, rfl, rfl, rfl, by decide, by decide, by decide⟩
  exact ⟨c, hrun,
    all_or_nothing_iff hheap rfl (fun _ => pagingPagePresent_zero) hrun [] (by decide) (by decide)
      (by decide),
    all_or_nothing_iff hheap rfl (fun _ => pagingPagePresent_zero) hrun [] (by decide) (by decide)
      (by decide)⟩

theorem pagedArea_emptyHeap : PagedArea emptyHeap.mm ⟨0, 0, 0, 0, [⟨0, 0⟩]⟩ where
  mmap_eq := rfl
  id_eq := rfl
  start_eq := rfl
  sbrk_eq := rfl
  aligned := by decide
  end_le := by decide
  freerg_ne := by decide
  resident_iff p := by
    rw [show emptyHeap.mm.pgd p = 0 from rfl, resident_zero]
    simp
  resident_of_present p hp := by
    rw [show emptyHeap.mm.pgd p = 0 from rfl, pagingPagePresent_zero] at hp
    cases hp

/-- On an empty heap: 300 bytes need two frames, and there is one; and one byte is carved from a
region that has none. -/
theorem empty_heap_not_all_or_nothing :
    ¬ (emptyHeap.withFree [0]).AllOrNothing 300 0 ∧ ¬ emptyHeap.AllOrNothing 1 0 := by
  constructor
  · rw [allOrNothing_of_noneFits (c := emptyHeap.withFree [0]) pagedArea_emptyHeap (by decide)
      (by decide) (by decide) (by decide)]
    decide
  · rw [allOrNothing_of_fits pagedArea_emptyHeap (by decide) (List.mem_singleton_self _) (by decide)
      (by decide) (by decide) (by decide)]
    intro hbelow
    exact absurd (hbelow 0 ⟨by decide, by decide⟩) (by decide)

end Pcb

end Ossim.Mm
