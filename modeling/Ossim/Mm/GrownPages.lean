import Mathlib.Data.List.Nodup
import Mathlib.Data.Set.Function
import Ossim.Mm.MemOp

/-!
# The pages of a growth (`inc_vma_limit`)

`alloc_pages_range` takes frames off the free list one by one and puts each in front of those it
has; `vmap_page_range` then walks along them and writes one entry after another, and puts each page
in front of the others. Both loops turn the order around. What counts is that the first `n` free
frames and the `n` new pages correspond one to one, that no other entry and no other frame is
touched, and that the new pages are queued behind all older ones.
-/

namespace Ossim.Mm

/-- The pages with the numbers from `lo` on, `n` of them. -/
def newPages (lo n : Nat) : Set Pgn := {p | lo ≤ p ∧ (p : Nat) < lo + n}

namespace Mapped

variable {pgd pgd' : Pgn → Pte} {fifo fifo' : List Pgn} {n : Nat} {frames : List Nat}

/-- The frame of a new page is the one at its place. -/
theorem fpn_eq (h : Mapped pgd fifo n frames pgd' fifo') (hlt : ∀ f ∈ frames, f < 2 ^ 13) {k : Nat}
    (hk : k < frames.length) {p : Pgn} (hp : (p : Nat) = n + k) :
    pagingFpn (pgd' p) = frames[k] := by
  obtain ⟨pte, hpte⟩ := h.entry (List.getElem?_eq_getElem hk) hp
  rw [hpte, pagingFpn_pteSetFpn pte (hlt _ (List.getElem_mem hk))]

/-- Every new page has a place. -/
theorem place_of_mem {m : Nat} {p : Pgn} (hp : p ∈ newPages n m) :
    ∃ k < m, (p : Nat) = n + k := by
  obtain ⟨hlo, hhi⟩ := hp
  exact ⟨p - n, by omega, by omega⟩

theorem mapsTo (h : Mapped pgd fifo n frames pgd' fifo') (hlt : ∀ f ∈ frames, f < 2 ^ 13) :
    Set.MapsTo (fun p => pagingFpn (pgd' p)) (newPages n frames.length) {f | f ∈ frames} := by
  intro p hp
  obtain ⟨k, hk, hpk⟩ := place_of_mem hp
  show pagingFpn (pgd' p) ∈ frames
  rw [h.fpn_eq hlt hk hpk]
  exact List.getElem_mem hk

theorem injOn (h : Mapped pgd fifo n frames pgd' fifo') (hnodup : frames.Nodup)
    (hlt : ∀ f ∈ frames, f < 2 ^ 13) :
    Set.InjOn (fun p => pagingFpn (pgd' p)) (newPages n frames.length) := by
  intro p hp q hq heq
  obtain ⟨k, hk, hpk⟩ := place_of_mem hp
  obtain ⟨j, hj, hqj⟩ := place_of_mem hq
  have hsame : frames[k] = frames[j] :=
    calc frames[k] = pagingFpn (pgd' p) := (h.fpn_eq hlt hk hpk).symm
      _ = pagingFpn (pgd' q) := heq
      _ = frames[j] := h.fpn_eq hlt hj hqj
  have hkj : k = j := hnodup.getElem_inj_iff.mp hsame
  exact Fin.ext (by omega)

theorem surjOn (h : Mapped pgd fifo n frames pgd' fifo') (hlt : ∀ f ∈ frames, f < 2 ^ 13)
    (hle : n + frames.length ≤ pagingMaxPgn) :
    Set.SurjOn (fun p => pagingFpn (pgd' p)) (newPages n frames.length) {f | f ∈ frames} := by
  intro f hf
  obtain ⟨k, hk, rfl⟩ := List.getElem_of_mem hf
  exact ⟨⟨n + k, by omega⟩, ⟨Nat.le_add_right n k, Nat.add_lt_add_left hk n⟩, h.fpn_eq hlt hk rfl⟩

/-- The frames and the new pages correspond to each other. -/
theorem bijOn (h : Mapped pgd fifo n frames pgd' fifo') (hnodup : frames.Nodup)
    (hlt : ∀ f ∈ frames, f < 2 ^ 13) (hle : n + frames.length ≤ pagingMaxPgn) :
    Set.BijOn (fun p => pagingFpn (pgd' p)) (newPages n frames.length) {f | f ∈ frames} :=
  ⟨h.mapsTo hlt, h.injOn hnodup hlt, h.surjOn hlt hle⟩

/-- The new pages are queued one in front of the other. -/
theorem fifo_eq (h : Mapped pgd fifo n frames pgd' fifo') :
    ∃ pages, fifo' = pages ++ fifo ∧
      pages.map (fun p : Pgn => (p : Nat)) = (List.range' n frames.length).reverse := by
  induction h with
  | nil => exact ⟨[], rfl, rfl⟩
  | @cons pgd pgd' fifo fifo' n fpn frames p hp hrest ih =>
      obtain ⟨pages, rfl, hpages⟩ := ih
      refine ⟨pages ++ [p], by simp, ?_⟩
      rw [List.map_append, hpages, List.length_cons, List.range'_succ, List.reverse_cons,
        List.map_singleton, hp]

end Mapped

namespace Pcb

variable {c : Pcb} {area : VmArea} {incSz : BitVec 32} {n : Nat}

/-- A size that rounds up to `n` pages, as a number of pages. -/
theorem mappedPages_of_aligned (hsz : (pagingPageAlignsz incSz).toNat = 256 * n)
    (hn : 256 * n ≤ 2 ^ 22) : mappedPages incSz = n := by
  have hdiv : (incNumPage incSz).toNat = n := by
    rw [incNumPage, toNat_sdiv_pagesz (by omega), hsz]
    omega
  rw [mappedPages, BitVec.toInt_eq_toNat_of_lt (by omega), hdiv]
  rfl

/-- And as a distance. -/
theorem movedEnd_of_aligned (hsz : (pagingPageAlignsz incSz).toNat = 256 * n)
    (hend : area.vmEnd.toNat + 256 * n ≤ 2 ^ 22) :
    (movedEnd area incSz).toNat = area.vmEnd.toNat + 256 * n := by
  rw [movedEnd, BitVec.toNat_add, toNat_signExtend (by omega), hsz]
  omega

/-- Growing by `n` pages returns, and maps from the old end of the area on. -/
theorem incVmaLimit_of_aligned (harea : SingleArea c.mm area)
    (hsz : (pagingPageAlignsz incSz).toNat = 256 * n)
    (hend : area.vmEnd.toNat + 256 * n ≤ 2 ^ 22) (hfree : n ≤ c.mram.freeFpList.length) :
    ∃ pgd' fifo', c.incVmaLimit 0 incSz = .ok (0, { c with
        mm := { c.mm with
          mmap := [{ area with vmEnd := movedEnd area incSz, sbrk := movedEnd area incSz }]
          pgd := pgd'
          fifoPgn := fifo' }
        mram := { c.mram with freeFpList := c.mram.freeFpList.drop n } }) ∧
      Mapped c.mm.pgd c.mm.fifoPgn (area.vmEnd.toNat / 256) (c.mram.freeFpList.take n).reverse
        pgd' fifo' := by
  have hpages : mappedPages incSz = n := mappedPages_of_aligned hsz (by omega)
  -- without a new page it does not matter where mapping starts
  have hfirst : n = 0 ∨ firstEntry area = area.vmEnd.toNat / 256 := by
    rcases Nat.eq_zero_or_pos n with hzero | hpos
    · exact .inl hzero
    · exact .inr (harea.pagingPgn_vmEnd (by omega))
  have hroom : firstEntry area + mappedPages incSz ≤ 2 ^ 14 := by
    have hlt := firstEntry_lt area
    rw [hpages]
    omega
  obtain ⟨c', hrun⟩ := incVmaLimit_of_le harea (hpages ▸ hfree) hroom
  obtain ⟨-, hmoved⟩ := moved_of_incVmaLimit harea hrun
  cases hmoved with
  | @intro taken rest pgd' fifo' hsplit hlen hmapped =>
      rw [hpages] at hlen
      refine ⟨pgd', fifo', ?_, ?_⟩
      · rw [hsplit, List.drop_left' hlen]
        exact hrun
      · rw [hsplit, List.take_left' hlen]
        rcases hfirst with hzero | heq
        · obtain rfl : taken = [] := List.eq_nil_of_length_eq_zero (by omega)
          cases hmapped
          exact .nil _ _ _
        · rwa [heq] at hmapped

/-- **Growing by `n` pages maps exactly the `n` pages behind the area, to the first `n` free
frames.** -/
theorem growth_maps_new_pages (harea : SingleArea c.mm area)
    (hsz : (pagingPageAlignsz incSz).toNat = 256 * n)
    (hend : area.vmEnd.toNat + 256 * n ≤ 2 ^ 22) (hfree : n ≤ c.mram.freeFpList.length)
    (hnodup : c.mram.freeFpList.Nodup) (hlt : ∀ f ∈ c.mram.freeFpList, f < 2 ^ 13) :
    ∃ newEnd pgd' pages,
      c.incVmaLimit 0 incSz = .ok (0, { c with
        mm := { c.mm with
          mmap := [{ area with vmEnd := newEnd, sbrk := newEnd }]
          pgd := pgd'
          fifoPgn := pages ++ c.mm.fifoPgn }
        mram := { c.mram with freeFpList := c.mram.freeFpList.drop n } }) ∧
      newEnd.toNat = area.vmEnd.toNat + 256 * n ∧
      (∀ p ∈ newPages (area.vmEnd.toNat / 256) n, resident (pgd' p) = true) ∧
      Set.BijOn (fun p => pagingFpn (pgd' p)) (newPages (area.vmEnd.toNat / 256) n)
        {f | f ∈ c.mram.freeFpList.take n} ∧
      (∀ p, p ∉ newPages (area.vmEnd.toNat / 256) n → pgd' p = c.mm.pgd p) ∧
      pages.map (fun p : Pgn => (p : Nat)) = (List.range' (area.vmEnd.toNat / 256) n).reverse := by
  have hmax : pagingMaxPgn = 2 ^ 14 := pagingMaxPgn_eq
  obtain ⟨pgd', fifo', hrun, hmapped⟩ := incVmaLimit_of_aligned harea hsz hend hfree
  have hlen : (c.mram.freeFpList.take n).reverse.length = n := by
    rw [List.length_reverse, List.length_take_of_le hfree]
  have hnodup' : (c.mram.freeFpList.take n).reverse.Nodup :=
    List.nodup_reverse.mpr (hnodup.sublist (List.take_sublist _ _))
  have hlt' : ∀ f ∈ (c.mram.freeFpList.take n).reverse, f < 2 ^ 13 := fun f hf =>
    hlt f (List.mem_of_mem_take (List.mem_reverse.mp hf))
  obtain ⟨pages, rfl, hfifo⟩ := hmapped.fifo_eq
  have hbij := hmapped.bijOn hnodup' hlt' (by omega)
  rw [hlen] at hbij hfifo
  refine ⟨movedEnd area incSz, pgd', pages, hrun, movedEnd_of_aligned hsz hend, ?_, ?_, ?_, hfifo⟩
  · rintro p ⟨hlo, hhi⟩
    exact hmapped.resident_inside p hlo (by omega)
  · simpa only [List.mem_reverse] using hbij
  · intro p hp
    refine hmapped.pgd_outside p ?_
    by_contra hin
    exact hp ⟨by omega, by omega⟩

/-- A process with one page grows by two, with three free frames. -/
theorem growth_maps_new_pages_two :
    let c : Pcb := ⟨{ freshMm with mmap := [⟨0, 0, 256, 256, []⟩] },
      { fourFrames with freeFpList := [3, 0, 2] }, oneFrame⟩
    ∃ newEnd pgd' pages,
      c.incVmaLimit 0 300 = .ok (0, { c with
        mm := { c.mm with
          mmap := [⟨0, 0, newEnd, newEnd, []⟩]
          pgd := pgd'
          fifoPgn := pages ++ [] }
        mram := { c.mram with freeFpList := [2] } }) ∧
      newEnd.toNat = 256 + 256 * 2 ∧
      (∀ p ∈ newPages 1 2, resident (pgd' p) = true) ∧
      Set.BijOn (fun p => pagingFpn (pgd' p)) (newPages 1 2) {f | f ∈ [3, 0]} ∧
      (∀ p, p ∉ newPages 1 2 → pgd' p = 0) ∧
      pages.map (fun p : Pgn => (p : Nat)) = [2, 1] := by
  intro c
  have harea : SingleArea c.mm ⟨0, 0, 256, 256, []⟩ := ⟨rfl, rfl, rfl, by decide, by decide⟩
  have hsz : (pagingPageAlignsz 300).toNat = 256 * 2 := by decide
  exact growth_maps_new_pages harea hsz (by decide) (by decide) (by decide) (by decide)

end Pcb

end Ossim.Mm
