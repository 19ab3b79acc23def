import Ossim.Mm.Regions

/-!
# Freeing merges neighbours (`__free`)

`__free` puts the freed region at the head of the free list and walks once over the rest. A free
region that touches the new one is unlinked, and the new one grows over it; so it can touch regions
further on that it did not touch before. Nodes that the walk has already passed are never looked at
again, and need not be: they had a gap to the new region when they were passed, and to every region
it can still grow over.

`Separated` is what the list looks like before and after: no empty region, no common address, no two
regions that touch.
-/

namespace Ossim.Mm

/-- A free list without empty regions, overlaps, or regions that touch. -/
structure Separated (l : List VmRg) : Prop where
  nonempty : ∀ rg ∈ l, rg.rgStart < rg.rgEnd
  disjoint : l.Pairwise fun x y => Disjoint x.range y.range
  gaps : l.Pairwise fun x y => x.rgEnd ≠ y.rgStart ∧ y.rgEnd ≠ x.rgStart

namespace VmRg

/-- The region has an address. -/
def Nonempty (rg : VmRg) : Prop := rg.rgStart.toNat < rg.rgEnd.toNat

/-- There is a gap between two regions. -/
def Apart (x y : VmRg) : Prop :=
  Cover.Apart x.rgStart.toNat x.rgEnd.toNat y.rgStart.toNat y.rgEnd.toNat

/-- Two regions may touch, but have no common address. -/
def Beside (x y : VmRg) : Prop :=
  x.rgEnd.toNat ≤ y.rgStart.toNat ∨ y.rgEnd.toNat ≤ x.rgStart.toNat

theorem Apart.symm {x y : VmRg} (h : x.Apart y) : y.Apart x := Cover.Apart.symm h

/-- Regions with addresses are apart if they are disjoint and do not touch. -/
theorem apart_iff {x y : VmRg} (hx : x.Nonempty) (hy : y.Nonempty) :
    x.Apart y ↔ Disjoint x.range y.range ∧ x.rgEnd ≠ y.rgStart ∧ y.rgEnd ≠ x.rgStart := by
  have hiff := Cover.apart_iff (α := Nat) hx hy
  rw [ne_eq, ne_eq, ← BitVec.toNat_inj, ← BitVec.toNat_inj]
  exact hiff

theorem beside_iff {x y : VmRg} (hx : x.Nonempty) (hy : y.Nonempty) :
    x.Beside y ↔ Disjoint x.range y.range := (Cover.disjoint_iff (α := Nat) hx hy).symm

theorem mem_range_iff {rg : VmRg} {a : Nat} : a ∈ rg.range ↔ 0 < rg.cover a :=
  Cover.cover_pos.symm

end VmRg

theorem separated_iff {l : List VmRg} :
    Separated l ↔ (∀ rg ∈ l, rg.Nonempty) ∧ l.Pairwise VmRg.Apart := by
  constructor
  · rintro ⟨hnonempty, hdisjoint, hgaps⟩
    refine ⟨fun rg hrg => BitVec.lt_def.mp (hnonempty rg hrg), ?_⟩
    refine (hdisjoint.and hgaps).imp_of_mem ?_
    rintro x y hx hy ⟨hd, hg⟩
    exact (VmRg.apart_iff (BitVec.lt_def.mp (hnonempty x hx))
      (BitVec.lt_def.mp (hnonempty y hy))).mpr ⟨hd, hg⟩
  · rintro ⟨hnonempty, hapart⟩
    have hsplit : l.Pairwise fun x y =>
        Disjoint x.range y.range ∧ x.rgEnd ≠ y.rgStart ∧ y.rgEnd ≠ x.rgStart := by
      refine hapart.imp_of_mem ?_
      intro x y hx hy hxy
      exact (VmRg.apart_iff (hnonempty x hx) (hnonempty y hy)).mp hxy
    exact ⟨fun rg hrg => BitVec.lt_def.mpr (hnonempty rg hrg), hsplit.imp And.left,
      hsplit.imp And.right⟩

/-! ## One walk over the list -/

/-- What holds of the new region and the rest of the list at every step of the walk: all have
addresses, the rest is separated, and the new region shares no address with it. -/
structure Walk (newrg : VmRg) (l : List VmRg) : Prop where
  newNonempty : newrg.Nonempty
  nonempty : ∀ rg ∈ l, rg.Nonempty
  apart : l.Pairwise VmRg.Apart
  beside : ∀ rg ∈ l, newrg.Beside rg

namespace Walk

variable {newrg cur : VmRg} {rest : List VmRg}

/-- The new region grows at its end. -/
theorem grow_end (h : Walk newrg (cur :: rest)) (htouch : newrg.rgEnd = cur.rgStart) :
    Walk { newrg with rgEnd := cur.rgEnd } rest := by
  have htouch' : newrg.rgEnd.toNat = cur.rgStart.toNat := congrArg BitVec.toNat htouch
  have hnew := h.newNonempty
  have hcur := h.nonempty cur List.mem_cons_self
  obtain ⟨hhead, htail⟩ := List.pairwise_cons.mp h.apart
  refine ⟨?_, fun rg hrg => h.nonempty rg (List.mem_cons_of_mem _ hrg), htail, ?_⟩
  · unfold VmRg.Nonempty at hnew hcur ⊢
    simp only
    omega
  · intro rg hrg
    have hmem := List.mem_cons_of_mem cur hrg
    have hgap := hhead rg hrg
    unfold VmRg.Apart at hgap
    rw [← htouch'] at hgap
    exact Cover.disjoint_join_right (h.nonempty rg hmem) (h.beside rg hmem) hgap

/-- The new region grows at its start. -/
theorem grow_start (h : Walk newrg (cur :: rest)) (htouch : newrg.rgStart = cur.rgEnd) :
    Walk { newrg with rgStart := cur.rgStart } rest := by
  have htouch' : newrg.rgStart.toNat = cur.rgEnd.toNat := congrArg BitVec.toNat htouch
  have hnew := h.newNonempty
  have hcur := h.nonempty cur List.mem_cons_self
  obtain ⟨hhead, htail⟩ := List.pairwise_cons.mp h.apart
  refine ⟨?_, fun rg hrg => h.nonempty rg (List.mem_cons_of_mem _ hrg), htail, ?_⟩
  · unfold VmRg.Nonempty at hnew hcur ⊢
    simp only
    omega
  · intro rg hrg
    have hmem := List.mem_cons_of_mem cur hrg
    have hgap := hhead rg hrg
    unfold VmRg.Apart at hgap
    rw [← htouch'] at hgap
    exact Cover.disjoint_join_left (h.nonempty rg hmem) hgap (h.beside rg hmem)

/-- The walk passes a region. -/
theorem pass (h : Walk newrg (cur :: rest)) : Walk newrg rest where
  newNonempty := h.newNonempty
  nonempty rg hrg := h.nonempty rg (List.mem_cons_of_mem _ hrg)
  apart := (List.pairwise_cons.mp h.apart).2
  beside rg hrg := h.beside rg (List.mem_cons_of_mem _ hrg)

/-- A region that is passed has a gap to the new one. -/
theorem apart_of_pass (h : Walk newrg (cur :: rest)) (hend : newrg.rgEnd ≠ cur.rgStart)
    (hstart : newrg.rgStart ≠ cur.rgEnd) : newrg.Apart cur := by
  have hcur := h.nonempty cur List.mem_cons_self
  rw [VmRg.apart_iff h.newNonempty hcur]
  refine ⟨?_, hend, Ne.symm hstart⟩
  exact (VmRg.beside_iff h.newNonempty hcur).mp (h.beside cur List.mem_cons_self)

end Walk

/-- What has a gap to the new region and to all that is left of the list has a gap to the region that
comes out: this is why passed regions never need a second look. -/
theorem apart_coalesce {newrg x : VmRg} {l : List VmRg} (h : Walk newrg l) (hx : x.Nonempty)
    (hnew : newrg.Apart x) (hl : ∀ rg ∈ l, rg.Apart x) : (coalesce newrg l).1.Apart x := by
  induction l generalizing newrg with
  | nil => exact hnew
  | cons cur rest ih =>
      have hcur := hl cur List.mem_cons_self
      have hrest : ∀ rg ∈ rest, rg.Apart x := fun rg hrg => hl rg (List.mem_cons_of_mem _ hrg)
      unfold coalesce
      split
      · next htouch =>
        refine ih (h.grow_end htouch) ?_ hrest
        unfold VmRg.Apart at hnew hcur ⊢
        rw [← htouch] at hcur
        exact Cover.Apart.join hx hnew hcur
      · split
        · next htouch =>
          refine ih (h.grow_start htouch) ?_ hrest
          unfold VmRg.Apart at hnew hcur ⊢
          rw [← htouch] at hcur
          exact Cover.Apart.join hx hcur hnew
        · exact ih h.pass hnew hrest

/-- What the walk leaves in the list was there before. -/
theorem mem_of_mem_coalesce {newrg rg : VmRg} {l : List VmRg} (h : rg ∈ (coalesce newrg l).2) :
    rg ∈ l := by
  induction l generalizing newrg with
  | nil => exact h
  | cons cur rest ih =>
      unfold coalesce at h
      split at h
      · exact List.mem_cons_of_mem _ (ih h)
      · split at h
        · exact List.mem_cons_of_mem _ (ih h)
        · rcases List.mem_cons.mp h with rfl | hmem
          · exact List.mem_cons_self
          · exact List.mem_cons_of_mem _ (ih hmem)

/-- **Merging leaves a separated list.** -/
theorem separated_coalesce {newrg : VmRg} {l : List VmRg} (h : Walk newrg l) :
    Separated ((coalesce newrg l).1 :: (coalesce newrg l).2) := by
  rw [separated_iff]
  induction l generalizing newrg with
  | nil =>
      simp only [coalesce, List.mem_singleton, forall_eq, List.pairwise_singleton, and_true]
      exact h.newNonempty
  | cons cur rest ih =>
      unfold coalesce
      split
      · next htouch => exact ih (h.grow_end htouch)
      · next hend =>
        split
        · next htouch => exact ih (h.grow_start htouch)
        · next hstart =>
          obtain ⟨hnonempty, hapart⟩ := ih h.pass
          obtain ⟨hhead, htail⟩ := List.pairwise_cons.mp hapart
          obtain ⟨hcurrest, -⟩ := List.pairwise_cons.mp h.apart
          have hcur := h.nonempty cur List.mem_cons_self
          have hgap : (coalesce newrg rest).1.Apart cur :=
            apart_coalesce h.pass hcur (h.apart_of_pass hend hstart)
              fun rg hrg => (hcurrest rg hrg).symm
          refine ⟨?_, List.pairwise_cons.mpr ⟨?_, List.pairwise_cons.mpr ⟨?_, htail⟩⟩⟩
          · intro rg hrg
            rcases List.mem_cons.mp hrg with rfl | hmem
            · exact hnonempty _ List.mem_cons_self
            · rcases List.mem_cons.mp hmem with rfl | hleft
              · exact hcur
              · exact hnonempty rg (List.mem_cons_of_mem _ hleft)
          · intro rg hrg
            rcases List.mem_cons.mp hrg with rfl | hleft
            · exact hgap
            · exact hhead rg hleft
          · intro rg hleft
            exact hcurrest rg (mem_of_mem_coalesce hleft)

/-- The addresses of a list of regions. -/
def addresses (l : List VmRg) : Set Nat := {a | ∃ rg ∈ l, a ∈ rg.range}

theorem mem_addresses {l : List VmRg} {a : Nat} : a ∈ addresses l ↔ 0 < freeCover l a := by
  induction l with
  | nil => simp [addresses, freeCover]
  | cons rg rest ih =>
      have hcons : a ∈ addresses (rg :: rest) ↔ a ∈ rg.range ∨ a ∈ addresses rest := by
        simp [addresses]
      rw [hcons, ih, VmRg.mem_range_iff, freeCover_cons]
      omega

/-- Merging keeps the addresses. -/
theorem addresses_coalesce {newrg : VmRg} {l : List VmRg} (h : Walk newrg l) :
    addresses ((coalesce newrg l).1 :: (coalesce newrg l).2) = addresses l ∪ newrg.range := by
  obtain ⟨-, hcover⟩ := coalesce_cover newrg l (Nat.le_of_lt h.newNonempty)
    fun rg hrg => Nat.le_of_lt (h.nonempty rg hrg)
  ext a
  rw [Set.mem_union, mem_addresses, mem_addresses, VmRg.mem_range_iff, freeCover_cons, hcover]
  omega

/-! ## Freeing -/

/-- **Freeing a region merges it with its neighbours and does nothing else.** The free list stays
separated and gains exactly the addresses of the region, the region becomes empty, and everything
else is as before. -/
theorem free_coalesces {c : Pcb} {vmaid rgid : BitVec 32} {k : Nat} {vma : VmArea} {i : Rgid}
    (hvma : c.mm.getVmaByNum vmaid = .ok (some (k, vma))) (hi : (i : Nat) = rgid.toNat)
    (hlive : (c.mm.symrgtbl i).rgStart < (c.mm.symrgtbl i).rgEnd)
    (hfree : Separated vma.vmFreergList)
    (hdisjoint : ∀ rg ∈ vma.vmFreergList, Disjoint rg.range (c.mm.symrgtbl i).range) :
    ∃ c' left, c.free vmaid rgid = .ok (0, c') ∧ Separated left ∧
      addresses left = addresses vma.vmFreergList ∪ (c.mm.symrgtbl i).range ∧
      c' = { c with
        mm :=
          { c.mm with
            mmap := c.mm.mmap.set k { vma with vmFreergList := left }
            symrgtbl := Function.update c.mm.symrgtbl i ⟨0, 0⟩ } } := by
  obtain ⟨hnonempty, hapart⟩ := separated_iff.mp hfree
  have hlive' : (c.mm.symrgtbl i).Nonempty := BitVec.lt_def.mp hlive
  have hwalk : Walk (c.mm.symrgtbl i) vma.vmFreergList := by
    refine ⟨hlive', hnonempty, hapart, ?_⟩
    intro rg hrg
    exact (VmRg.beside_iff hlive' (hnonempty rg hrg)).mpr (hdisjoint rg hrg).symm
  refine ⟨_, _, ?_, separated_coalesce hwalk, addresses_coalesce hwalk, rfl⟩
  -- the number is in range and the region is live, so both checks let it pass
  have hmax : rgid.toNat < pagingMaxSymtblSz := hi ▸ i.isLt
  have hrange : ¬ (rgid.toInt < 0 ∨ (pagingMaxSymtblSz : Int) ≤ rgid.toInt) := by
    have hsmall : rgid.toNat < 30 := hmax
    rw [BitVec.toInt_eq_toNat_of_lt (by omega)]
    omega
  have hindex : symIndex rgid.toNat = .ok i := by
    unfold symIndex
    rw [dif_pos hmax]
    exact congrArg Except.ok (Fin.ext hi.symm)
  unfold Pcb.free
  rw [if_neg hrange]
  simp only [hindex, hvma, deref, bind, Except.bind, pure, Except.pure,
    BitVec.not_le.mpr hlive, if_false]
  rfl

/-- Region 1 lies between two free regions, which come in the order against the addresses. -/
def betweenFree : Pcb where
  mm :=
    { freshMm with
      mmap := [⟨0, 0, 512, 512, [⟨400, 512⟩, ⟨20, 30⟩, ⟨100, 300⟩]⟩]
      symrgtbl := Function.update freshMm.symrgtbl rgidOne ⟨300, 400⟩ }
  mram := fourFrames
  activeMswp := oneFrame

/-- The three become one region. -/
theorem free_coalesces_between :
    ∃ c' left, betweenFree.free 0 1 = .ok (0, c') ∧ Separated left ∧
      addresses left = addresses [⟨400, 512⟩, ⟨20, 30⟩, ⟨100, 300⟩] ∪ VmRg.range ⟨300, 400⟩ := by
  have hsep : Separated [⟨400, 512⟩, ⟨20, 30⟩, ⟨100, 300⟩] := by
    rw [separated_iff]
    simp [VmRg.Nonempty, VmRg.Apart, Cover.Apart]
  have hbeside : ∀ rg ∈ ([⟨400, 512⟩, ⟨20, 30⟩, ⟨100, 300⟩] : List VmRg),
      Disjoint rg.range (VmRg.range ⟨300, 400⟩) := by
    intro rg hrg
    have hnonempty := (separated_iff.mp hsep).1 rg hrg
    have hlive : VmRg.Nonempty ⟨300, 400⟩ := by
      unfold VmRg.Nonempty
      decide
    rw [← VmRg.beside_iff hnonempty hlive]
    revert rg
    simp [VmRg.Beside]
  have hvma : betweenFree.mm.getVmaByNum 0 =
      .ok (some (0, ⟨0, 0, 512, 512, [⟨400, 512⟩, ⟨20, 30⟩, ⟨100, 300⟩]⟩)) := rfl
  have hone : (rgidOne : Nat) = (1 : BitVec 32).toNat := rfl
  obtain ⟨c', left, hrun, hleft, haddr, -⟩ := free_coalesces hvma hone (by decide) hsep hbeside
  exact ⟨c', left, hrun, hleft, haddr⟩

end Ossim.Mm
