import Ossim.Mm.MemOp

/-!
# Looking up an area (`get_vma_by_num`)

The loop of `get_vma_by_num` goes on as long as the number of the area it stands at is smaller than
the one it looks for. It tests the pointer before it follows the link, and reads the next area
without a test, so behind the last area it reads through `NULL`. Where it stops it does not compare
the numbers again: at a gap it returns the area behind it. None of the callers tests the pointer it
gets.

In a list with increasing numbers an area is found if it is there. A number that no area has is
never answered as the callers would need it.
-/

namespace Ossim.Mm

/-- The number of the area is `vmaid`. -/
def VmArea.HasId (area : VmArea) (vmaid : BitVec 32) : Prop :=
  (area.vmId.toNat : Int) = vmaid.toInt

instance (area : VmArea) (vmaid : BitVec 32) : Decidable (area.HasId vmaid) :=
  inferInstanceAs (Decidable (_ = _))

/-- The loop of `get_vma_by_num` does not stop at the area. -/
def VmArea.PassedBy (area : VmArea) (vmaid : BitVec 32) : Prop :=
  (area.vmId.setWidth 32).toInt < vmaid.toInt

namespace MmStruct

/-- There is an area with the number. -/
def HasVma (mm : MmStruct) (vmaid : BitVec 32) : Prop := ∃ area ∈ mm.mmap, area.HasId vmaid

/-! ## What the loop does -/

/-- It stops at the first area that it does not pass by. -/
theorem seekVma_append {vmaid : BitVec 32} {pre post : List VmArea} {area : VmArea}
    (hpre : ∀ a ∈ pre, a.PassedBy vmaid) (harea : ¬ area.PassedBy vmaid) (k : Nat) :
    seekVma vmaid k (pre ++ area :: post) = .ok (some (k + pre.length, area)) := by
  induction pre generalizing k with
  | nil => exact if_neg harea
  | cons a pre ih =>
      have hpass : (a.vmId.setWidth 32).toInt < vmaid.toInt := hpre a List.mem_cons_self
      have hplace : k + 1 + pre.length = k + (pre.length + 1) := by omega
      rw [List.cons_append, seekVma, if_pos hpass,
        ih (fun b hb => hpre b (List.mem_cons_of_mem _ hb)), List.length_cons, hplace]

/-- If there is no such area it follows the null link of the last one. -/
theorem seekVma_of_forall {vmaid : BitVec 32} {l : List VmArea} (hl : ∀ a ∈ l, a.PassedBy vmaid)
    (k : Nat) : seekVma vmaid k l = .error .nullDeref := by
  induction l generalizing k with
  | nil => rfl
  | cons a l ih =>
      have hpass : (a.vmId.setWidth 32).toInt < vmaid.toInt := hl a List.mem_cons_self
      rw [seekVma, if_pos hpass]
      exact ih (fun b hb => hl b (List.mem_cons_of_mem _ hb)) (k + 1)

/-- An area with a smaller number is passed by. -/
theorem passedBy_of_lt {vmaid : BitVec 32} {a area : VmArea} (harea : area.HasId vmaid)
    (hlt : a.vmId < area.vmId) : a.PassedBy vmaid := by
  unfold VmArea.HasId at harea
  have hbound := BitVec.toInt_lt (x := vmaid)
  have hnum : a.vmId.toNat < area.vmId.toNat := hlt
  have hsmall : (a.vmId.setWidth 32).toNat = a.vmId.toNat := by
    rw [BitVec.toNat_setWidth]
    omega
  unfold VmArea.PassedBy
  rw [BitVec.toInt_eq_toNat_of_lt (by omega), hsmall]
  omega

/-- The area with the number is not. -/
theorem not_passedBy {vmaid : BitVec 32} {area : VmArea} (harea : area.HasId vmaid) :
    ¬ area.PassedBy vmaid := by
  unfold VmArea.HasId at harea
  have hbound := BitVec.toInt_lt (x := vmaid)
  have hsmall : (area.vmId.setWidth 32).toNat = area.vmId.toNat := by
    rw [BitVec.toNat_setWidth]
    omega
  unfold VmArea.PassedBy
  rw [BitVec.toInt_eq_toNat_of_lt (by omega), hsmall]
  omega

/-- In a list with increasing numbers the area with the number is found. -/
theorem getVmaByNum_of_hasVma {mm : MmStruct} {vmaid : BitVec 32}
    (hids : mm.mmap.Pairwise fun a b => a.vmId < b.vmId) (h : mm.HasVma vmaid) :
    ∃ k area, mm.getVmaByNum vmaid = .ok (some (k, area)) ∧ mm.mmap[k]? = some area ∧
      area.HasId vmaid := by
  obtain ⟨area, hmem, hid⟩ := h
  obtain ⟨pre, post, hsplit⟩ := List.append_of_mem hmem
  rw [hsplit] at hids
  have hpre : ∀ a ∈ pre, a.PassedBy vmaid := fun a ha =>
    passedBy_of_lt hid ((List.pairwise_append.mp hids).2.2 a ha area List.mem_cons_self)
  refine ⟨pre.length, area, ?_, ?_, hid⟩
  · rw [getVmaByNum, if_neg (by simp [hsplit]), hsplit, seekVma_append hpre (not_passedBy hid),
      Nat.zero_add]
  · rw [hsplit]
    simp

/-- With the one area that `init_mm` makes, every positive number runs off the list, and every other
one is taken for the number of that area. -/
theorem getVmaByNum_of_singleton {mm : MmStruct} {area : VmArea} (hmmap : mm.mmap = [area])
    (hid : area.vmId = 0) (vmaid : BitVec 32) :
    mm.getVmaByNum vmaid = if 0 < vmaid.toInt then .error .nullDeref else .ok (some (0, area)) := by
  have hpass : area.PassedBy vmaid ↔ 0 < vmaid.toInt := by
    unfold VmArea.PassedBy
    rw [hid]
    rfl
  rw [getVmaByNum, if_neg (by simp [hmmap]), hmmap]
  split
  · next hpos =>
    refine seekVma_of_forall (fun a ha => ?_) 0
    rw [List.mem_singleton.mp ha]
    exact hpass.mpr hpos
  · next hpos =>
    exact seekVma_append (fun a ha => absurd ha List.not_mem_nil) (fun h => hpos (hpass.mp h)) 0

end MmStruct

namespace Pcb

/-- An operation reports a failure and changes nothing. -/
def FailsCleanly (c : Pcb) (result : Exec (Int × Pcb)) : Prop := ∃ r, result = .ok (r, c) ∧ r ≠ 0

/-- Looking up `vmaid` works: it gives the area with this number, or `NULL` if there is none, and
then the operations that look it up fail and change nothing. -/
structure LooksUp (c : Pcb) (vmaid : BitVec 32) : Prop where
  lookup : (∃ k area, c.mm.getVmaByNum vmaid = .ok (some (k, area)) ∧ c.mm.mmap[k]? = some area ∧
      area.HasId vmaid) ∨
    c.mm.getVmaByNum vmaid = .ok none ∧ ¬ c.mm.HasVma vmaid
  alloc : ¬ c.mm.HasVma vmaid → ∀ rgid size, c.FailsCleanly (c.alloc vmaid rgid size)
  free : ¬ c.mm.HasVma vmaid → ∀ rgid, c.FailsCleanly (c.free vmaid rgid)
  incVmaLimit : ¬ c.mm.HasVma vmaid → ∀ incSz, c.FailsCleanly (c.incVmaLimit vmaid incSz)

/-- Extending an area follows the pointer it has looked up. -/
theorem incVmaLimit_of_none {c : Pcb} {vmaid : BitVec 32} (h : c.mm.getVmaByNum vmaid = .ok none)
    (incSz : BitVec 32) : c.incVmaLimit vmaid incSz = .error .nullDeref := by
  simp only [Pcb.incVmaLimit, MmStruct.getVmAreaNodeAtBrk, h, deref, bind, Except.bind]

/-- **Looking up an area works exactly for the areas there are.** The numbers of the areas may be
any that increase, and `vmaid` is any `int`. -/
theorem looksUp_iff {c : Pcb} (hids : c.mm.mmap.Pairwise fun a b => a.vmId < b.vmId)
    (vmaid : BitVec 32) : c.LooksUp vmaid ↔ c.mm.HasVma vmaid := by
  constructor
  · intro h
    by_contra hmiss
    rcases h.lookup with ⟨k, area, -, harea, hid⟩ | ⟨hnone, -⟩
    · exact hmiss ⟨area, List.mem_of_getElem? harea, hid⟩
    · obtain ⟨r, hfail, -⟩ := h.incVmaLimit hmiss 0
      rw [incVmaLimit_of_none hnone] at hfail
      cases hfail
  · intro h
    exact ⟨.inl (MmStruct.getVmaByNum_of_hasVma hids h), absurd h, absurd h, absurd h⟩

/-- Two areas, and the second one is looked up. -/
theorem looksUp_iff_second_area :
    let c : Pcb :=
      ⟨{ freshMm with mmap := [⟨0, 0, 0, 0, []⟩, ⟨4, 0, 0, 0, []⟩] }, oneFrame, oneFrame⟩
    c.LooksUp 4 := by
  intro c
  exact (looksUp_iff (by decide) 4).mpr ⟨⟨4, 0, 0, 0, []⟩, by decide, by decide⟩

/-- A process passes the number 1 in system call 17, and has only area 0. -/
theorem missing_area_not_looksUp :
    ∃ (c : Pcb) (vmaid : BitVec 32), (c.mm.mmap.Pairwise fun a b => a.vmId < b.vmId) ∧
      ¬ c.LooksUp vmaid := by
  refine ⟨⟨freshMm, oneFrame, oneFrame⟩, 1, List.pairwise_singleton _ _, fun h => ?_⟩
  rcases h.lookup with ⟨k, area, hfound, -⟩ | ⟨hnone, -⟩
  · cases hfound
  · cases hnone

end Pcb

end Ossim.Mm
