import Mathlib.Algebra.BigOperators.Group.Finset.Basic
import Mathlib.Algebra.Order.BigOperators.Group.Finset
import Mathlib.Data.Multiset.OrderedMonoid

/-!
# Totals over a finite family

A family `g : ι → β` of components, each of which contributes `f i (g i)` to a total. Changing one
component exchanges its contribution. A total may be a number, for counting, or a multiset, for
collecting; what is collected without repetition has been collected from one component.
-/

namespace FamilySum

variable {ι β : Type*} [Fintype ι]

/-- Changing component `i` to `v` exchanges its contribution. -/
theorem sum_update_add [DecidableEq ι] {M : Type*} [AddCommMonoid M] (f : ι → β → M) (g : ι → β)
    (i : ι) (v : β) : (∑ j, f j (Function.update g i v j)) + f i (g i) = (∑ j, f j (g j)) + f i v := by
  have herase : ∑ j ∈ Finset.univ.erase i, f j (Function.update g i v j) =
      ∑ j ∈ Finset.univ.erase i, f j (g j) :=
    Finset.sum_congr rfl fun j hj => by rw [Function.update_of_ne (Finset.ne_of_mem_erase hj)]
  have hnew := Finset.add_sum_erase Finset.univ (fun j => f j (Function.update g i v j))
    (Finset.mem_univ i)
  have hold := Finset.add_sum_erase Finset.univ (fun j => f j (g j)) (Finset.mem_univ i)
  simp only [Function.update_self] at hnew
  rw [← hnew, ← hold, herase, add_right_comm, add_comm (f i v), add_right_comm, add_comm (f i (g i))]

omit [Fintype ι] in
/-- The same for the total over a part of the family. -/
theorem sum_update_add_of_mem [DecidableEq ι] {M : Type*} [AddCommMonoid M] {S : Finset ι} {i : ι}
    (hi : i ∈ S) (f : ι → M) (v : M) : ∑ j ∈ S, Function.update f i v j + f i = ∑ j ∈ S, f j + v := by
  have herase : ∑ j ∈ S.erase i, Function.update f i v j = ∑ j ∈ S.erase i, f j :=
    Finset.sum_congr rfl fun j hj => Function.update_of_ne (Finset.ne_of_mem_erase hj) _ _
  rw [← Finset.add_sum_erase S _ hi, ← Finset.add_sum_erase S f hi, herase, Function.update_self]
  ac_rfl

/-- If a component and a store `a` that it exchanges with have no more together afterwards, then
neither have the family and the store. -/
theorem add_sum_update_le [DecidableEq ι] {M : Type*} [AddCommMonoid M] [PartialOrder M]
    [IsOrderedCancelAddMonoid M] (f : ι → β → M) (g : ι → β) (i : ι) (v : β) {a a' : M}
    (h : f i v + a' ≤ f i (g i) + a) :
    a' + ∑ j, f j (Function.update g i v j) ≤ a + ∑ j, f j (g j) := by
  refine le_of_add_le_add_right (a := f i (g i)) ?_
  calc a' + ∑ j, f j (Function.update g i v j) + f i (g i)
      = a' + ((∑ j, f j (Function.update g i v j)) + f i (g i)) := add_assoc ..
    _ = f i v + a' + ∑ j, f j (g j) := by
        rw [sum_update_add]
        ac_rfl
    _ ≤ f i (g i) + a + ∑ j, f j (g j) := by gcongr
    _ = a + ∑ j, f j (g j) + f i (g i) := by ac_rfl

/-- The same for an exchange that loses nothing. -/
theorem add_sum_update_eq [DecidableEq ι] {M : Type*} [AddCommMonoid M] [PartialOrder M]
    [IsOrderedCancelAddMonoid M] (f : ι → β → M) (g : ι → β) (i : ι) (v : β) {a a' : M}
    (h : f i v + a' = f i (g i) + a) :
    a' + ∑ j, f j (Function.update g i v j) = a + ∑ j, f j (g j) := by
  refine le_antisymm (add_sum_update_le f g i v h.le) ?_
  have hback := add_sum_update_le f (Function.update g i v) i (g i)
    (show f i (g i) + a ≤ f i (Function.update g i v i) + a' by rw [Function.update_self, h])
  rwa [Function.update_idem, Function.update_eq_self] at hback

/-! ## Counting -/

/-- A component contributes no more than the total. -/
theorem le_sum (f : ι → Nat) (i : ι) : f i ≤ ∑ j, f j :=
  Finset.single_le_sum (fun _ _ => Nat.zero_le _) (Finset.mem_univ i)

/-- Two different components contribute no more than the total together. -/
theorem add_le_sum [DecidableEq ι] (f : ι → Nat) {i k : ι} (h : i ≠ k) : f i + f k ≤ ∑ j, f j := by
  have hpair : ∑ j ∈ {i, k}, f j = f i + f k := Finset.sum_pair h
  rw [← hpair]
  exact Finset.sum_le_sum_of_subset (Finset.subset_univ _)

/-- If one component contributes less, and the others what they did, so does the family. -/
theorem sum_add_le [DecidableEq ι] {f g : ι → Nat} {i : ι} {k : Nat} (h : f i + k ≤ g i)
    (hothers : ∀ j, j ≠ i → f j = g j) : (∑ j, f j) + k ≤ ∑ j, g j := by
  have herase : ∑ j ∈ Finset.univ.erase i, f j = ∑ j ∈ Finset.univ.erase i, g j :=
    Finset.sum_congr rfl fun j hj => hothers j (Finset.ne_of_mem_erase hj)
  rw [← Finset.add_sum_erase Finset.univ f (Finset.mem_univ i),
    ← Finset.add_sum_erase Finset.univ g (Finset.mem_univ i), herase]
  omega

/-! ## Collecting -/

variable {α : Type*}

/-- What one component contributes is part of the total. -/
theorem le_sum_multiset (m : ι → Multiset α) (i : ι) : m i ≤ ∑ j, m j :=
  Finset.single_le_sum (fun _ _ => Multiset.zero_le _) (Finset.mem_univ i)

/-- In a total without repetition, an element comes from one component only. -/
theorem eq_of_mem_of_nodup [DecidableEq ι] [DecidableEq α] {m : ι → Multiset α}
    (h : (∑ j, m j).Nodup) {a : α} {i k : ι} (hi : a ∈ m i) (hk : a ∈ m k) : i = k := by
  by_contra hne
  have hcount := Multiset.nodup_iff_count_le_one.mp h a
  rw [Multiset.count_sum'] at hcount
  have htwo := add_le_sum (fun j => (m j).count a) hne
  have h1 := Multiset.one_le_count_iff_mem.mpr hi
  have h2 := Multiset.one_le_count_iff_mem.mpr hk
  omega

end FamilySum
