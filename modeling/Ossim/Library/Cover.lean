import Mathlib.Order.Interval.Set.Disjoint
import Mathlib.Order.CompletePartialOrder
import Mathlib.Data.Set.Basic

/-!
# Covering by half-open intervals

`cover lo hi a` is 1 if `a` lies in `[lo, hi)` and 0 otherwise. Intervals that are split and merged
keep the sum of their covers, so a collection of intervals of which no point is covered twice stays
one. Two intervals whose covers never add up to more than 1 are disjoint.

`signed lo hi a` counts an interval whose ends have been exchanged negatively. So it telescopes in
whatever order the ends are, and what is split and merged carelessly still has its sum.

Intervals with a gap between them stay apart when neighbours are joined: `Apart.join`.
-/

namespace Cover

variable {α : Type*} [LinearOrder α]

/-- How often `[lo, hi)` covers `a`. -/
def cover (lo hi a : α) : Nat := if lo ≤ a ∧ a < hi then 1 else 0

theorem cover_le_one (lo hi a : α) : cover lo hi a ≤ 1 := by
  unfold cover
  split
  · exact le_rfl
  · exact Nat.zero_le 1

/-- An interval without points covers nothing. -/
theorem cover_eq_zero {lo hi : α} (h : hi ≤ lo) (a : α) : cover lo hi a = 0 :=
  if_neg fun ⟨hlo, hhi⟩ => absurd (lt_of_le_of_lt hlo hhi) (not_lt.mpr h)

/-- A point above the interval is not covered. -/
theorem cover_eq_zero_of_le {lo hi a : α} (h : hi ≤ a) : cover lo hi a = 0 :=
  if_neg fun ⟨_, hhi⟩ => absurd hhi (not_lt.mpr h)

/-- A point below the interval is not covered. -/
theorem cover_eq_zero_of_lt {lo hi a : α} (h : a < lo) : cover lo hi a = 0 :=
  if_neg fun ⟨hlo, _⟩ => absurd hlo (not_le.mpr h)

theorem cover_eq_one {lo hi a : α} (hlo : lo ≤ a) (hhi : a < hi) : cover lo hi a = 1 :=
  if_pos ⟨hlo, hhi⟩

/-- Splitting an interval splits its cover. -/
theorem cover_add {lo mid hi : α} (h1 : lo ≤ mid) (h2 : mid ≤ hi) (a : α) :
    cover lo mid a + cover mid hi a = cover lo hi a := by
  rcases lt_or_ge a mid with hlt | hge
  · rw [cover_eq_zero_of_lt hlt, Nat.add_zero]
    unfold cover
    simp [hlt, lt_of_lt_of_le hlt h2]
  · rw [cover_eq_zero_of_le hge, Nat.zero_add]
    unfold cover
    simp [hge, le_trans h1 hge]

/-- A point is covered exactly if it lies in the interval. -/
theorem cover_pos {lo hi a : α} : 0 < cover lo hi a ↔ a ∈ Set.Ico lo hi := by
  unfold cover
  split
  · next h => exact ⟨fun _ => h, fun _ => Nat.one_pos⟩
  · next h => exact ⟨fun hpos => absurd hpos (Nat.lt_irrefl 0), fun hmem => absurd hmem h⟩

/-- Intervals that never cover a point together are disjoint. -/
theorem disjoint_of_add_le_one {lo hi lo' hi' : α}
    (h : ∀ a, cover lo hi a + cover lo' hi' a ≤ 1) : Disjoint (Set.Ico lo hi) (Set.Ico lo' hi') := by
  rw [Set.disjoint_left]
  intro a ha ha'
  have hone := h a
  rw [cover_eq_one ha.1 ha.2, cover_eq_one ha'.1 ha'.2] at hone
  omega

/-! ## Covering with a sign -/

/-- How often the way from `lo` to `hi` covers `a`: once upwards, minus once downwards. -/
def signed (lo hi a : α) : Int := (if lo ≤ a then 1 else 0) - (if hi ≤ a then 1 else 0)

/-- Two ways one after the other, whichever way they go. -/
theorem signed_add (lo mid hi a : α) : signed lo mid a + signed mid hi a = signed lo hi a := by
  unfold signed
  omega

/-- Upwards, a point is covered as by the interval. -/
theorem signed_eq_cover {lo hi : α} (h : lo ≤ hi) (a : α) : signed lo hi a = cover lo hi a := by
  unfold signed cover
  by_cases hhi : hi ≤ a
  · rw [if_pos hhi, if_pos (h.trans hhi), if_neg fun hlt => absurd hlt.2 (not_lt.mpr hhi)]
    rfl
  · by_cases hlo : lo ≤ a
    · rw [if_neg hhi, if_pos hlo, if_pos ⟨hlo, not_le.mp hhi⟩]
      rfl
    · rw [if_neg hhi, if_neg hlo, if_neg fun hlt => absurd hlt.1 hlo]
      rfl

/-- Downwards, no point is covered. -/
theorem signed_nonpos {lo hi : α} (h : hi ≤ lo) (a : α) : signed lo hi a ≤ 0 := by
  unfold signed
  by_cases hlo : lo ≤ a
  · rw [if_pos hlo, if_pos (h.trans hlo)]
    exact le_rfl
  · rw [if_neg hlo]
    split <;> decide

theorem signed_le_cover (lo hi a : α) : signed lo hi a ≤ cover lo hi a := by
  rcases le_total lo hi with hle | hge
  · exact (signed_eq_cover hle a).le
  · exact (signed_nonpos hge a).trans (Int.natCast_nonneg _)

/-! ## Intervals with a gap between them -/

/-- There is a gap between `[lo, hi)` and `[lo', hi')`: one ends before the other begins. -/
def Apart (lo hi lo' hi' : α) : Prop := hi < lo' ∨ hi' < lo

theorem Apart.symm {lo hi lo' hi' : α} (h : Apart lo hi lo' hi') : Apart lo' hi' lo hi := Or.symm h

/-- Intervals with points in them are disjoint if one ends no later than the other begins. -/
theorem disjoint_iff {lo hi lo' hi' : α} (h : lo < hi) (h' : lo' < hi') :
    Disjoint (Set.Ico lo hi) (Set.Ico lo' hi') ↔ hi ≤ lo' ∨ hi' ≤ lo := by
  rw [Set.Ico_disjoint_Ico, le_max_iff, min_le_iff, min_le_iff]
  constructor
  · rintro ((hle | hle) | (hle | hle))
    · exact absurd hle (not_le.mpr h)
    · exact .inr hle
    · exact .inl hle
    · exact absurd hle (not_le.mpr h')
  · rintro (hle | hle)
    · exact .inr (.inl hle)
    · exact .inl (.inr hle)

/-- There is a gap between two intervals with points if they are disjoint and do not touch. -/
theorem apart_iff {lo hi lo' hi' : α} (h : lo < hi) (h' : lo' < hi') :
    Apart lo hi lo' hi' ↔
      Disjoint (Set.Ico lo hi) (Set.Ico lo' hi') ∧ hi ≠ lo' ∧ hi' ≠ lo := by
  rw [disjoint_iff h h']
  constructor
  · rintro (hlt | hlt)
    · exact ⟨.inl hlt.le, hlt.ne, ((h.trans hlt).trans h').ne'⟩
    · exact ⟨.inr hlt.le, ((h'.trans hlt).trans h).ne', hlt.ne⟩
  · rintro ⟨hle | hle, hne, hne'⟩
    · exact .inl (lt_of_le_of_ne hle hne)
    · exact .inr (lt_of_le_of_ne hle hne')

/-- What has a gap to both of two adjoining intervals has a gap to their union. -/
theorem Apart.join {lo mid hi lo' hi' : α} (h' : lo' < hi') (hleft : Apart lo mid lo' hi')
    (hright : Apart mid hi lo' hi') : Apart lo hi lo' hi' := by
  rcases hleft with hlt | hlt
  · rcases hright with hlt' | hlt'
    · exact .inl hlt'
    · exact absurd (hlt.trans h') (not_lt.mpr hlt'.le)
  · exact .inr hlt

/-- What is disjoint from one of two adjoining intervals and has a gap to the other is disjoint from
their union. -/
theorem disjoint_join_right {lo mid hi lo' hi' : α} (h' : lo' < hi') (hleft : mid ≤ lo' ∨ hi' ≤ lo)
    (hright : Apart mid hi lo' hi') : hi ≤ lo' ∨ hi' ≤ lo := by
  rcases hleft with hle | hle
  · rcases hright with hlt | hlt
    · exact .inl hlt.le
    · exact absurd (hle.trans_lt h') (not_lt.mpr hlt.le)
  · exact .inr hle

theorem disjoint_join_left {lo mid hi lo' hi' : α} (h' : lo' < hi') (hleft : Apart lo mid lo' hi')
    (hright : hi ≤ lo' ∨ hi' ≤ mid) : hi ≤ lo' ∨ hi' ≤ lo := by
  rcases hright with hle | hle
  · exact .inl hle
  · rcases hleft with hlt | hlt
    · exact absurd (hlt.trans h') (not_lt.mpr hle)
    · exact .inr hlt.le

end Cover
