import Mathlib.Algebra.Order.BigOperators.Group.List
import Mathlib.Algebra.Ring.Int.Defs
import Ossim.Library.Cover
import Ossim.Library.Sum
import Ossim.Mm.MemOp

/-!
# Heap regions never overlap

Carving a free region, extending the area and merging free regions all keep the sum of what the
regions cover: a new region takes its addresses from a free one or from above the old end of the
area, and a freed one gives them back. So no address ever belongs to two regions, and none above the
end of the area to any.

There is one exception. The search accepts a free region that is one byte too short, and carving it
makes a region whose last byte belongs to somebody else or lies above the area. `TakesShort` says
when this happens; the results below are about the runs where it does not, and
`overlap_after_short_region` shows a run where it does.
-/

namespace Ossim.Mm

/-- The addresses of a region. -/
def VmRg.range (rg : VmRg) : Set Nat := Set.Ico rg.rgStart.toNat rg.rgEnd.toNat

theorem VmRg.disjoint_range_iff {rg rg' : VmRg} : Disjoint rg.range rg'.range ↔
    min rg.rgEnd.toNat rg'.rgEnd.toNat ≤ max rg.rgStart.toNat rg'.rgStart.toNat :=
  Set.Ico_disjoint_Ico

instance (rg rg' : VmRg) : Decidable (Disjoint rg.range rg'.range) :=
  decidable_of_iff' _ VmRg.disjoint_range_iff

/-- How often a region covers an address. -/
def VmRg.cover (rg : VmRg) (a : Nat) : Nat := Cover.cover rg.rgStart.toNat rg.rgEnd.toNat a

/-- How often the regions of a list cover an address. -/
def freeCover (l : List VmRg) (a : Nat) : Nat := (l.map fun rg => rg.cover a).sum

/-- How often the regions of the table cover an address. -/
def symCover (tbl : Rgid → VmRg) (a : Nat) : Nat := ∑ i, (tbl i).cover a

/-! ## The short region -/

/-- A free region has at least `size - 1` bytes, and so passes the size test. -/
def LargeEnough (size : BitVec 32) (rg : VmRg) : Prop :=
  rg.rgStart.toNat + size.toNat ≤ rg.rgEnd.toNat + 1

/-- A free region has exactly `size - 1` bytes. -/
def OneByteShort (size : BitVec 32) (rg : VmRg) : Prop :=
  rg.rgStart.toNat + size.toNat = rg.rgEnd.toNat + 1

instance (size : BitVec 32) (rg : VmRg) : Decidable (LargeEnough size rg) :=
  inferInstanceAs (Decidable (_ ≤ _))

instance (size : BitVec 32) (rg : VmRg) : Decidable (OneByteShort size rg) :=
  inferInstanceAs (Decidable (_ = _))

/-- The search takes a region before another one: it starts lower, or as low and comes first. -/
def TakenBefore (l : List VmRg) (j k : Fin l.length) : Prop :=
  l[j].rgStart ≤ l[k].rgStart ∧ (k < j → l[j].rgStart < l[k].rgStart)

instance (l : List VmRg) (j k : Fin l.length) : Decidable (TakenBefore l j k) :=
  inferInstanceAs (Decidable (_ ∧ (_ → _)))

/-- The first of the free regions that start lowest, among those with at least `size - 1` bytes, has
exactly `size - 1` bytes. -/
def TakesShort (l : List VmRg) (size : BitVec 32) : Prop :=
  ∃ j : Fin l.length, OneByteShort size l[j] ∧
    ∀ k : Fin l.length, LargeEnough size l[k] → TakenBefore l j k

instance (l : List VmRg) (size : BitVec 32) : Decidable (TakesShort l size) :=
  inferInstanceAs (Decidable (∃ j : Fin l.length, OneByteShort size l[j] ∧
    ∀ k : Fin l.length, LargeEnough size l[k] → TakenBefore l j k))

theorem takesShort_of_split {pre post : List VmRg} {best : VmRg} {size : BitVec 32}
    (hshort : OneByteShort size best)
    (hfirst : ∀ rg ∈ pre, LargeEnough size rg → best.rgStart < rg.rgStart)
    (hlowest : ∀ rg ∈ pre ++ best :: post, LargeEnough size rg → best.rgStart ≤ rg.rgStart) :
    TakesShort (pre ++ best :: post) size := by
  refine ⟨⟨pre.length, by simp⟩, by simpa using hshort, fun k hk => ?_⟩
  refine ⟨by simpa using hlowest _ (List.getElem_mem k.isLt) hk, fun hlt => ?_⟩
  have hlt' : (k : Nat) < pre.length := hlt
  have hget : (pre ++ best :: post)[k] = pre[k] := List.getElem_append_left hlt'
  rw [hget] at hk ⊢
  simpa using hfirst _ (List.getElem_mem hlt') hk

/-! ## Covering -/

theorem cover_le_freeCover {l : List VmRg} {rg : VmRg} (h : rg ∈ l) (a : Nat) :
    rg.cover a ≤ freeCover l a :=
  List.single_le_sum (fun _ _ => Nat.zero_le _) _ (List.mem_map_of_mem h)

theorem freeCover_cons (rg : VmRg) (l : List VmRg) (a : Nat) :
    freeCover (rg :: l) a = rg.cover a + freeCover l a := by
  simp [freeCover]

theorem freeCover_append (l l' : List VmRg) (a : Nat) :
    freeCover (l ++ l') a = freeCover l a + freeCover l' a := by
  simp [freeCover]

/-- Replacing a region of the table exchanges its cover. -/
theorem symCover_update (tbl : Rgid → VmRg) (i : Rgid) (rg : VmRg) (a : Nat) :
    symCover (Function.update tbl i rg) a + (tbl i).cover a = symCover tbl a + rg.cover a :=
  FamilySum.sum_update_add (fun _ (x : VmRg) => x.cover a) tbl i rg

/-- The same sum with a sign: a region whose end lies below its start takes addresses away. -/
def freeSigned (l : List VmRg) (a : Nat) : Int :=
  (l.map fun rg => Cover.signed rg.rgStart.toNat rg.rgEnd.toNat a).sum

theorem freeSigned_cons (rg : VmRg) (l : List VmRg) (a : Nat) :
    freeSigned (rg :: l) a =
      Cover.signed rg.rgStart.toNat rg.rgEnd.toNat a + freeSigned l a := by
  simp [freeSigned]

theorem freeSigned_append (l l' : List VmRg) (a : Nat) :
    freeSigned (l ++ l') a = freeSigned l a + freeSigned l' a := by
  simp [freeSigned]

/-- The sign makes no difference where every region starts below its end. -/
theorem freeSigned_eq_freeCover {l : List VmRg} (h : ∀ rg ∈ l, rg.rgStart.toNat ≤ rg.rgEnd.toNat)
    (a : Nat) : freeSigned l a = freeCover l a := by
  induction l with
  | nil => rfl
  | cons rg l ih =>
      rw [freeSigned_cons, freeCover_cons, Int.natCast_add,
        ih fun rg' hrg' => h rg' (List.mem_cons_of_mem _ hrg'),
        Cover.signed_eq_cover (h rg List.mem_cons_self)]
      rfl

/-- Merging neither loses an address nor covers one twice, even if a region ends below its start. -/
theorem coalesce_signed (newrg : VmRg) (l : List VmRg) (a : Nat) :
    freeSigned ((coalesce newrg l).1 :: (coalesce newrg l).2) a = freeSigned (newrg :: l) a := by
  induction l generalizing newrg with
  | nil => rfl
  | cons cur rest ih =>
      unfold coalesce
      split
      · next htouch =>
        -- The free region begins where the new one ends.
        rw [ih]
        simp only [freeSigned_cons]
        rw [← Cover.signed_add newrg.rgStart.toNat newrg.rgEnd.toNat cur.rgEnd.toNat, htouch,
          Int.add_assoc]
      · split
        · next htouch =>
          -- The free region ends where the new one begins.
          rw [ih]
          simp only [freeSigned_cons]
          rw [← Cover.signed_add cur.rgStart.toNat cur.rgEnd.toNat newrg.rgEnd.toNat, ← htouch]
          ac_rfl
        · have hrest := ih newrg
          simp only [freeSigned_cons] at hrest ⊢
          omega

/-- Merging regions that start below their ends gives regions that do. -/
theorem coalesce_ordered (newrg : VmRg) (l : List VmRg)
    (hnew : newrg.rgStart.toNat ≤ newrg.rgEnd.toNat)
    (hl : ∀ rg ∈ l, rg.rgStart.toNat ≤ rg.rgEnd.toNat) :
    ∀ rg ∈ (coalesce newrg l).1 :: (coalesce newrg l).2, rg.rgStart.toNat ≤ rg.rgEnd.toNat := by
  induction l generalizing newrg with
  | nil => simpa [coalesce] using hnew
  | cons cur rest ih =>
      have hcur := hl cur List.mem_cons_self
      have hrest : ∀ rg ∈ rest, rg.rgStart.toNat ≤ rg.rgEnd.toNat :=
        fun rg hrg => hl rg (List.mem_cons_of_mem _ hrg)
      unfold coalesce
      split
      · next htouch =>
        have htouch' : newrg.rgEnd.toNat = cur.rgStart.toNat := congrArg BitVec.toNat htouch
        exact ih { newrg with rgEnd := cur.rgEnd } (by simp only; omega) hrest
      · split
        · next htouch =>
          have htouch' : newrg.rgStart.toNat = cur.rgEnd.toNat := congrArg BitVec.toNat htouch
          exact ih { newrg with rgStart := cur.rgStart } (by simp only; omega) hrest
        · intro rg hrg
          have hordered := ih newrg hnew hrest
          simp only [List.mem_cons] at hrg hordered
          rcases hrg with rfl | rfl | hmem
          · exact hordered _ (.inl rfl)
          · exact hcur
          · exact hordered rg (.inr hmem)

/-- Merging loses no address and covers none twice. -/
theorem coalesce_cover (newrg : VmRg) (l : List VmRg)
    (hnew : newrg.rgStart.toNat ≤ newrg.rgEnd.toNat)
    (hl : ∀ rg ∈ l, rg.rgStart.toNat ≤ rg.rgEnd.toNat) :
    (∀ rg ∈ (coalesce newrg l).1 :: (coalesce newrg l).2, rg.rgStart.toNat ≤ rg.rgEnd.toNat) ∧
      ∀ a, (coalesce newrg l).1.cover a + freeCover (coalesce newrg l).2 a =
        newrg.cover a + freeCover l a := by
  have hmerged := coalesce_ordered newrg l hnew hl
  have hall : ∀ rg ∈ newrg :: l, rg.rgStart.toNat ≤ rg.rgEnd.toNat := by
    intro rg hrg
    rcases List.mem_cons.mp hrg with rfl | hmem
    · exact hnew
    · exact hl rg hmem
  refine ⟨hmerged, fun a => ?_⟩
  have hsum := coalesce_signed newrg l a
  rw [freeSigned_eq_freeCover hmerged, freeSigned_eq_freeCover hall, freeCover_cons,
    freeCover_cons] at hsum
  exact Int.ofNat_inj.mp hsum

/-! ## The invariant -/

/-- No address is covered twice, and none above the end of the area at all. -/
structure Regions (mm : MmStruct) (area : VmArea) : Prop extends HeapArea mm area where
  ordered : ∀ rg ∈ area.vmFreergList, rg.rgStart.toNat ≤ rg.rgEnd.toNat
  once : ∀ a, freeCover area.vmFreergList a + symCover mm.symrgtbl a ≤ 1
  below : ∀ a, area.vmEnd.toNat ≤ a → freeCover area.vmFreergList a + symCover mm.symrgtbl a = 0

namespace Regions

variable {mm : MmStruct} {area : VmArea}

/-- A free region is not so large that its length overflows. -/
theorem rgEnd_le (h : Regions mm area) {rg : VmRg} (hrg : rg ∈ area.vmFreergList)
    (hlt : rg.rgStart.toNat < rg.rgEnd.toNat) : rg.rgEnd.toNat ≤ area.vmEnd.toNat := by
  by_contra hgt
  have hzero := h.below (rg.rgEnd.toNat - 1) (by omega)
  have hle := cover_le_freeCover hrg (rg.rgEnd.toNat - 1)
  have hone : rg.cover (rg.rgEnd.toNat - 1) = 1 := Cover.cover_eq_one (by omega) (by omega)
  omega

/-- A region of the table and a free region have no address in common. -/
theorem disjoint_free (h : Regions mm area) {rg : VmRg} (hrg : rg ∈ area.vmFreergList) (i : Rgid) :
    Disjoint (mm.symrgtbl i).range rg.range := by
  refine Cover.disjoint_of_add_le_one fun a => ?_
  have hsym : (mm.symrgtbl i).cover a ≤ symCover mm.symrgtbl a :=
    FamilySum.le_sum (fun k => (mm.symrgtbl k).cover a) i
  have hfree := cover_le_freeCover hrg a
  have honce := h.once a
  unfold VmRg.cover at hsym hfree
  omega

/-- A region of the table that is not empty lies in the area: its last byte would be covered. -/
theorem symrg_le (h : Regions mm area) {i : Rgid}
    (hlt : (mm.symrgtbl i).rgStart.toNat < (mm.symrgtbl i).rgEnd.toNat) :
    (mm.symrgtbl i).rgEnd.toNat ≤ area.vmEnd.toNat := by
  by_contra hgt
  have hzero := h.below ((mm.symrgtbl i).rgEnd.toNat - 1) (by omega)
  have hsym : (mm.symrgtbl i).cover ((mm.symrgtbl i).rgEnd.toNat - 1) ≤ _ :=
    FamilySum.le_sum (fun k => (mm.symrgtbl k).cover _) i
  have hone : (mm.symrgtbl i).cover ((mm.symrgtbl i).rgEnd.toNat - 1) = 1 :=
    Cover.cover_eq_one (by omega) (by omega)
  unfold symCover at hzero
  omega

/-- The size test of the search, on the free regions of a heap in good form. -/
theorem fitsSize_iff (h : Regions mm area) {rg : VmRg} (hrg : rg ∈ area.vmFreergList)
    {size : BitVec 32} (hsz : size.toNat < 2 ^ 31) :
    fitsSize (size.signExtend 64) rg = true ↔ LargeEnough size rg := by
  have hordered := h.ordered rg hrg
  have hend := h.end_le
  have hlen : rg.rgEnd.toNat - rg.rgStart.toNat ≤ 2 ^ 22 := by
    by_cases hlt : rg.rgStart.toNat < rg.rgEnd.toNat
    · have := h.rgEnd_le hrg hlt
      omega
    · omega
  have hlength : (rg.rgEnd - rg.rgStart + 1).toNat = rg.rgEnd.toNat - rg.rgStart.toNat + 1 := by
    have hsub : (rg.rgEnd - rg.rgStart).toNat = rg.rgEnd.toNat - rg.rgStart.toNat :=
      BitVec.toNat_sub_of_le (BitVec.le_def.mpr hordered)
    have hone : (1 : BitVec 64).toNat = 1 := rfl
    rw [BitVec.toNat_add, hsub, hone]
    omega
  unfold fitsSize LargeEnough
  rw [decide_eq_true_iff, BitVec.le_def, toNat_signExtend hsz, hlength]
  omega

/-- A carved region fits in the free region, unless the search took a short one. -/
theorem carved_le (h : Regions mm area) {pre post : List VmRg} {best : VmRg} {size : BitVec 32}
    (hsz : size.toNat < 2 ^ 31) (hshort : ¬ TakesShort area.vmFreergList size)
    (hsplit : area.vmFreergList = pre ++ best :: post)
    (hfits : fitsSize (size.signExtend 64) best = true)
    (hfirst : ∀ rg ∈ pre, fitsSize (size.signExtend 64) rg = true → best.rgStart < rg.rgStart)
    (hlowest : ∀ rg ∈ area.vmFreergList, fitsSize (size.signExtend 64) rg = true →
      best.rgStart ≤ rg.rgStart) :
    best.rgStart.toNat + size.toNat ≤ best.rgEnd.toNat := by
  have hmem : ∀ rg, rg ∈ pre ++ best :: post → rg ∈ area.vmFreergList := fun rg hrg =>
    hsplit ▸ hrg
  have hlarge := (h.fitsSize_iff (hmem best (by simp)) hsz).mp hfits
  by_contra hgt
  unfold LargeEnough at hlarge
  refine hshort (hsplit ▸ takesShort_of_split ?_ (fun rg hrg hrglarge => hfirst rg hrg ?_)
    fun rg hrg hrglarge => hlowest rg (hmem rg hrg) ?_)
  · unfold OneByteShort
    omega
  · exact (h.fitsSize_iff (hmem rg (List.mem_append_left _ hrg)) hsz).mpr hrglarge
  · exact (h.fitsSize_iff (hmem rg hrg) hsz).mpr hrglarge

/-- The end of a carved region, as a number. -/
theorem toNat_add_size {x y : BitVec 64} {size : BitVec 32} (hsz : size.toNat < 2 ^ 31)
    (h : x.toNat + size.toNat ≤ y.toNat) : (x + size.signExtend 64).toNat = x.toNat + size.toNat := by
  have := y.isLt
  rw [BitVec.toNat_add, toNat_signExtend hsz]
  omega

/-- What the slack covers. -/
theorem slack_cover {lo hi : BitVec 64} (a : Nat) :
    freeCover (slack lo hi) a = Cover.cover lo.toNat hi.toNat a := by
  unfold slack
  split
  · simp [freeCover, VmRg.cover]
  · next hle =>
    rw [BitVec.lt_def] at hle
    rw [Cover.cover_eq_zero (by omega)]
    rfl

/-- Carving: the free region splits into the new region and what is left of it. -/
theorem carve_cover (tbl : Rgid → VmRg) (i : Rgid) {pre post : List VmRg} {best : VmRg}
    {e : BitVec 64} (hlo : best.rgStart.toNat ≤ e.toNat) (hhi : e.toNat ≤ best.rgEnd.toNat)
    (a : Nat) :
    freeCover (pre ++ ⟨e, best.rgEnd⟩ :: post) a +
        symCover (Function.update tbl i ⟨best.rgStart, e⟩) a ≤
      freeCover (pre ++ best :: post) a + symCover tbl a := by
  have hupdate := symCover_update tbl i ⟨best.rgStart, e⟩ a
  have hcut := Cover.cover_add hlo hhi a
  simp only [freeCover_append, freeCover_cons, VmRg.cover] at hupdate ⊢
  omega

/-- Extending: the new region and the slack share the addresses between the old and the new end. -/
theorem extend_cover (tbl : Rgid → VmRg) (i : Rgid) (l : List VmRg) {vmEnd e newEnd : BitVec 64}
    (hlo : vmEnd.toNat ≤ e.toNat) (hhi : e.toNat ≤ newEnd.toNat) (a : Nat) :
    freeCover (slack e newEnd ++ l) a + symCover (Function.update tbl i ⟨vmEnd, e⟩) a ≤
      freeCover l a + symCover tbl a + Cover.cover vmEnd.toNat newEnd.toNat a := by
  have hupdate := symCover_update tbl i ⟨vmEnd, e⟩ a
  have hcut := Cover.cover_add hlo hhi a
  simp only [freeCover_append, slack_cover, VmRg.cover] at hupdate ⊢
  omega

theorem slack_ordered {lo hi : BitVec 64} {rg : VmRg} (h : rg ∈ slack lo hi) :
    rg.rgStart.toNat ≤ rg.rgEnd.toNat := by
  unfold slack at h
  split at h
  · next hlt =>
    obtain rfl := List.mem_singleton.mp h
    exact Nat.le_of_lt (BitVec.lt_def.mp hlt)
  · simp at h

/-- Carving a part of a free region off for the region `i`. -/
theorem carve (h : Regions mm area) (i : Rgid) {pre post : List VmRg} {best : VmRg}
    {e : BitVec 64} (hsplit : area.vmFreergList = pre ++ best :: post)
    (hlo : best.rgStart.toNat ≤ e.toNat) (hhi : e.toNat ≤ best.rgEnd.toNat) :
    Regions
      { mm with
        mmap := [{ area with vmFreergList := pre ++ ⟨e, best.rgEnd⟩ :: post }]
        symrgtbl := Function.update mm.symrgtbl i ⟨best.rgStart, e⟩ }
      { area with vmFreergList := pre ++ ⟨e, best.rgEnd⟩ :: post } := by
  have htotal : ∀ a, freeCover (pre ++ ⟨e, best.rgEnd⟩ :: post) a +
      symCover (Function.update mm.symrgtbl i ⟨best.rgStart, e⟩) a ≤
        freeCover area.vmFreergList a + symCover mm.symrgtbl a :=
    fun a => hsplit ▸ carve_cover mm.symrgtbl i hlo hhi a
  have hold := h.ordered
  rw [hsplit] at hold
  have hordered : ∀ rg ∈ pre ++ ⟨e, best.rgEnd⟩ :: post, rg.rgStart.toNat ≤ rg.rgEnd.toNat := by
    intro rg hrg
    rcases List.mem_append.mp hrg with hpre | hrest
    · exact hold rg (List.mem_append_left _ hpre)
    · rcases List.mem_cons.mp hrest with rfl | hpost
      · exact hhi
      · exact hold rg (List.mem_append_right _ (List.mem_cons_of_mem _ hpost))
  refine ⟨h.relisted rfl (by simp), hordered, fun a => ?_, fun a ha => ?_⟩
  · exact (htotal a).trans (h.once a)
  · have hzero := h.below a ha
    have hle := htotal a
    rw [hzero] at hle
    exact Nat.le_zero.mp hle

/-- Extending the area to `newEnd` for the region `i`. -/
theorem extend (h : Regions mm area) (i : Rgid) {e newEnd : BitVec 64} (pgd' : Pgn → Pte)
    (fifo' : List Pgn) (hlo : area.vmEnd.toNat ≤ e.toNat) (hhi : e.toNat ≤ newEnd.toNat)
    (haligned : newEnd.toNat % 256 = 0) (hspace : newEnd.toNat ≤ 2 ^ 22) :
    Regions
      { mmap :=
          [{ area with
            vmEnd := newEnd
            sbrk := newEnd
            vmFreergList := slack e newEnd ++ area.vmFreergList }]
        symrgtbl := Function.update mm.symrgtbl i ⟨area.vmEnd, e⟩
        pgd := pgd'
        fifoPgn := fifo' }
      { area with
        vmEnd := newEnd
        sbrk := newEnd
        vmFreergList := slack e newEnd ++ area.vmFreergList } := by
  have htotal : ∀ a, freeCover (slack e newEnd ++ area.vmFreergList) a +
      symCover (Function.update mm.symrgtbl i ⟨area.vmEnd, e⟩) a ≤
        freeCover area.vmFreergList a + symCover mm.symrgtbl a +
          Cover.cover area.vmEnd.toNat newEnd.toNat a :=
    extend_cover mm.symrgtbl i area.vmFreergList hlo hhi
  have hordered : ∀ rg ∈ slack e newEnd ++ area.vmFreergList,
      rg.rgStart.toNat ≤ rg.rgEnd.toNat := by
    intro rg hrg
    rcases List.mem_append.mp hrg with hslack | hfree
    · exact slack_ordered hslack
    · exact h.ordered rg hfree
  -- Below the old end nothing changes, and above it nothing was covered.
  have honce : ∀ a, freeCover (slack e newEnd ++ area.vmFreergList) a +
      symCover (Function.update mm.symrgtbl i ⟨area.vmEnd, e⟩) a ≤ 1 := by
    intro a
    have hle := htotal a
    by_cases ha : area.vmEnd.toNat ≤ a
    · have hone := Cover.cover_le_one area.vmEnd.toNat newEnd.toNat a
      have hzero := h.below a ha
      omega
    · have hbelow : Cover.cover area.vmEnd.toNat newEnd.toNat a = 0 :=
        Cover.cover_eq_zero_of_lt (by omega)
      have hold := h.once a
      omega
  have hbelow : ∀ a, newEnd.toNat ≤ a → freeCover (slack e newEnd ++ area.vmFreergList) a +
      symCover (Function.update mm.symrgtbl i ⟨area.vmEnd, e⟩) a = 0 := by
    intro a ha
    have hle := htotal a
    have hnew : Cover.cover area.vmEnd.toNat newEnd.toNat a = 0 := Cover.cover_eq_zero_of_le ha
    have hzero := h.below a (by omega)
    omega
  exact ⟨h.endsAt rfl haligned hspace (by simp [h.freerg_ne]), hordered, honce, hbelow⟩

/-- **Allocation keeps the regions apart**, unless it takes a short one. -/
theorem allocStep {c c' : Pcb} {size : BitVec 32} {i : Rgid} (h : Regions c.mm area)
    (hsz : size.toNat < 2 ^ 31 - 255) (hshort : ¬ TakesShort area.vmFreergList size)
    (hstep : AllocStep c area size i c') : ∃ area', Regions c'.mm area' := by
  cases hstep with
  | @carved pre post best hsplit hfits hfirst hlowest =>
      have hle := h.carved_le (by omega) hshort hsplit hfits hfirst hlowest
      have hend := toNat_add_size (by omega) hle
      exact ⟨_, h.carve i hsplit (by omega) (by omega)⟩
  | @extended taken rest pgd' fifo' newEnd hnone hnewEnd hspace hfree hlen hmapped =>
      have haligned := h.aligned
      have hsize : size.toNat ≤ 256 * pagesOf size := by
        unfold pagesOf
        omega
      have hend : (area.vmEnd + size.signExtend 64).toNat = area.vmEnd.toNat + size.toNat :=
        toNat_add_size (y := newEnd) (by omega) (by omega)
      exact ⟨_, h.extend i pgd' fifo' (by omega) (by omega) (by omega) hspace⟩

/-- **Freeing keeps the regions apart.** -/
theorem freeStep {c c' : Pcb} (h : Regions c.mm area) (hstep : FreeStep c area c') :
    ∃ area', Regions c'.mm area' := by
  cases hstep with
  | refused => exact ⟨area, h⟩
  | @merged i hlt =>
      obtain ⟨hordered, hcover⟩ := coalesce_cover (c.mm.symrgtbl i) area.vmFreergList
        (Nat.le_of_lt (BitVec.lt_def.mp hlt)) h.ordered
      -- What the region covered, the free regions cover now.
      have htotal : ∀ a, freeCover ((coalesce (c.mm.symrgtbl i) area.vmFreergList).1 ::
            (coalesce (c.mm.symrgtbl i) area.vmFreergList).2) a +
          symCover (Function.update c.mm.symrgtbl i ⟨0, 0⟩) a =
            freeCover area.vmFreergList a + symCover c.mm.symrgtbl a := by
        intro a
        have hupdate := symCover_update c.mm.symrgtbl i ⟨0, 0⟩ a
        have hzero : VmRg.cover ⟨0, 0⟩ a = 0 := Cover.cover_eq_zero le_rfl a
        have := hcover a
        rw [freeCover_cons]
        omega
      refine ⟨_, h.relisted rfl (by simp), hordered, fun a => ?_, fun a ha => ?_⟩
      · show freeCover _ a + symCover _ a ≤ 1
        rw [htotal]
        exact h.once a
      · show freeCover _ a + symCover _ a = 0
        rw [htotal]
        exact h.below a ha

end Regions

/-! ## Runs -/

/-- The calls of `liballoc` and `libfree`, with enough frames and address space. -/
def RegionOp (c : Pcb) : MemOp → Prop
  | .alloc size regIndex => AllocOk c size regIndex
  | .free _ => True
  | _ => False

/-- The operation does not take a free region that is one byte too short. -/
def NotShort (c : Pcb) : MemOp → Prop
  | .alloc size _ => ∀ area ∈ c.mm.mmap, ¬ TakesShort area.vmFreergList size
  | _ => True

instance (c : Pcb) : (op : MemOp) → Decidable (RegionOp c op)
  | .alloc size regIndex => inferInstanceAs (Decidable (AllocOk c size regIndex))
  | .free _ => .isTrue trivial
  | .read _ _ | .write _ _ _ | .memmap _ | .setval _ _ | .getval _ => .isFalse id

instance (c : Pcb) : (op : MemOp) → Decidable (NotShort c op)
  | .alloc size _ => inferInstanceAs (Decidable (∀ area ∈ c.mm.mmap, ¬ TakesShort _ size))
  | .free _ | .read _ _ | .write _ _ _ | .memmap _ | .setval _ _ | .getval _ => .isTrue trivial

/-- An empty heap: one empty free region, and only empty regions. -/
structure FreshHeap (mm : MmStruct) : Prop where
  mmap_eq : mm.mmap = [⟨0, 0, 0, 0, [⟨0, 0⟩]⟩]
  empty : ∀ i, (mm.symrgtbl i).rgEnd.toNat ≤ (mm.symrgtbl i).rgStart.toNat

theorem FreshHeap.regions {mm : MmStruct} (h : FreshHeap mm) :
    Regions mm ⟨0, 0, 0, 0, [⟨0, 0⟩]⟩ := by
  have htotal : ∀ a, freeCover [⟨0, 0⟩] a + symCover mm.symrgtbl a = 0 := by
    intro a
    have hfree : freeCover [⟨0, 0⟩] a = 0 := by
      rw [freeCover_cons]
      exact Nat.add_eq_zero_iff.mpr ⟨Cover.cover_eq_zero le_rfl a, rfl⟩
    have hsym : symCover mm.symrgtbl a = 0 :=
      Finset.sum_eq_zero fun i _ => Cover.cover_eq_zero (h.empty i) a
    omega
  refine ⟨⟨h.mmap_eq, rfl, rfl, rfl, by decide, by decide, by simp⟩, by simp, fun a => ?_,
    fun a _ => htotal a⟩
  exact (htotal a).symm ▸ Nat.zero_le 1

/-- An operation on a heap whose regions are apart goes through, and keeps them apart unless it
takes a short one. -/
theorem Regions.exec {c : Pcb} {area : VmArea} (h : Regions c.mm area) {op : MemOp}
    (hop : RegionOp c op) :
    ∃ c', op.exec c = .ok c' ∧ (NotShort c op → ∃ area', Regions c'.mm area') := by
  cases op with
  | alloc size regIndex =>
      obtain ⟨hpos, hsz, hrg, henough⟩ := hop
      obtain ⟨c', hrun, hstep⟩ := liballoc_of_heapArea h.toHeapArea hpos hsz hrg
        (henough area h.mem_mmap)
      exact ⟨c', (MemOp.Call.alloc hrun).exec,
        fun hshort => h.allocStep hsz (hshort area h.mem_mmap) hstep⟩
  | free regIndex =>
      obtain ⟨r, c', hrun, hstep⟩ := libfree_of_heapArea h.toHeapArea regIndex
      exact ⟨c', (MemOp.Call.free hrun).exec, fun _ => h.freeStep hstep⟩
  | read | write | memmap | setval | getval => exact hop.elim

/-- **Heap regions never overlap**, in every run of `liballoc` and `libfree` from an empty heap that
takes no short region: the regions of the table are disjoint from each other and from the free
regions, and lie inside the area if they are not empty. The next call goes through. -/
theorem regions_disjoint {c₀ c : Pcb} {ops : List MemOp} (hfresh : FreshHeap c₀.mm)
    (hrun : Steps (Steps.Meeting (fun c op => RegionOp c op ∧ NotShort c op) MemOp.Step) c₀ ops c) :
    (∃ area, c.mm.mmap = [area] ∧
      (∀ i j, i ≠ j → Disjoint (c.mm.symrgtbl i).range (c.mm.symrgtbl j).range) ∧
      (∀ i, ∀ rg ∈ area.vmFreergList, Disjoint (c.mm.symrgtbl i).range rg.range) ∧
      ∀ i, (c.mm.symrgtbl i).rgStart.toNat < (c.mm.symrgtbl i).rgEnd.toNat →
        area.vmStart.toNat ≤ (c.mm.symrgtbl i).rgStart.toNat ∧
          (c.mm.symrgtbl i).rgEnd.toNat ≤ area.vmEnd.toNat) ∧
    ∀ op, RegionOp c op → ∃ c', MemOp.Step c op c' := by
  obtain ⟨area, h⟩ : ∃ area, Regions c.mm area :=
    hrun.state_invariant (motive := fun c => ∃ area, Regions c.mm area) ⟨_, hfresh.regions⟩
      fun c op c' ⟨area, h⟩ ⟨⟨hop, hshort⟩, hstep⟩ => by
        obtain ⟨c₁, hexec, hkeep⟩ := h.exec hop
        cases hstep.symm.trans hexec
        exact hkeep hshort
  refine ⟨⟨area, h.mmap_eq, fun i j hij => ?_, fun i rg hrg => ?_, fun i hlt => ⟨?_, ?_⟩⟩,
    fun op hop => ?_⟩
  · -- Together, two regions cover an address no more often than the whole table does.
    refine Cover.disjoint_of_add_le_one fun a => ?_
    have htwo : (c.mm.symrgtbl i).cover a + (c.mm.symrgtbl j).cover a ≤ symCover c.mm.symrgtbl a :=
      FamilySum.add_le_sum (fun k => (c.mm.symrgtbl k).cover a) hij
    have honce := h.once a
    unfold VmRg.cover at htwo
    omega
  · exact h.disjoint_free hrg i
  · rw [h.start_eq]
    exact Nat.zero_le _
  · exact h.symrg_le hlt
  · obtain ⟨c', hexec, -⟩ := h.exec hop
    exact ⟨c', hexec⟩

/-! ## Runs on concrete heaps -/

/-- A process with an empty heap and four frames of RAM. -/
def emptyHeap : Pcb := ⟨freshMm, fourFrames, oneFrame⟩

/-- Region number 1. -/
def rgidOne : Rgid := ⟨1, by decide⟩

/-- Region number 2. -/
def rgidTwo : Rgid := ⟨2, by decide⟩

theorem freshHeap_emptyHeap : FreshHeap emptyHeap.mm := ⟨rfl, fun _ => le_rfl⟩

/-- A region is freed and part of its space taken again. -/
theorem regions_disjoint_reuse :
    ∃ c, Steps (Steps.Meeting (fun c op => RegionOp c op ∧ NotShort c op) MemOp.Step) emptyHeap
        [.alloc 300 0, .alloc 100 1, .free 0, .alloc 40 2] c ∧
      Disjoint (c.mm.symrgtbl rgidOne).range (c.mm.symrgtbl rgidTwo).range := by
  have hcheck : (Steps.exec
      (Steps.checked (fun c op => RegionOp c op ∧ NotShort c op) MemOp.tryStep) emptyHeap
      [.alloc 300 0, .alloc 100 1, .free 0, .alloc 40 2]).isSome = true := by
    decide +kernel
  obtain ⟨c, hc⟩ := Option.isSome_iff_exists.mp hcheck
  have hrun := MemOp.steps_of_exec_checked hc
  obtain ⟨⟨area, -, hdisjoint, -, -⟩, -⟩ := regions_disjoint freshHeap_emptyHeap hrun
  exact ⟨c, hrun, hdisjoint rgidOne rgidTwo (by decide)⟩

/-- The first allocation leaves 212 bytes of slack, and the second takes 213 from it. The third one
begins where the area ended, in the last byte of the second. -/
theorem overlap_after_short_region :
    ∃ c, Steps (Steps.Meeting RegionOp MemOp.Step) emptyHeap
        [.alloc 300 0, .alloc 213 1, .alloc 100 2] c ∧
      ¬ Disjoint (c.mm.symrgtbl rgidOne).range (c.mm.symrgtbl rgidTwo).range := by
  have hcheck : (Steps.exec (Steps.checked RegionOp MemOp.tryStep) emptyHeap
      [.alloc 300 0, .alloc 213 1, .alloc 100 2]).any (fun c => decide
        (¬ Disjoint (c.mm.symrgtbl rgidOne).range (c.mm.symrgtbl rgidTwo).range)) = true := by
    decide +kernel
  obtain ⟨c, hc, hoverlap⟩ := (Option.any_eq_true _ _).mp hcheck
  exact ⟨c, MemOp.steps_of_exec_checked hc, of_decide_eq_true hoverlap⟩

end Ossim.Mm
