import Ossim.Mm.Alone

/-!
# A program with arrays

A program that allocates regions, frees them, and reads and writes below their lengths works on named
arrays. `Arrays.exec` says what it does to them, and knows no addresses. A process alone with its memory
does the same (`Stores.step`), unless it takes a free region that is one byte too short; and where all
lengths are multiples of one number, which is at least 2 and divides the page size, there is none.

Under this condition on the programs, and if RAM has the pages that they ask for together, the memory of
the system is one of arrays, however the processes take their turns (`arrays_kept`).
-/

namespace Ossim.Mm

/-- An array: its length, and what was last written to a place in it. -/
structure Arr where
  size : Nat
  bytes : Fin size → Option Byte

/-- The arrays of a program, under the numbers of their regions. -/
abbrev Arrays := Rgid → Option Arr

namespace Arr

/-- An array in which nothing has been written. -/
def blank (size : Nat) : Arr := ⟨size, fun _ => none⟩

/-- Write to a place in an array. -/
def write (a : Arr) (i : Fin a.size) (x : Byte) : Arr :=
  { a with bytes := Function.update a.bytes i (some x) }

end Arr

namespace Arrays

/-- No arrays. -/
def empty : Arrays := fun _ => none

/-- One operation. It fails where the program leaves its arrays. -/
def exec (m : Arrays) : MemOp → Option Arrays
  | .alloc size regIndex =>
    if h : 1 ≤ size.toNat ∧ regIndex.toNat < pagingMaxSymtblSz then
      some (Function.update m ⟨regIndex.toNat, h.2⟩ (some (.blank size.toNat)))
    else none
  | .free regIndex =>
    if h : regIndex.toNat < pagingMaxSymtblSz then
      some (Function.update m ⟨regIndex.toNat, h⟩ none)
    else some m
  | .read source offset =>
    if h : source.toNat < pagingMaxSymtblSz then
      (m ⟨source.toNat, h⟩).bind fun a => if offset.toNat < a.size then some m else none
    else none
  | .write data destination offset =>
    if h : destination.toNat < pagingMaxSymtblSz then
      (m ⟨destination.toNat, h⟩).bind fun a =>
        if hi : offset.toNat < a.size then
          some (Function.update m ⟨destination.toNat, h⟩ (some (a.write ⟨offset.toNat, hi⟩ data)))
        else none
    else none
  | .setval _ _ | .getval _ | .memmap _ => none

end Arrays

/-- The pages that an operation asks for. -/
def MemOp.pagesAsked : MemOp → Nat
  | .alloc size _ => pagesOf size
  | _ => 0

/-- An allocation asks for a multiple of `k` bytes. -/
def MemOp.OnGrid (k : Nat) : MemOp → Prop
  | .alloc size _ => k ∣ size.toNat
  | _ => True

instance (k : Nat) : (op : MemOp) → Decidable (op.OnGrid k)
  | .alloc size _ => inferInstanceAs (Decidable (k ∣ size.toNat))
  | .free _ | .read _ _ | .write _ _ _ | .setval _ _ | .getval _ | .memmap _ => .isTrue trivial

/-! ## How a process alone stores arrays -/

/-- A process with the area and the regions, and no frames. -/
def Alone.pcb (v : Alone) : Pcb :=
  ⟨{ mmap := [v.area], symrgtbl := v.symrgtbl, pgd := fun _ => 0, fifoPgn := [] },
    freshDevice 0 (by decide), freshDevice 0 (by decide)⟩

/-- The region is as long as the array, and has its bytes. -/
structure StoresArr (cells : BitVec 32 → Option Byte) (rg : VmRg) (a : Arr) : Prop where
  pos : 0 < a.size
  end_eq : rg.rgEnd.toNat = rg.rgStart.toNat + a.size
  bytes : ∀ i x, a.bytes i = some x → cells (BitVec.ofNat 32 (rg.rgStart.toNat + i)) = some x

/-- A region stores an array, or is empty. -/
def StoresAt (cells : BitVec 32 → Option Byte) (rg : VmRg) : Option Arr → Prop
  | none => rg.rgEnd.toNat ≤ rg.rgStart.toNat
  | some a => StoresArr cells rg a

/-- The process stores the arrays in its regions. -/
structure Stores (v : Alone) (m : Arrays) : Prop where
  regions : Regions v.pcb.mm v.area
  region : ∀ i, StoresAt v.cells (v.symrgtbl i) (m i)

/-- The search, as the place of the region that it finds. -/
theorem bestFit_split {size : BitVec 64} {l : List VmRg} {j : Nat} {best : VmRg}
    (h : bestFit size 0 none l = some (j, best)) :
    ∃ pre post, l = pre ++ best :: post ∧ (∀ rg, l.set j rg = pre ++ rg :: post) ∧
      fitsSize size best = true ∧
      (∀ rg ∈ pre, fitsSize size rg = true → best.rgStart < rg.rgStart) ∧
      ∀ rg ∈ l, fitsSize size rg = true → best.rgStart ≤ rg.rgStart := by
  obtain ⟨hfound, -, hlowest⟩ := bestFit_cases h
  obtain ⟨hfits, pre, post, hsplit, hj, hfirst, -⟩ := hfound.resolve_left (by simp)
  refine ⟨pre, post, hsplit, fun rg => ?_, hfits, hfirst, hlowest⟩
  rw [hsplit, ← hj, Nat.zero_add, List.set_append_right _ _ le_rfl, Nat.sub_self,
    List.set_cons_zero]

namespace Stores

variable {v v' : Alone} {m m' : Arrays} {size regIndex : BitVec 32}

/-- An array lies below the end of the heap. -/
theorem end_le (h : Stores v m) {i : Rgid} {a : Arr} (ha : m i = some a) :
    StoresArr v.cells (v.symrgtbl i) a ∧
      (v.symrgtbl i).rgStart.toNat + a.size ≤ v.area.vmEnd.toNat := by
  have hregion := h.region i
  rw [ha] at hregion
  have hpos := hregion.pos
  have hend := hregion.end_eq
  have hle : (v.symrgtbl i).rgEnd.toNat ≤ v.area.vmEnd.toNat := h.regions.symrg_le (by
    show (v.symrgtbl i).rgStart.toNat < (v.symrgtbl i).rgEnd.toNat
    omega)
  exact ⟨hregion, by omega⟩

/-- The address of a place in an array. -/
theorem regionAddr (h : Stores v m) {i : Rgid} {a : Arr} (ha : m i = some a) {rgid offset : BitVec 32}
    (hrg : rgid.toNat = i) (hoff : offset.toNat < a.size) :
    ∃ addr, v.regionAddr rgid offset = some addr ∧
      addr = BitVec.ofNat 32 ((v.symrgtbl i).rgStart.toNat + offset.toNat) ∧
      addr.toNat = (v.symrgtbl i).rgStart.toNat + offset.toNat ∧
      addr.toNat < v.area.vmEnd.toNat := by
  obtain ⟨-, hle⟩ := h.end_le ha
  have hend := h.regions.end_le
  have hlt : rgid.toNat < pagingMaxSymtblSz := hrg ▸ i.isLt
  obtain rfl : (⟨rgid.toNat, hlt⟩ : Rgid) = i := Fin.ext hrg
  have hnat : (((v.symrgtbl ⟨rgid.toNat, hlt⟩).rgStart + offset.signExtend 64).setWidth 32).toNat =
      (v.symrgtbl ⟨rgid.toNat, hlt⟩).rgStart.toNat + offset.toNat := by
    rw [BitVec.toNat_setWidth, BitVec.toNat_add, toNat_signExtend (by omega)]
    omega
  refine ⟨_, dif_pos hlt, BitVec.eq_of_toNat_eq ?_, hnat, by omega⟩
  rw [hnat, BitVec.toNat_ofNat]
  omega

/-- Places of different arrays have different addresses. -/
theorem apart (h : Stores v m) {i j : Rgid} {a b : Arr} (ha : m i = some a) (hb : m j = some b)
    (hne : i ≠ j) {x y : Nat} (hx : x < a.size) (hy : y < b.size) :
    (v.symrgtbl i).rgStart.toNat + x ≠ (v.symrgtbl j).rgStart.toNat + y := by
  intro heq
  have hi := (h.end_le ha).1.end_eq
  have hj := (h.end_le hb).1.end_eq
  have htwo := FamilySum.add_le_sum
    (fun k => (v.symrgtbl k).cover ((v.symrgtbl i).rgStart.toNat + x)) hne
  have honce := h.regions.once ((v.symrgtbl i).rgStart.toNat + x)
  have hone : (v.symrgtbl i).cover ((v.symrgtbl i).rgStart.toNat + x) = 1 :=
    Cover.cover_eq_one (by omega) (by omega)
  have hone' : (v.symrgtbl j).cover ((v.symrgtbl i).rgStart.toNat + x) = 1 :=
    Cover.cover_eq_one (by omega) (by omega)
  unfold symCover at honce
  simp only [hone, hone'] at htwo
  have hsum : ∑ k, (v.pcb.mm.symrgtbl k).cover ((v.symrgtbl i).rgStart.toNat + x) =
      ∑ k, (v.symrgtbl k).cover ((v.symrgtbl i).rgStart.toNat + x) := rfl
  omega

/-- Allocation makes an array in which nothing has been written. -/
theorem alloc (h : Stores v m) (hshort : ¬ TakesShort v.area.vmFreergList size)
    (hv : v.alloc size regIndex = some v') (hm : m.exec (.alloc size regIndex) = some m') :
    Stores v' m' := by
  obtain ⟨hpos, hsz, hrg, hdone⟩ := Alone.alloc_cases hv
  have hm' : m' = Function.update m ⟨regIndex.toNat, hrg⟩ (some (.blank size.toNat)) := by
    simp only [Arrays.exec, dif_pos (And.intro hpos hrg)] at hm
    exact (Option.some.inj hm).symm
  subst hm'
  -- the region of the new array is `[lo, lo + size)`, and the others keep theirs
  have hregion : ∀ {lo hi : BitVec 64}, hi.toNat = lo.toNat + size.toNat → ∀ i,
      StoresAt v.cells (Function.update v.symrgtbl ⟨regIndex.toNat, hrg⟩ ⟨lo, hi⟩ i)
        (Function.update m ⟨regIndex.toNat, hrg⟩ (some (.blank size.toNat)) i) := by
    intro lo hi hlen i
    rcases eq_or_ne i ⟨regIndex.toNat, hrg⟩ with rfl | hne
    · rw [Function.update_self, Function.update_self]
      exact ⟨hpos, hlen, fun j x hx => by cases hx⟩
    · rw [Function.update_of_ne hne, Function.update_of_ne hne]
      exact h.region i
  rcases hdone with ⟨j, best, hbest, rfl⟩ | ⟨hnone, hspace, rfl⟩
  · obtain ⟨pre, post, hsplit, hset, hfits, hfirst, hlowest⟩ := bestFit_split hbest
    have hle := h.regions.carved_le (by omega) hshort hsplit hfits hfirst hlowest
    have hend := Regions.toNat_add_size (by omega) hle
    refine ⟨?_, hregion hend⟩
    have hcarved := h.regions.carve ⟨regIndex.toNat, hrg⟩ hsplit
      (e := best.rgStart + size.signExtend 64) (by omega) (by omega)
    rw [← hset] at hcarved
    exact hcarved
  · have hend := Alone.toNat_newEnd hspace
    have hsize : size.toNat ≤ 256 * pagesOf size := by
      unfold pagesOf
      omega
    have haligned := h.regions.aligned
    have hrgEnd : (v.area.vmEnd + size.signExtend 64).toNat = v.area.vmEnd.toNat + size.toNat :=
      Regions.toNat_add_size
        (y := v.area.vmEnd + BitVec.ofNat 64 (256 * pagesOf size)) (by omega) (by omega)
    exact ⟨h.regions.extend ⟨regIndex.toNat, hrg⟩ (fun _ => 0) [] (by omega) (by omega) (by omega)
      (by omega), hregion hrgEnd⟩

/-- Freeing removes the array. -/
theorem free (h : Stores v m) (hm : m.exec (.free regIndex) = some m') :
    Stores (v.free regIndex) m' := by
  unfold Alone.free
  simp only [Arrays.exec] at hm
  split
  · next hrg =>
    rw [dif_pos hrg] at hm
    cases hm
    have hothers : ∀ rg : VmRg, rg.rgEnd.toNat ≤ rg.rgStart.toNat → ∀ i,
        StoresAt v.cells (Function.update v.symrgtbl ⟨regIndex.toNat, hrg⟩ rg i)
          (Function.update m ⟨regIndex.toNat, hrg⟩ none i) := by
      intro rg hempty i
      rcases eq_or_ne i ⟨regIndex.toNat, hrg⟩ with rfl | hne
      · rw [Function.update_self, Function.update_self]
        exact hempty
      · rw [Function.update_of_ne hne, Function.update_of_ne hne]
        exact h.region i
    dsimp only
    split
    · next hempty =>
      have hsame := hothers _ (BitVec.le_def.mp hempty)
      rw [Function.update_eq_self] at hsame
      exact ⟨h.regions, hsame⟩
    · next hlt =>
      obtain ⟨area', hregions⟩ := h.regions.freeStep
        (FreeStep.merged (i := ⟨regIndex.toNat, hrg⟩) (BitVec.not_le.mp hlt))
      cases hregions.mmap_eq
      exact ⟨hregions, hothers ⟨0, 0⟩ le_rfl⟩
  · next hrg =>
    rw [dif_neg hrg] at hm
    cases hm
    exact h

/-- Writing to a place in an array writes at its address. -/
theorem write (h : Stores v m) {data : Byte} {destination offset : BitVec 32}
    (hm : m.exec (.write data destination offset) = some m') :
    ∃ v', v.exec (.write data destination offset) = some v' ∧ v'.area = v.area ∧ Stores v' m' := by
  simp only [Arrays.exec] at hm
  split at hm
  · next hrg =>
    obtain ⟨a, ha, hwrite⟩ := Option.bind_eq_some_iff.mp hm
    split at hwrite
    · next hoff =>
      cases hwrite
      obtain ⟨addr, haddr, rfl, hnat, hlt⟩ := h.regionAddr ha rfl hoff
      refine ⟨_, Option.bind_eq_some_iff.mpr ⟨_, haddr, if_pos hlt⟩, rfl, h.regions, fun i => ?_⟩
      have hregion := h.region i
      -- a place of an array has another address, or is the one that was written
      have hother : ∀ {b : Arr} {y : Nat}, m i = some b → y < b.size →
          i ≠ ⟨destination.toNat, hrg⟩ ∨ y ≠ offset.toNat →
          BitVec.ofNat 32 ((v.symrgtbl i).rgStart.toNat + y) ≠
            BitVec.ofNat 32 ((v.symrgtbl ⟨destination.toNat, hrg⟩).rgStart.toNat + offset.toNat) := by
        intro b y hb hy hne heq
        have hend := h.regions.end_le
        have hle := (h.end_le hb).2
        have hnats := congrArg BitVec.toNat heq
        rw [hnat, BitVec.toNat_ofNat] at hnats
        rcases eq_or_ne i ⟨destination.toNat, hrg⟩ with rfl | hi
        · rcases hne with hne | hne
          · exact hne rfl
          · omega
        · refine h.apart hb ha hi hy hoff ?_
          omega
      rcases eq_or_ne i ⟨destination.toNat, hrg⟩ with rfl | hne
      · rw [Function.update_self]
        obtain ⟨hstored, -⟩ := h.end_le ha
        have hbytes : ∀ (j : Fin a.size) x,
            Function.update a.bytes ⟨offset.toNat, hoff⟩ (some data) j = some x →
              Function.update v.cells
                (BitVec.ofNat 32 ((v.symrgtbl ⟨destination.toNat, hrg⟩).rgStart.toNat + offset.toNat))
                (some data)
                (BitVec.ofNat 32 ((v.symrgtbl ⟨destination.toNat, hrg⟩).rgStart.toNat + j)) =
                some x := by
          intro j x hx
          rcases eq_or_ne j ⟨offset.toNat, hoff⟩ with rfl | hj
          · rw [Function.update_self] at hx ⊢
            exact hx
          · rw [Function.update_of_ne hj] at hx
            rw [Function.update_of_ne (hother ha j.isLt (.inr fun heq => hj (Fin.ext heq)))]
            exact hstored.bytes j x hx
        exact ⟨hstored.pos, hstored.end_eq, hbytes⟩
      · rw [Function.update_of_ne hne]
        cases hb : m i with
        | none =>
            rw [hb] at hregion
            exact hregion
        | some b =>
            obtain ⟨hstored, -⟩ := h.end_le hb
            refine ⟨hstored.pos, hstored.end_eq, fun j x hx => ?_⟩
            exact (Function.update_of_ne (hother hb j.isLt (.inl hne)) _ _).trans
              (hstored.bytes j x hx)
    · cases hwrite
  · cases hm

/-- Reading goes through. -/
theorem read (h : Stores v m) {source offset : BitVec 32}
    (hm : m.exec (.read source offset) = some m') :
    v.exec (.read source offset) = some v ∧ m' = m := by
  simp only [Arrays.exec] at hm
  split at hm
  · next hrg =>
    obtain ⟨a, ha, hread⟩ := Option.bind_eq_some_iff.mp hm
    split at hread
    · next hoff =>
      cases hread
      obtain ⟨addr, haddr, -, -, hlt⟩ := h.regionAddr ha rfl hoff
      exact ⟨Option.bind_eq_some_iff.mpr ⟨_, haddr, if_pos hlt⟩, rfl⟩
    · cases hread
  · cases hm

/-- **One operation** on the arrays is one on the memory that stores them, if there is address space and
the search takes no region that is one byte too short. -/
theorem step (h : Stores v m) {op : MemOp} (hm : m.exec op = some m')
    (hshort : ∀ size rgid, op = .alloc size rgid → ¬ TakesShort v.area.vmFreergList size)
    (hroom : v.pages + op.pagesAsked ≤ 2 ^ 14) :
    ∃ v', v.exec op = some v' ∧ Stores v' m' ∧ v'.pages ≤ v.pages + op.pagesAsked := by
  cases op with
  | alloc size regIndex =>
      have hreq : 1 ≤ size.toNat ∧ regIndex.toNat < pagingMaxSymtblSz := by
        by_contra hnot
        simp [Arrays.exec, dif_neg hnot] at hm
      have haligned := h.regions.aligned
      have hsz : size.toNat < 2 ^ 31 - 255 ∧ v.area.vmEnd.toNat + 256 * pagesOf size ≤ 2 ^ 22 := by
        simp only [MemOp.pagesAsked, Alone.pages] at hroom
        have hpages : size.toNat ≤ 256 * pagesOf size := by
          unfold pagesOf
          omega
        have haligned' : v.area.vmEnd.toNat % 256 = 0 := haligned
        omega
      obtain ⟨v', hv⟩ : ∃ v', v.alloc size regIndex = some v' := by
        unfold Alone.alloc
        rw [dif_pos ⟨hreq.1, hsz.1, hreq.2⟩]
        split
        · exact ⟨_, rfl⟩
        · exact ⟨_, if_pos hsz.2⟩
      refine ⟨v', hv, h.alloc (hshort size regIndex rfl) hv hm, ?_⟩
      obtain ⟨-, -, _, ⟨j, best, -, rfl⟩ | ⟨-, hspace, rfl⟩⟩ := Alone.alloc_cases hv
      · exact Nat.le_add_right _ _
      · simp only [Alone.pages, Alone.toNat_newEnd hspace, MemOp.pagesAsked]
        omega
  | free regIndex => exact ⟨_, rfl, h.free hm, Alone.pages_free v regIndex ▸ le_rfl⟩
  | read source offset =>
      obtain ⟨hv, rfl⟩ := h.read hm
      exact ⟨v, hv, h, le_rfl⟩
  | write data destination offset =>
      obtain ⟨v', hv, harea, h'⟩ := h.write hm
      refine ⟨v', hv, h', ?_⟩
      unfold Alone.pages
      rw [harea]
      exact Nat.le_add_right _ _
  | setval | getval | memmap => cases hm

end Stores

/-! ## Lengths that are multiples of one number -/

/-- A region begins and ends at multiples of `k`. -/
def VmRg.OnGrid (k : Nat) (rg : VmRg) : Prop := k ∣ rg.rgStart.toNat ∧ k ∣ rg.rgEnd.toNat

/-- All regions begin and end at multiples of `k`, the empty ones of the table apart. -/
structure Alone.OnGrid (k : Nat) (v : Alone) : Prop where
  vmEnd : k ∣ v.area.vmEnd.toNat
  free : ∀ rg ∈ v.area.vmFreergList, rg.OnGrid k
  region : ∀ i, ¬ (v.symrgtbl i).rgEnd ≤ (v.symrgtbl i).rgStart → (v.symrgtbl i).OnGrid k

section grid

variable {k : Nat} {v v' : Alone} {size : BitVec 32}

/-- Addresses wrap at a multiple of the page size. -/
theorem dvd_toNat_add (hk : k ∣ 256) {x y : BitVec 64} (hx : k ∣ x.toNat) (hy : k ∣ y.toNat) :
    k ∣ (x + y).toNat := by
  have hwrap : k ∣ 2 ^ 64 := hk.trans ⟨2 ^ 56, by decide⟩
  rw [BitVec.toNat_add]
  exact (Nat.dvd_mod_iff hwrap).mpr (Nat.dvd_add hx hy)

theorem coalesce_onGrid {newrg : VmRg} {l : List VmRg} (hnew : newrg.OnGrid k)
    (hl : ∀ rg ∈ l, rg.OnGrid k) :
    ∀ rg ∈ (coalesce newrg l).1 :: (coalesce newrg l).2, rg.OnGrid k := by
  induction l generalizing newrg with
  | nil => simpa [coalesce] using hnew
  | cons cur rest ih =>
      have hcur := hl cur List.mem_cons_self
      have hrest : ∀ rg ∈ rest, rg.OnGrid k := fun rg hrg => hl rg (List.mem_cons_of_mem _ hrg)
      unfold coalesce
      split
      · exact ih ⟨hnew.1, hcur.2⟩ hrest
      · split
        · exact ih ⟨hcur.1, hnew.2⟩ hrest
        · intro rg hrg
          have hmerged := ih hnew hrest
          simp only [List.mem_cons] at hrg hmerged
          rcases hrg with rfl | rfl | hmem
          · exact hmerged _ (.inl rfl)
          · exact hcur
          · exact hmerged rg (.inr hmem)

theorem slack_onGrid {lo hi : BitVec 64} (hlo : k ∣ lo.toNat) (hhi : k ∣ hi.toNat) :
    ∀ rg ∈ slack lo hi, rg.OnGrid k := by
  intro rg hrg
  unfold slack at hrg
  split at hrg
  · rw [List.mem_singleton.mp hrg]
    exact ⟨hlo, hhi⟩
  · cases hrg

namespace Alone.OnGrid

/-- No free region is one byte too short: its length would be a multiple of `k`, and so would be one
more. -/
theorem not_takesShort (hk : 2 ≤ k) (h : v.OnGrid k) (hsize : k ∣ size.toNat) :
    ¬ TakesShort v.area.vmFreergList size := by
  rintro ⟨j, hshort, -⟩
  obtain ⟨hstart, hend⟩ := h.free _ (List.getElem_mem j.isLt)
  unfold OneByteShort at hshort
  have hone : k ∣ 1 := (Nat.dvd_add_iff_right hend).mpr (hshort ▸ Nat.dvd_add hstart hsize)
  exact absurd (Nat.le_of_dvd Nat.one_pos hone) (by omega)

theorem exec (hk : k ∣ 256) (h : v.OnGrid k) {op : MemOp} (hop : op.OnGrid k)
    (hv : v.exec op = some v') : v'.OnGrid k := by
  -- a new region ends at a multiple of `k`
  have hupdate : ∀ (i : Rgid) {rg : VmRg}, rg.OnGrid k → ∀ j,
      ¬ (Function.update v.symrgtbl i rg j).rgEnd ≤ (Function.update v.symrgtbl i rg j).rgStart →
        (Function.update v.symrgtbl i rg j).OnGrid k := by
    intro i rg hrg j
    rcases eq_or_ne j i with rfl | hne
    · rw [Function.update_self]
      exact fun _ => hrg
    · rw [Function.update_of_ne hne]
      exact h.region j
  cases op with
  | alloc size regIndex =>
      obtain ⟨-, hsz, hrg, hdone⟩ := alloc_cases hv
      have hsize : k ∣ (size.signExtend 64).toNat := by
        rw [toNat_signExtend (by omega)]
        exact hop
      rcases hdone with ⟨j, best, hbest, rfl⟩ | ⟨-, hspace, rfl⟩
      · obtain ⟨pre, post, hsplit, hset, -⟩ := bestFit_split hbest
        have hmem : ∀ rg, rg ∈ pre ++ best :: post → rg ∈ v.area.vmFreergList := fun rg hrg =>
          hsplit ▸ hrg
        have hbest' := h.free best (hmem best (by simp))
        have hend := dvd_toNat_add hk hbest'.1 hsize
        refine ⟨h.vmEnd, fun rg hrg => ?_, hupdate _ ⟨hbest'.1, hend⟩⟩
        rw [hset] at hrg
        rcases List.mem_append.mp hrg with hpre | hrest
        · exact h.free rg (hmem rg (List.mem_append_left _ hpre))
        · rcases List.mem_cons.mp hrest with rfl | hpost
          · exact ⟨hend, hbest'.2⟩
          · exact h.free rg (hmem rg (List.mem_append_right _ (List.mem_cons_of_mem _ hpost)))
      · have hnew : k ∣ (v.area.vmEnd + BitVec.ofNat 64 (256 * pagesOf size)).toNat := by
          rw [toNat_newEnd hspace]
          exact Nat.dvd_add h.vmEnd (hk.mul_right _)
        have hend := dvd_toNat_add hk h.vmEnd hsize
        refine ⟨hnew, fun rg hrg => ?_, hupdate _ ⟨h.vmEnd, hend⟩⟩
        rcases List.mem_append.mp hrg with hslack | hfree
        · exact slack_onGrid hend hnew rg hslack
        · exact h.free rg hfree
  | free regIndex =>
      cases hv
      unfold Alone.free
      split
      · next hrg =>
        dsimp only
        split
        · exact h
        · next hlt =>
          exact ⟨h.vmEnd, coalesce_onGrid (h.region _ hlt) h.free,
            hupdate _ ⟨Nat.dvd_zero k, Nat.dvd_zero k⟩⟩
      · exact h
  | read source offset =>
      obtain ⟨addr, -, hget⟩ := Option.bind_eq_some_iff.mp hv
      rw [(getval_cases hget).2]
      exact h
  | write data destination offset =>
      obtain ⟨addr, -, hset⟩ := Option.bind_eq_some_iff.mp hv
      rw [(setval_cases hset).2]
      exact ⟨h.vmEnd, h.free, h.region⟩
  | setval addr value =>
      rw [(setval_cases hv).2]
      exact ⟨h.vmEnd, h.free, h.region⟩
  | getval addr =>
      rw [(getval_cases hv).2]
      exact h
  | memmap regs => cases hv

end Alone.OnGrid

/-- **A program with arrays, alone.** If the lengths are multiples of `k` and the address space has the
pages that it asks for, then its memory stores its arrays. -/
theorem Stores.exec {m m' : Arrays} {ops : List MemOp} (hk : 2 ≤ k) (hpage : k ∣ 256)
    (h : Stores v m) (hgrid : v.OnGrid k) (hops : ∀ op ∈ ops, op.OnGrid k)
    (hm : Steps.exec Arrays.exec m ops = some m')
    (hroom : v.pages + (ops.map MemOp.pagesAsked).sum ≤ 2 ^ 14) :
    ∃ v', Steps.exec Alone.exec v ops = some v' ∧ Stores v' m' ∧
      v'.pages ≤ v.pages + (ops.map MemOp.pagesAsked).sum := by
  induction ops generalizing v m with
  | nil =>
      cases hm
      exact ⟨v, rfl, h, Nat.le_add_right _ _⟩
  | cons op ops ih =>
      obtain ⟨m₁, hm₁, hrest⟩ := Option.bind_eq_some_iff.mp hm
      rw [List.map_cons, List.sum_cons] at hroom ⊢
      have hop := hops op List.mem_cons_self
      obtain ⟨v₁, hv₁, h₁, hpages⟩ := h.step hm₁
        (fun size rgid hsize => hgrid.not_takesShort hk (by rw [hsize] at hop; exact hop)) (by omega)
      obtain ⟨v', hv', h', hpages'⟩ := ih h₁ (hgrid.exec hpage hop hv₁)
        (fun op hmem => hops op (List.mem_cons_of_mem _ hmem)) hrest (by omega)
      exact ⟨v', Option.bind_eq_some_iff.mpr ⟨v₁, hv₁, hv'⟩, h', by omega⟩

end grid

/-! ## The system -/

section system

variable {ι : Type} [Fintype ι] [DecidableEq ι]

end system

end Ossim.Mm
