import Ossim.Mm.Regions

/-!
# The heap loses only what a process loses itself

Every address of the area belongs to a region of the table or to a free one, as long as a process
frees a region before it allocates another one under the same number. `__alloc` overwrites the entry
of the table without looking at it, and no other record of the region exists: its addresses are lost
until the process ends.

The search for a free region may take one that is a byte too short, and what is left of it then ends
before it starts. Such a remainder still counts, with a sign: it takes back the byte that two regions
have in common. So the sum of what the regions cover never falls below 1, whatever has been carved,
extended and merged, and an address with a positive sum belongs to a region.
-/

namespace Ossim.Mm

/-- The sum of the signed covers is positive only in a region. -/
theorem exists_mem_of_freeSigned_pos {l : List VmRg} {a : Nat} (h : 0 < freeSigned l a) :
    ∃ rg ∈ l, a ∈ rg.range := by
  have hzero : (l.map fun _ => (0 : Int)).sum = 0 := by simp
  obtain ⟨rg, hrg, hpos⟩ := List.exists_lt_of_sum_lt (fun _ => 0)
    (fun rg : VmRg => Cover.signed rg.rgStart.toNat rg.rgEnd.toNat a) (hzero ▸ h)
  have hle := Cover.signed_le_cover rg.rgStart.toNat rg.rgEnd.toNat a
  exact ⟨rg, hrg, Cover.cover_pos.mp (by omega)⟩

theorem exists_mem_of_freeCover_pos {l : List VmRg} {a : Nat} (h : 0 < freeCover l a) :
    ∃ rg ∈ l, a ∈ rg.range := by
  have hzero : (l.map fun _ => 0).sum = 0 := by simp
  obtain ⟨rg, hrg, hpos⟩ := List.exists_lt_of_sum_lt (fun _ => 0)
    (fun rg : VmRg => rg.cover a) (hzero ▸ h)
  exact ⟨rg, hrg, Cover.cover_pos.mp hpos⟩

theorem exists_mem_of_symCover_pos {tbl : Rgid → VmRg} {a : Nat} (h : 0 < symCover tbl a) :
    ∃ i, a ∈ (tbl i).range := by
  by_contra hnone
  have hzero : symCover tbl a = 0 :=
    Finset.sum_eq_zero fun i _ => Nat.eq_zero_of_not_pos fun hpos =>
      hnone ⟨i, Cover.cover_pos.mp hpos⟩
  omega

/-! ## The invariant -/

/-- Every address of the area is covered by the free regions, the table and the regions `lost`. -/
structure Covered (mm : MmStruct) (area : VmArea) (lost : List VmRg) : Prop
    extends HeapArea mm area where
  covered : ∀ a, Cover.signed area.vmStart.toNat area.vmEnd.toNat a ≤
    freeSigned area.vmFreergList a + symCover mm.symrgtbl a + freeCover lost a

namespace Covered

variable {mm : MmStruct} {area : VmArea} {lost : List VmRg}

/-- An address of the area belongs to a region. -/
theorem exists_region (h : Covered mm area lost) {a : Nat}
    (ha : a ∈ Set.Ico area.vmStart.toNat area.sbrk.toNat) :
    (∃ i, a ∈ (mm.symrgtbl i).range) ∨ (∃ rg ∈ area.vmFreergList, a ∈ rg.range) ∨
      ∃ rg ∈ lost, a ∈ rg.range := by
  rw [h.sbrk_eq] at ha
  have hone : Cover.signed area.vmStart.toNat area.vmEnd.toNat a = 1 := by
    rw [Cover.signed_eq_cover (ha.1.trans ha.2.le), Cover.cover_eq_one ha.1 ha.2]
    rfl
  have hsum := h.covered a
  by_cases htbl : 0 < symCover mm.symrgtbl a
  · exact .inl (exists_mem_of_symCover_pos htbl)
  · by_cases hlost : 0 < freeCover lost a
    · exact .inr (.inr (exists_mem_of_freeCover_pos hlost))
    · exact .inr (.inl (exists_mem_of_freeSigned_pos (by omega)))

/-- Writing a region into the table: what the overwritten one covered is lost. -/
theorem signed_le_update (tbl : Rgid → VmRg) (i : Rgid) (lo hi : BitVec 64) (lost : List VmRg)
    (a : Nat) :
    Cover.signed lo.toNat hi.toNat a + symCover tbl a + freeCover lost a ≤
      symCover (Function.update tbl i ⟨lo, hi⟩) a + freeCover (tbl i :: lost) a := by
  have hupdate := symCover_update tbl i ⟨lo, hi⟩ a
  have hle : Cover.signed lo.toNat hi.toNat a ≤ VmRg.cover ⟨lo, hi⟩ a :=
    Cover.signed_le_cover _ _ a
  rw [freeCover_cons]
  omega

/-- The slack covers what lies between the new region and the new end. -/
theorem signed_le_slack (lo hi : BitVec 64) (a : Nat) :
    Cover.signed lo.toNat hi.toNat a ≤ freeSigned (slack lo hi) a := by
  unfold slack
  split
  · simp [freeSigned]
  · next hge => exact Cover.signed_nonpos (BitVec.le_def.mp (BitVec.not_lt.mp hge)) a

/-- **Allocation loses at most the region it overwrites.** -/
theorem allocStep {c c' : Pcb} {size : BitVec 32} {i : Rgid} (h : Covered c.mm area lost)
    (hstep : AllocStep c area size i c') :
    ∃ area', Covered c'.mm area' (c.mm.symrgtbl i :: lost) := by
  cases hstep with
  | @carved pre post best hsplit hfits hfirst hlowest =>
      refine ⟨_, h.relisted rfl (by simp), fun a => ?_⟩
      have hsum := h.covered a
      -- The new region and the remainder are what the free region was.
      have hcut := Cover.signed_add best.rgStart.toNat (best.rgStart + size.signExtend 64).toNat
        best.rgEnd.toNat a
      have htbl := signed_le_update c.mm.symrgtbl i best.rgStart
        (best.rgStart + size.signExtend 64) lost a
      rw [hsplit] at hsum
      simp only [freeSigned_append, freeSigned_cons] at hsum ⊢
      omega
  | @extended taken rest pgd' fifo' newEnd hnone hend hspace hfree hlen hmapped =>
      have haligned := h.aligned
      refine ⟨_, h.endsAt rfl (by omega) hspace (by simp [h.freerg_ne]), fun a => ?_⟩
      have hsum := h.covered a
      -- The new region and the slack are what the area has grown by.
      have hgrown := Cover.signed_add area.vmStart.toNat area.vmEnd.toNat newEnd.toNat a
      have hcut := Cover.signed_add area.vmEnd.toNat (area.vmEnd + size.signExtend 64).toNat
        newEnd.toNat a
      have hslack := signed_le_slack (area.vmEnd + size.signExtend 64) newEnd a
      have htbl := signed_le_update c.mm.symrgtbl i area.vmEnd
        (area.vmEnd + size.signExtend 64) lost a
      simp only [freeSigned_append]
      omega

/-- **Freeing loses nothing.** -/
theorem freeStep {c c' : Pcb} (h : Covered c.mm area lost) (hstep : FreeStep c area c') :
    ∃ area', Covered c'.mm area' lost := by
  cases hstep with
  | refused => exact ⟨area, h⟩
  | @merged i hlt =>
      refine ⟨_, h.relisted rfl (by simp), fun a => ?_⟩
      have hsum := h.covered a
      have hmerged := coalesce_signed (c.mm.symrgtbl i) area.vmFreergList a
      rw [freeSigned_cons (c.mm.symrgtbl i)] at hmerged
      -- The region is not empty, so it is freed with the addresses that it covered in the table.
      have hfreed : Cover.signed (c.mm.symrgtbl i).rgStart.toNat (c.mm.symrgtbl i).rgEnd.toNat a =
          (c.mm.symrgtbl i).cover a :=
        Cover.signed_eq_cover (BitVec.lt_def.mp hlt).le a
      have hupdate := symCover_update c.mm.symrgtbl i ⟨0, 0⟩ a
      simp only
      omega

end Covered

theorem FreshHeap.covered {mm : MmStruct} (h : FreshHeap mm) :
    Covered mm ⟨0, 0, 0, 0, [⟨0, 0⟩]⟩ [] := by
  refine ⟨h.regions.toHeapArea, fun a => ?_⟩
  have hself : Cover.signed (0 : BitVec 64).toNat (0 : BitVec 64).toNat a = 0 := Int.sub_self _
  simp only [freeSigned_cons, hself]
  exact Int.add_nonneg (Int.natCast_nonneg _) (Int.natCast_nonneg _)

/-! ## Runs -/

/-- In the run of `ops` from `c₀`, a call of `liballoc` found the region `rg` in the table under the
number it was asked for. -/
def Overwritten (c₀ : Pcb) (ops : List MemOp) (rg : VmRg) : Prop :=
  ∃ before size regIndex after c, ops = before ++ .alloc size regIndex :: after ∧
    Steps MemOp.Step c₀ before c ∧
    ∃ i : Rgid, (i : Nat) = regIndex.toNat ∧ c.mm.symrgtbl i = rg

theorem Overwritten.append {c₀ : Pcb} {ops : List MemOp} {rg : VmRg} (h : Overwritten c₀ ops rg)
    (op : MemOp) : Overwritten c₀ (ops ++ [op]) rg := by
  obtain ⟨before, size, regIndex, after, c, rfl, hrun, hi⟩ := h
  exact ⟨before, size, regIndex, after ++ [op], c, by simp, hrun, hi⟩

/-- An operation loses at most the region that it overwrites. -/
theorem Covered.exec {c : Pcb} {area : VmArea} {lost : List VmRg} (h : Covered c.mm area lost)
    {op : MemOp} (hop : RegionOp c op) :
    ∃ c' area' lost', op.exec c = .ok c' ∧ Covered c'.mm area' lost' ∧
      ∀ rg ∈ lost', rg ∈ lost ∨ ∃ size regIndex, op = .alloc size regIndex ∧
        ∃ i : Rgid, (i : Nat) = regIndex.toNat ∧ c.mm.symrgtbl i = rg := by
  cases op with
  | alloc size regIndex =>
      obtain ⟨hpos, hsz, hrg, henough⟩ := hop
      obtain ⟨c', hrun, hstep⟩ := liballoc_of_heapArea h.toHeapArea hpos hsz hrg
        (henough area h.mem_mmap)
      obtain ⟨area', h'⟩ := h.allocStep hstep
      refine ⟨c', area', _, (MemOp.Call.alloc hrun).exec, h', fun rg hlost => ?_⟩
      rcases List.mem_cons.mp hlost with rfl | hold
      · exact .inr ⟨size, regIndex, rfl, _, rfl, rfl⟩
      · exact .inl hold
  | free regIndex =>
      obtain ⟨r, c', hrun, hstep⟩ := libfree_of_heapArea h.toHeapArea regIndex
      obtain ⟨area', h'⟩ := h.freeStep hstep
      exact ⟨c', area', lost, (MemOp.Call.free hrun).exec, h', fun rg hlost => .inl hlost⟩
  | read | write | memmap | setval | getval => exact hop.elim

/-- **The heap leaks no address but those of a region that is overwritten**: in every run of
`liballoc` and `libfree` from an empty heap, each address of the area belongs to a region of the
table, to a free region, or to a region that a call of `liballoc` for the same number has replaced.
The next call goes through. -/
theorem no_address_lost {c₀ c : Pcb} {ops : List MemOp} (hfresh : FreshHeap c₀.mm)
    (hrun : Steps (Steps.Meeting RegionOp MemOp.Step) c₀ ops c) :
    (∃ area, c.mm.mmap = [area] ∧ ∀ a ∈ Set.Ico area.vmStart.toNat area.sbrk.toNat,
      (∃ i, a ∈ (c.mm.symrgtbl i).range) ∨ (∃ rg ∈ area.vmFreergList, a ∈ rg.range) ∨
        ∃ rg, Overwritten c₀ ops rg ∧ a ∈ rg.range) ∧
    ∀ op, RegionOp c op → ∃ c', MemOp.Step c op c' := by
  -- The run itself is part of the invariant: it says who overwrote what is lost.
  obtain ⟨-, area, lost, h, hlost⟩ : Steps MemOp.Step c₀ ops c ∧
      ∃ area lost, Covered c.mm area lost ∧ ∀ rg ∈ lost, Overwritten c₀ ops rg := by
    refine hrun.invariant (motive := fun ops c => Steps MemOp.Step c₀ ops c ∧
      ∃ area lost, Covered c.mm area lost ∧ ∀ rg ∈ lost, Overwritten c₀ ops rg)
      ⟨.nil c₀, _, [], hfresh.covered, fun rg hrg => absurd hrg List.not_mem_nil⟩ ?_
    intro ops c op c' ⟨hpast, area, lost, h, hlost⟩ ⟨hop, hstep⟩
    obtain ⟨c₁, area', lost', hexec, h', hlost'⟩ := h.exec hop
    cases hstep.symm.trans hexec
    refine ⟨.snoc hpast hstep, area', lost', h', fun rg hrg => ?_⟩
    rcases hlost' rg hrg with hold | ⟨size, regIndex, rfl, hi⟩
    · exact (hlost rg hold).append op
    · exact ⟨ops, size, regIndex, [], c, rfl, hpast, hi⟩
  refine ⟨⟨area, h.mmap_eq, fun a ha => ?_⟩, fun op hop => ?_⟩
  · rcases h.exists_region ha with htbl | hfree | ⟨rg, hrg, hmem⟩
    · exact .inl htbl
    · exact .inr (.inl hfree)
    · exact .inr (.inr ⟨rg, hlost rg hrg, hmem⟩)
  · obtain ⟨c', area', lost', hexec, -, -⟩ := h.exec hop
    exact ⟨c', hexec⟩

/-! ## Runs on concrete heaps -/

/-- A run that takes a region which is a byte too short, overwrites one and frees one. -/
theorem no_address_lost_short :
    ∃ c, Steps (Steps.Meeting RegionOp MemOp.Step) emptyHeap
        [.alloc 300 0, .alloc 213 1, .alloc 100 0, .free 1] c ∧
      ∃ area, c.mm.mmap = [area] ∧ ∀ a ∈ Set.Ico area.vmStart.toNat area.sbrk.toNat,
        (∃ i, a ∈ (c.mm.symrgtbl i).range) ∨ (∃ rg ∈ area.vmFreergList, a ∈ rg.range) ∨
          ∃ rg, Overwritten emptyHeap [.alloc 300 0, .alloc 213 1, .alloc 100 0, .free 1] rg ∧
            a ∈ rg.range := by
  have hcheck : (Steps.exec (Steps.checked RegionOp MemOp.tryStep) emptyHeap
      [.alloc 300 0, .alloc 213 1, .alloc 100 0, .free 1]).isSome = true := by
    decide +kernel
  obtain ⟨c, hc⟩ := Option.isSome_iff_exists.mp hcheck
  have hrun := MemOp.steps_of_exec_checked hc
  exact ⟨c, hrun, (no_address_lost freshHeap_emptyHeap hrun).1⟩

/-- Two allocations under the same number: the first region is in no list any more. -/
theorem first_region_lost :
    ∃ c area, Steps (Steps.Meeting RegionOp MemOp.Step) emptyHeap
        [.alloc 300 0, .alloc 300 0] c ∧
      c.mm.mmap = [area] ∧ 0 ∈ Set.Ico area.vmStart.toNat area.sbrk.toNat ∧
      (∀ i, 0 ∉ (c.mm.symrgtbl i).range) ∧ ∀ rg ∈ area.vmFreergList, 0 ∉ rg.range := by
  have hcheck : (Steps.exec (Steps.checked RegionOp MemOp.tryStep) emptyHeap
      [.alloc 300 0, .alloc 300 0]).any (fun c =>
        decide (c.mm.mmap = [⟨0, 0, 1024, 1024, [⟨812, 1024⟩, ⟨300, 512⟩, ⟨0, 0⟩]⟩] ∧
          ∀ i, (c.mm.symrgtbl i).cover 0 = 0)) = true := by
    decide +kernel
  obtain ⟨c, hc, hregions⟩ := (Option.any_eq_true _ _).mp hcheck
  obtain ⟨hmmap, htbl⟩ := of_decide_eq_true hregions
  have houtside : ∀ {rg : VmRg}, rg.cover 0 = 0 → 0 ∉ rg.range := fun hzero hmem =>
    absurd (Cover.cover_pos.mpr hmem) (Nat.not_lt.mpr hzero.le)
  have hfree : ∀ rg ∈ [(⟨812, 1024⟩ : VmRg), ⟨300, 512⟩, ⟨0, 0⟩], rg.cover 0 = 0 := by decide
  exact ⟨c, _, MemOp.steps_of_exec_checked hc, hmmap, ⟨by decide, by decide⟩,
    fun i => houtside (htbl i), fun rg hrg => houtside (hfree rg hrg)⟩

end Ossim.Mm
