import Ossim.Mm.Shortage

/-!
# Growth and the address space

The bus is 22 bits wide, so a heap has room for 2^14 pages, and the page directory has as many
entries. `inc_vma_limit` looks at neither: its overlap test compares the planned region with the area
it extends, which ends where the region begins. The page number of the old end is masked before the
loop of `vmap_page_range` counts on from it, so a heap that has reached the end of the address space
goes on at entry 0.

What stops a heap in time is the RAM. Every page a heap grows by takes a frame, so all heaps together
have no more pages than the RAM has frames (`WithinRam`). `in_address_space_iff` says that this is the
only limit: heaps stay in the address space exactly if the RAM is not larger than it.
-/

namespace Ossim.Mm

/-- A request to grow: `ALLOC`, or `SYSCALL 17` with `SYSMEM_INC_OP` on area 0, of a size that can be
rounded up. -/
def GrowthRequest : MemOp → Prop
  | .alloc size _ => size.toNat < 2 ^ 31 - 255
  | .memmap regs => regs.a1 = sysmemIncOp ∧ regs.a2 = 0 ∧ regs.a3.toNat < 2 ^ 31 - 255
  | _ => False

/-- A heap in the address space: it ends on the bus, its next growth stays in the page directory, and
no two of its pages have the same entry. -/
structure InAddressSpace (c : Pcb) : Prop where
  heapEnd_le : c.mm.heapEnd ≤ 2 ^ pagingCpuBusWidth
  inc : ∀ incSz, incSz.toNat < 2 ^ 31 - 255 → c.incVmaLimit 0 incSz ≠ .error .outOfBounds
  alloc : ∀ size rgid, size.toNat < 2 ^ 31 - 255 → rgid.toNat < pagingMaxSymtblSz →
    c.liballoc size rgid ≠ .error .outOfBounds
  entries : ∀ a b, a.toNat < c.mm.heapEnd → b.toNat < c.mm.heapEnd →
    a.toNat / pagingPagesz ≠ b.toNat / pagingPagesz → pagingPgn a ≠ pagingPgn b

/-- The system before the first instruction: every process has one empty area, and the RAM is a
random access device of the configured size. -/
structure Configured {ι : Type} (maxSize : Nat) (s : MemSystem ι) : Prop where
  mmap_eq : ∀ i, (s.mm i).mmap = [⟨0, 0, 0, 0, [⟨0, 0⟩]⟩]
  mram_eq : ∃ mp hmax, s.mram = Memphy.initMemphy mp maxSize hmax 1

/-! ## One request -/

/-- A heap has grown by `n` pages and taken a frame for each. -/
structure Grown (c c' : Pcb) (area area' : VmArea) (n : Nat) : Prop where
  mmap_eq : c'.mm.mmap = [area']
  vmEnd_eq : area'.vmEnd.toNat = area.vmEnd.toNat + 256 * n
  frames : c.mram.freeFpList.length = n + c'.mram.freeFpList.length
  heapArea : area'.vmEnd.toNat ≤ 2 ^ 22 → HeapArea c'.mm area'

theorem aligned_movedEnd {mm : MmStruct} {area : VmArea} (h : HeapArea mm area) {incSz : BitVec 32}
    (hsz : incSz.toNat < 2 ^ 31 - 255) : (movedEnd area incSz).toNat % 256 = 0 := by
  have haligned := h.aligned
  have hend := toNat_movedEnd h.single hsz
  omega

theorem Moved.frames {c c' : Pcb} {area : VmArea} {incSz : BitVec 32} (h : Moved c area incSz c') :
    c.mram.freeFpList.length = mappedPages incSz + c'.mram.freeFpList.length := by
  cases h with
  | intro hfree hlen hmapped => rw [hfree, List.length_append, hlen]

theorem Moved.grown {c c' : Pcb} {area : VmArea} {incSz : BitVec 32} (h : HeapArea c.mm area)
    (hsz : incSz.toNat < 2 ^ 31 - 255) (hmoved : Moved c area incSz c') :
    Grown c c' area { area with vmEnd := movedEnd area incSz, sbrk := movedEnd area incSz }
      (pagesOf incSz) := by
  refine ⟨hmoved.mmap_eq, toNat_movedEnd h.single hsz, ?_, fun hle => ?_⟩
  · rw [hmoved.frames, mappedPages_eq hsz]
  · exact h.endsAt hmoved.mmap_eq (aligned_movedEnd h hsz) hle h.freerg_ne

theorem BrkStep.grown {c c' : Pcb} {area : VmArea} {size : BitVec 32} {i : Rgid}
    (h : HeapArea c.mm area) (hsz : size.toNat < 2 ^ 31 - 255) (hstep : BrkStep c area size i c') :
    ∃ area' n, Grown c c' area area' n := by
  have halign := toNat_pagingPageAlignsz hsz
  cases hstep with
  | stays hstays =>
      exact ⟨_, 0, rfl, rfl, (Nat.zero_add _).symm, fun _ => h.relisted rfl (by simp [h.freerg_ne])⟩
  | moves hmoves hmoved =>
      obtain ⟨-, hend, hframes, -⟩ := hmoved.grown (h.setSymrg i _) (by omega)
      refine ⟨_, _, rfl, hend, hframes, fun hle => ?_⟩
      exact h.endsAt rfl (aligned_movedEnd h (by omega)) hle (by simp [h.freerg_ne])

theorem AnyAlloc.grown {c c' : Pcb} {area : VmArea} {size : BitVec 32} {i : Rgid}
    (h : HeapArea c.mm area) (hsz : size.toNat < 2 ^ 31 - 255) (hstep : AnyAlloc c area size i c') :
    ∃ area' n, Grown c c' area area' n := by
  cases hstep with
  | atBrk hnone hstep => exact hstep.grown h hsz
  | carved hfits hstep =>
      cases hstep with
      | extended hnone => exact absurd hnone hfits
      | carved =>
          exact ⟨_, 0, rfl, rfl, (Nat.zero_add _).symm, fun _ => h.relisted rfl (by simp)⟩

/-- A `SYSMEM_INC_OP` that goes through. -/
theorem inc_of_sysMemmap {c c' : Pcb} {regs regs' : ScRegs} {r : Int} (hop : regs.a1 = sysmemIncOp)
    (hrun : c.sysMemmap regs = .ok (r, regs', c')) :
    ∃ r', c.incVmaLimit regs.a2 regs.a3 = .ok (r', c') := by
  unfold Pcb.sysMemmap at hrun
  rw [if_pos hop] at hrun
  obtain ⟨⟨r', c₁⟩, hinc, hret⟩ := Exec.bind_eq_ok.mp hrun
  cases hret
  exact ⟨r', hinc⟩

/-- **A growth request grows the heap**, or does not return. -/
theorem grown_of_exec {c c' : Pcb} {area : VmArea} {op : MemOp} (h : HeapArea c.mm area)
    (hreq : GrowthRequest op) (hexec : op.exec c = .ok c') : ∃ area' n, Grown c c' area area' n := by
  cases MemOp.exec_cases hexec with
  | alloc hrun =>
      obtain ⟨-, i, -, hstep⟩ := Pcb.anyAlloc_of_liballoc h hrun
      exact hstep.grown h hreq
  | memmap hrun =>
      obtain ⟨hop, harea, hsz⟩ := hreq
      obtain ⟨r', hinc⟩ := inc_of_sysMemmap hop hrun
      rw [harea] at hinc
      obtain ⟨-, hmoved⟩ := Pcb.moved_of_incVmaLimit h.single hinc
      exact ⟨_, _, hmoved.grown h hsz⟩
  | _ => exact hreq.elim

/-! ## Requests that find no frame -/

namespace Pcb

variable {c : Pcb} {area : VmArea} {incSz size rgid : BitVec 32}

theorem vmMapRam_of_lt (mapstart incpgnum : BitVec 32)
    (h : c.mram.freeFpList.length < incpgnum.toInt.toNat) :
    c.vmMapRam mapstart incpgnum = .error .nullDeref := by
  unfold vmMapRam Memphy.allocPagesRange
  rw [Memphy.takeFrames_of_lt [] h]
  rfl

theorem incVmaLimit_of_lt (h : HeapArea c.mm area)
    (hlt : c.mram.freeFpList.length < mappedPages incSz) :
    c.incVmaLimit 0 incSz = .error .nullDeref := by
  rw [incVmaLimit_eq h.single, vmMapRam_of_lt]
  · rfl
  · exact hlt

theorem allocAtBrk_of_lt (h : HeapArea c.mm area) (hrg : rgid.toNat < pagingMaxSymtblSz)
    (hmoves : MovesBrk size)
    (hlt : c.mram.freeFpList.length < mappedPages (pagingPageAlignsz size)) :
    c.allocAtBrk 0 rgid size 0 area = .error .nullDeref := by
  obtain ⟨i, hi⟩ : ∃ i, symIndex rgid.toNat = .ok i := ⟨_, dif_pos hrg⟩
  have hinc := incVmaLimit_of_lt (c := { c with mm := c.mm.setSymrg i (brkRegion area size) })
    (h.setSymrg i _) hlt
  rw [allocAtBrk_eq h, hi]
  simp only [bind, Except.bind, if_pos hmoves, hinc]

/-- Without an entry, a request has found no frame before. -/
theorem incVmaLimit_ne (h : HeapArea c.mm area)
    (hpgd : mappedPages incSz ≤ c.mram.freeFpList.length →
      firstEntry area + mappedPages incSz ≤ 2 ^ 14) :
    c.incVmaLimit 0 incSz ≠ .error .outOfBounds := by
  intro herror
  by_cases hfree : mappedPages incSz ≤ c.mram.freeFpList.length
  · obtain ⟨c', hrun⟩ := incVmaLimit_of_le h.single hfree (hpgd hfree)
    cases herror.symm.trans hrun
  · cases herror.symm.trans (incVmaLimit_of_lt h (Nat.lt_of_not_le hfree))

theorem liballoc_ne (h : HeapArea c.mm area) (hrg : rgid.toNat < pagingMaxSymtblSz)
    (hpgd : mappedPages (pagingPageAlignsz size) ≤ c.mram.freeFpList.length →
      firstEntry area + mappedPages (pagingPageAlignsz size) ≤ 2 ^ 14) :
    c.liballoc size rgid ≠ .error .outOfBounds := by
  intro herror
  by_cases henough : NoneFits area size → MovesBrk size →
      mappedPages (pagingPageAlignsz size) ≤ c.mram.freeFpList.length
  · obtain ⟨r, c', hrun⟩ := liballoc_of_le h hrg fun hnone hmoves =>
      ⟨henough hnone hmoves, hpgd (henough hnone hmoves)⟩
    cases herror.symm.trans hrun
  · obtain ⟨hnone, hrest⟩ := not_forall.mp henough
    obtain ⟨hmoves, hshort⟩ := not_forall.mp hrest
    unfold liballoc at herror
    rw [alloc_of_noneFits h hnone, allocAtBrk_of_lt h hrg hmoves (Nat.lt_of_not_le hshort)] at herror
    cases herror

end Pcb

/-! ## Runs -/

/-- Every heap is in good form and, together with the free frames, not larger than `n` frames. -/
def WithinRam {ι : Type} (n : Nat) (s : MemSystem ι) : Prop :=
  ∀ i, ∃ area, HeapArea (s.mm i) area ∧
    area.vmEnd.toNat + 256 * s.mram.freeFpList.length ≤ 256 * n

/-- With no more frames than entries, such a heap is in the address space. -/
theorem WithinRam.inAddressSpace {ι : Type} [DecidableEq ι] {n : Nat} {s : MemSystem ι}
    (h : WithinRam n s) (hn : n ≤ 2 ^ 14) (i : ι) : InAddressSpace (s.pcb i) := by
  obtain ⟨area, harea, hle⟩ := h i
  have hend : (s.pcb i).mm.heapEnd = area.vmEnd.toNat := harea.heapEnd_eq
  have hspace := harea.end_le
  -- the frames that are left fit behind the heap
  have hpgd : ∀ k, k ≤ s.mram.freeFpList.length → firstEntry area + k ≤ 2 ^ 14 := by
    intro k hk
    rcases Nat.lt_or_ge area.vmEnd.toNat (2 ^ 22) with hlt | hge
    · have hfirst : firstEntry area = area.vmEnd.toNat / 256 := harea.single.pagingPgn_vmEnd hlt
      omega
    · have hfirst := firstEntry_lt area
      omega
  refine ⟨?_, fun incSz _ => ?_, fun size rgid _ hrg => ?_, fun a b ha hb hne heq => ?_⟩
  · rw [hend]
    exact hspace
  · exact Pcb.incVmaLimit_ne (c := s.pcb i) harea (hpgd _)
  · exact Pcb.liballoc_ne (c := s.pcb i) harea hrg (hpgd _)
  · rw [hend] at ha hb
    have hval := congrArg Fin.val heq
    rw [pagingPgn_val (by omega), pagingPgn_val (by omega)] at hval
    exact hne hval

/-- **One request keeps the heaps within the RAM.** -/
theorem WithinRam.step {ι : Type} [DecidableEq ι] {n : Nat} {s s' : MemSystem ι} {a : ι × MemOp}
    (h : WithinRam n s) (hn : n ≤ 2 ^ 14) (hreq : GrowthRequest a.2) (hstep : s.Step a s') :
    WithinRam n s' := by
  obtain ⟨c', hexec, rfl⟩ := MemSystem.step_cases hstep
  obtain ⟨area, harea, hle⟩ := h a.1
  obtain ⟨area', k, hgrown⟩ := grown_of_exec (c := s.pcb a.1) harea hreq hexec
  have hend := hgrown.vmEnd_eq
  have hframes : s.mram.freeFpList.length = k + c'.mram.freeFpList.length := hgrown.frames
  intro j
  by_cases hj : j = a.1
  · subst hj
    refine ⟨area', ?_, ?_⟩
    · rw [MemSystem.withPcb_mm_self]
      exact hgrown.heapArea (by omega)
    · show _ + 256 * c'.mram.freeFpList.length ≤ _
      omega
  · obtain ⟨other, hother, hle'⟩ := h j
    refine ⟨other, ?_, ?_⟩
    · rw [MemSystem.withPcb_mm_of_ne _ hj]
      exact hother
    · show _ + 256 * c'.mram.freeFpList.length ≤ _
      omega

namespace Configured

variable {ι : Type} {maxSize : Nat} {s₀ : MemSystem ι}

theorem freeFpList_eq (h : Configured maxSize s₀) (hmin : pagingPagesz ≤ maxSize) :
    s₀.mram.freeFpList = List.range (maxSize / pagingPagesz) := by
  obtain ⟨mp, hmax, hmram⟩ := h.mram_eq
  rw [hmram, Memphy.initMemphy_freeFpList mp hmin hmax]

theorem heapArea (h : Configured maxSize s₀) (i : ι) :
    HeapArea (s₀.mm i) ⟨0, 0, 0, 0, [⟨0, 0⟩]⟩ :=
  ⟨h.mmap_eq i, rfl, rfl, rfl, by decide, by decide, by simp⟩

theorem withinRam (h : Configured maxSize s₀) (hmin : pagingPagesz ≤ maxSize) :
    WithinRam (maxSize / pagingPagesz) s₀ := by
  intro i
  refine ⟨_, h.heapArea i, ?_⟩
  rw [h.freeFpList_eq hmin, List.length_range]
  exact Nat.le_of_eq (Nat.zero_add _)

end Configured

section

variable {ι : Type} [DecidableEq ι] {maxSize : Nat} {s₀ : MemSystem ι}

/-- `SYSMEM_INC_OP` of a process, when there are enough frames and entries. -/
theorem inc_step {s : MemSystem ι} {i : ι} {area : VmArea} {incSz : BitVec 32}
    (h : HeapArea (s.mm i) area) (hsz : incSz.toNat < 2 ^ 31 - 255)
    (hfree : pagesOf incSz ≤ s.mram.freeFpList.length)
    (hpgd : firstEntry area + pagesOf incSz ≤ 2 ^ 14) :
    ∃ s' area', s.Step (i, .memmap ⟨sysmemIncOp, 0, incSz⟩) s' ∧
      Grown (s.pcb i) (s'.pcb i) area area' (pagesOf incSz) := by
  rw [← mappedPages_eq hsz] at hfree hpgd
  obtain ⟨c', hinc⟩ := Pcb.incVmaLimit_of_le (c := s.pcb i) h.single hfree hpgd
  obtain ⟨-, hmoved⟩ := Pcb.moved_of_incVmaLimit (c := s.pcb i) h.single hinc
  have hcall : (s.pcb i).sysMemmap ⟨sysmemIncOp, 0, incSz⟩ =
      .ok (0, ⟨sysmemIncOp, 0, incSz⟩, c') := by
    rw [Pcb.sysMemmap_inc, hinc]
    rfl
  obtain ⟨area', hgrown⟩ : ∃ area', Grown (s.pcb i) c' area area' (pagesOf incSz) :=
    ⟨_, Moved.grown (c := s.pcb i) h hsz hmoved⟩
  refine ⟨s.withPcb i c', area', MemSystem.step_of_exec (MemOp.Call.memmap hcall).exec, ?_⟩
  rw [MemSystem.pcb_withPcb]
  exact hgrown

/-- A process that takes the whole address space and then one byte more. -/
theorem overrun (hs₀ : Configured maxSize s₀) (hmin : pagingPagesz ≤ maxSize)
    (hlarge : 2 ^ 14 < maxSize / pagingPagesz) (i : ι) :
    ∃ as s, Steps (Steps.Meeting (fun _ a => GrowthRequest a.2) MemSystem.Step) s₀ as s ∧
      (s.pcb i).mm.heapEnd = 2 ^ 22 + 256 := by
  have hspace : pagesOf (BitVec.ofNat 32 (2 ^ 22)) = 2 ^ 14 := by decide
  have hbyte : pagesOf 1 = 1 := by decide
  have hfree : s₀.mram.freeFpList.length = maxSize / pagingPagesz := by
    rw [hs₀.freeFpList_eq hmin, List.length_range]
  have harea := hs₀.heapArea i
  have hfirst : firstEntry ⟨0, 0, 0, 0, [⟨0, 0⟩]⟩ = 0 := harea.single.pagingPgn_vmEnd (by decide)
  obtain ⟨s₁, area₁, hstep₁, hgrown₁⟩ := inc_step harea
    (show (BitVec.ofNat 32 (2 ^ 22)).toNat < 2 ^ 31 - 255 by decide) (by omega) (by omega)
  have hend₁ : area₁.vmEnd.toNat = 2 ^ 22 := by
    rw [hgrown₁.vmEnd_eq, hspace]
    rfl
  have hframes₁ : s₀.mram.freeFpList.length = 2 ^ 14 + s₁.mram.freeFpList.length :=
    hspace ▸ hgrown₁.frames
  have hfirst₁ := firstEntry_lt area₁
  obtain ⟨s₂, area₂, hstep₂, hgrown₂⟩ := inc_step (hgrown₁.heapArea (by omega))
    (show (1 : BitVec 32).toNat < 2 ^ 31 - 255 by decide) (by omega) (by omega)
  refine ⟨_, s₂, .snoc (.snoc (.nil s₀) ⟨?_, hstep₁⟩) ⟨?_, hstep₂⟩, ?_⟩
  · exact ⟨rfl, rfl, by decide⟩
  · exact ⟨rfl, rfl, by decide⟩
  · unfold MmStruct.heapEnd
    rw [hgrown₂.mmap_eq]
    show area₂.vmEnd.toNat = _
    rw [hgrown₂.vmEnd_eq, hend₁, hbyte]

/-- **When growth stays in the address space.** For every configured size of the RAM that has room for
a frame and every process: in every state that any growth requests of any processes lead to, its heap
is in the address space, if and only if the RAM has at most 2^14 frames. -/
theorem in_address_space_iff (hs₀ : Configured maxSize s₀) (hmin : pagingPagesz ≤ maxSize) (i : ι) :
    (∀ as s, Steps (Steps.Meeting (fun _ a => GrowthRequest a.2) MemSystem.Step) s₀ as s →
      InAddressSpace (s.pcb i)) ↔ maxSize / pagingPagesz ≤ 2 ^ 14 := by
  constructor
  · intro hall
    by_contra hlarge
    obtain ⟨as, s, hrun, hend⟩ := overrun hs₀ hmin (Nat.lt_of_not_le hlarge) i
    have hle := (hall as s hrun).heapEnd_le
    unfold pagingCpuBusWidth at hle
    omega
  · intro hn as s hrun
    have hwithin : WithinRam (maxSize / pagingPagesz) s :=
      hrun.state_invariant (hs₀.withinRam hmin) fun t a u h ⟨hreq, hstep⟩ => h.step hn hreq hstep
    exact hwithin.inAddressSpace hn i

end

/-- A system of one process with a RAM of the given size. -/
def systemOf (maxSize : Nat) (hmax : maxSize < 2 ^ 31) : MemSystem Unit where
  mm := fun _ => freshMm
  mram := Memphy.initMemphy oneFrame maxSize hmax 1
  activeMswp := fourFrames

theorem configured_systemOf (maxSize : Nat) (hmax : maxSize < 2 ^ 31) :
    Configured maxSize (systemOf maxSize hmax) := ⟨fun _ => rfl, oneFrame, hmax, rfl⟩

theorem in_address_space_iff_systemOf :
    (∀ as s, Steps (Steps.Meeting (fun _ a => GrowthRequest a.2) MemSystem.Step)
        (systemOf 1024 (by decide)) as s → InAddressSpace (s.pcb ())) ↔
      1024 / pagingPagesz ≤ 2 ^ 14 :=
  in_address_space_iff (configured_systemOf 1024 (by decide)) (by decide) ()

/-- With one frame more than the page directory has entries, the last page that is mapped has the
entry of the first one. -/
theorem growth_leaves_address_space :
    ∃ as s, Steps (Steps.Meeting (fun _ a => GrowthRequest a.2) MemSystem.Step)
        (systemOf (2 ^ 22 + 256) (by decide)) as s ∧ ¬ InAddressSpace (s.pcb ()) ∧
      (s.pcb ()).mm.heapEnd = 2 ^ 22 + 256 ∧ pagingPgn (BitVec.ofNat 32 (2 ^ 22)) = pagingPgn 0 := by
  obtain ⟨as, s, hrun, hend⟩ := overrun (configured_systemOf (2 ^ 22 + 256) (by decide)) (by decide)
    (by decide) ()
  refine ⟨as, s, hrun, fun hspace => ?_, hend, Fin.ext (by decide)⟩
  have hle := hspace.heapEnd_le
  unfold pagingCpuBusWidth at hle
  omega

end Ossim.Mm
