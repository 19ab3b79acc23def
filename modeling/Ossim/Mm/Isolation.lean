import Ossim.Mm.PagedHeap
import Ossim.Mm.SwapFrames

/-!
# Process isolation

What an operation does to the bytes of the devices: an access changes one byte of RAM in the frame
of its page, and a fault two frames of swap, the one it takes off the free list and, by the second
copy, the one with the number of the victim's frame. A raw call changes what its arguments name.
Nothing else changes any byte.

An instruction of one process therefore leaves the others alone if it makes no raw copy or raw
write, writes to no evicted page (whose entry is mistaken for a frame number), and the second copy
does not happen to hit a frame of another process.
-/

namespace Ossim.Mm

/-! ## The page an operation accesses -/

namespace Pcb

/-- The page at an offset in a region. -/
def regionPage (c : Pcb) (rgid offset : BitVec 32) : Option Pgn :=
  if h : rgid.toNat < pagingMaxSymtblSz then
    some (pagingPgn
      (((c.mm.symrgtbl ⟨rgid.toNat, h⟩).rgStart + offset.signExtend 64).setWidth 32))
  else none

theorem regionPage_eq (c : Pcb) {rgid : BitVec 32} (offset : BitVec 32) {i : Rgid}
    (h : (i : Nat) = rgid.toNat) :
    c.regionPage rgid offset =
      some (pagingPgn (((c.mm.symrgtbl i).rgStart + offset.signExtend 64).setWidth 32)) := by
  have hlt : rgid.toNat < pagingMaxSymtblSz := h ▸ i.isLt
  have hi : i = ⟨rgid.toNat, hlt⟩ := Fin.ext h
  rw [regionPage, dif_pos hlt, hi]

end Pcb

namespace MemOp

/-- The page an operation writes to. -/
def writtenPage (c : Pcb) : MemOp → Option Pgn
  | .write _ destination offset => c.regionPage destination offset
  | .setval addr _ => some (pagingPgn addr)
  | _ => none

/-- The page an operation fetches. -/
def fetchedPage (c : Pcb) : MemOp → Option Pgn
  | .read source offset => c.regionPage source offset
  | .getval addr => some (pagingPgn addr)
  | op => op.writtenPage c

/-- The raw write of system call 17 to the byte `x` of RAM. -/
def RawWrite (x : Nat) : MemOp → Prop
  | .memmap regs => regs.a1 = sysmemIoWrite ∧ x = regs.a2.toNat
  | _ => False

/-- The raw copy of system call 17 to the frame of swap with the byte `x`. -/
def RawCopy (x : Nat) : MemOp → Prop
  | .memmap regs => regs.a1 = sysmemSwpOp ∧ Memphy.CellOf regs.a3 x
  | _ => False

/-- The operation writes to an evicted page. -/
def WritesEvicted (c : Pcb) (op : MemOp) : Prop :=
  ∃ p ∈ op.writtenPage c, swappedOut (c.mm.pgd p) = true

/-- The operation faults, and the victim's frame has the number `f`. -/
def EvictsFrame (c : Pcb) (op : MemOp) (f : Nat) : Prop :=
  (∃ p ∈ op.fetchedPage c, pagingPagePresent (c.mm.pgd p) = false) ∧
    ∃ v ∈ c.mm.fifoPgn.getLast?, f = pagingFpn (c.mm.pgd v)

end MemOp

/-! ## What changes in the devices -/

namespace Pcb

theorem IncStep.devices {c c' : Pcb} {vmaid incSz : BitVec 32} (h : IncStep c vmaid incSz c') :
    c'.mram.storage = c.mram.storage ∧ c'.activeMswp = c.activeMswp := by
  cases h with
  | refused => exact ⟨rfl, rfl⟩
  | grown => exact ⟨rfl, rfl⟩

/-- An allocation changes no byte. -/
theorem liballoc_devices {c c' : Pcb} {size regIndex : BitVec 32} {r : Int}
    (h : c.liballoc size regIndex = .ok (r, c')) :
    c'.mram.storage = c.mram.storage ∧ c'.activeMswp = c.activeMswp := by
  obtain ⟨c₁, c₂, hsame, hsame', hgrow⟩ := liballoc_cases h
  rw [hsame'.mram, hsame'.activeMswp, ← hsame.mram, ← hsame.activeMswp]
  rcases hgrow with rfl | ⟨-, hinc, -⟩
  · exact ⟨rfl, rfl⟩
  · exact hinc.devices

/-- Fetching a page changes no byte of RAM, and leaves the page resident unless it was swapped
out. -/
theorem pgGetpage_ram {c c' : Pcb} {p : Pgn} {r : Int} {fpn : Nat}
    (h : c.pgGetpage p = .ok (r, fpn, c')) :
    c'.mram = c.mram ∧ fpn = pagingFpn (c'.mm.pgd p) ∧
      (swappedOut (c.mm.pgd p) = true ∨ resident (c'.mm.pgd p) = true) := by
  obtain ⟨-, hfpn, ⟨hpresent, rfl⟩ | ⟨-, hfault⟩⟩ := pgGetpage_cases h
  · refine ⟨rfl, hfpn, ?_⟩
    cases hswapped : swappedOut (c'.mm.pgd p) with
    | true => exact .inl rfl
    | false => exact .inr (resident_of_present hpresent hswapped)
  · cases hfault with
    | intro hfifo hswap hstorage =>
        refine ⟨rfl, hfpn, .inr ?_⟩
        show resident (Function.update (Function.update c.mm.pgd _ _) p (pteSetFpn _ _) p) = true
        rw [Function.update_self, resident_pteSetFpn]

/-- Fetching a page changes at most two frames of swap, and only in a fault. -/
theorem pgGetpage_swap {c c' : Pcb} {p : Pgn} {r : Int} {fpn : Nat}
    (h : c.pgGetpage p = .ok (r, fpn, c')) (x : Nat) :
    c'.activeMswp.storage x = c.activeMswp.storage x ∨
      (∃ s ∈ c.activeMswp.freeFpList, Memphy.CellOf (BitVec.ofNat 32 s) x) ∨
      (pagingPagePresent (c.mm.pgd p) = false ∧ ∃ v ∈ c.mm.fifoPgn.getLast?,
        x / 256 = pagingFpn (c.mm.pgd v)) := by
  obtain ⟨-, -, ⟨-, rfl⟩ | ⟨habsent, hfault⟩⟩ := pgGetpage_cases h
  · exact .inl rfl
  · cases hfault with
    | @intro v newer s rest storage hfifo hswap hstorage =>
        by_cases hs : Memphy.CellOf (BitVec.ofNat 32 s) x
        · exact .inr (.inl ⟨s, by simp [hswap], hs⟩)
        · by_cases hv : Memphy.CellOf (BitVec.ofNat 32 (pagingFpn (c.mm.pgd v))) x
          · have hlt := pagingFpn_lt (c.mm.pgd v)
            exact .inr (.inr ⟨habsent, v, by simp [hfifo], (Memphy.cellOf_iff (by omega)).mp hv⟩)
          · exact .inl (hstorage x hs hv)

theorem pgGetval_ram {c c' : Pcb} {addr : BitVec 32} {r : Int} {data : Option Byte}
    (h : c.pgGetval addr = .ok (r, data, c')) : c'.mram = c.mram := by
  obtain ⟨fpn, hpage⟩ := pgGetval_cases h
  exact (pgGetpage_ram hpage).1

/-- A write changes at most one byte of RAM, in the frame of its page. -/
theorem pgSetval_ram {c c' : Pcb} {addr : BitVec 32} {value : Byte} {r : Int}
    (h : c.pgSetval addr value = .ok (r, c')) (x : Nat) :
    c'.mram.storage x = c.mram.storage x ∨
      (x / 256 = pagingFpn (c'.mm.pgd (pagingPgn addr)) ∧
        (swappedOut (c.mm.pgd (pagingPgn addr)) = true ∨
          resident (c'.mm.pgd (pagingPgn addr)) = true)) := by
  obtain ⟨fpn, c₁, hpage, hset⟩ := pgSetval_cases h
  obtain ⟨hmram, hfpn, hres⟩ := pgGetpage_ram hpage
  rcases hset with rfl | rfl
  · exact .inl (by rw [hmram])
  · rcases eq_or_ne x (fpn * 256 + pagingOffst addr) with rfl | hne
    · have hlt := pagingOffst_lt addr
      have hframe : (fpn * 256 + pagingOffst addr) / 256 = fpn := by omega
      exact .inr ⟨hframe.trans hfpn, hres⟩
    · left
      rw [Memphy.setByte_storage, Function.update_of_ne hne, hmram]

theorem pgSetval_swap {c c' : Pcb} {addr : BitVec 32} {value : Byte} {r : Int}
    (h : c.pgSetval addr value = .ok (r, c')) :
    ∃ fpn c₁, c.pgGetpage (pagingPgn addr) = .ok (0, fpn, c₁) ∧ c'.activeMswp = c₁.activeMswp := by
  obtain ⟨fpn, c₁, hpage, rfl | rfl⟩ := pgSetval_cases h
  · exact ⟨fpn, _, hpage, rfl⟩
  · exact ⟨fpn, c₁, hpage, rfl⟩

/-- What a raw call changes: nothing, one byte of RAM, or one frame of swap. -/
theorem sysMemmap_devices {c c' : Pcb} {regs regs' : ScRegs} {r : Int}
    (h : c.sysMemmap regs = .ok (r, regs', c')) (x : Nat) :
    (c'.mram.storage x = c.mram.storage x ∨ (MemOp.memmap regs).RawWrite x) ∧
      (c'.activeMswp.storage x = c.activeMswp.storage x ∨ (MemOp.memmap regs).RawCopy x) := by
  cases sysMemmap_cases h with
  | inc hop hinc =>
      obtain ⟨hram, hswap⟩ := hinc.devices
      rw [hram, hswap]
      exact ⟨.inl rfl, .inl rfl⟩
  | swp hop hkept =>
      refine ⟨.inl rfl, ?_⟩
      by_cases hx : Memphy.CellOf regs.a3 x
      · exact .inr ⟨hop, hx⟩
      · exact .inl (hkept x hx)
  | ioWrite hop =>
      refine ⟨?_, .inl rfl⟩
      rcases eq_or_ne x regs.a2.toNat with hx | hx
      · exact .inr ⟨hop, hx⟩
      · exact .inl (Function.update_of_ne hx _ _)
  | same => exact ⟨.inl rfl, .inl rfl⟩

end Pcb

/-- **What an operation does to RAM**: a byte changes only by a raw write to it or by a write to the
page in its frame. -/
theorem MemOp.ram_cases {c c' : Pcb} {op : MemOp} (h : op.exec c = .ok c') (x : Nat) :
    c'.mram.storage x = c.mram.storage x ∨ op.RawWrite x ∨
      ∃ p ∈ op.writtenPage c, x / 256 = pagingFpn (c'.mm.pgd p) ∧
        (swappedOut (c.mm.pgd p) = true ∨ resident (c'.mm.pgd p) = true) := by
  cases exec_cases h with
  | alloc hcall => exact .inl (by rw [(Pcb.liballoc_devices hcall).1])
  | free hcall => exact .inl (by rw [(Pcb.libfree_cases hcall).mram])
  | read hcall =>
      rcases Pcb.libread_cases hcall with rfl | ⟨i, r', data, -, hget⟩
      · exact .inl rfl
      · exact .inl (by rw [Pcb.pgGetval_ram hget])
  | @write data destination offset r c' hcall =>
      rcases Pcb.libwrite_cases hcall with rfl | ⟨i, r', hi, hset⟩
      · exact .inl rfl
      · exact (Pcb.pgSetval_ram hset x).imp_right fun hx => .inr ⟨_, c.regionPage_eq offset hi, hx⟩
  | memmap hcall => exact (Pcb.sysMemmap_devices hcall x).1.imp_right .inl
  | setval hcall => exact (Pcb.pgSetval_ram hcall x).imp_right fun hx => .inr ⟨_, rfl, hx⟩
  | getval hcall => exact .inl (by rw [Pcb.pgGetval_ram hcall])

/-- **What an operation does to swap**: a byte changes only by a raw copy to its frame or in a
fault, and there only in a frame that was free or has the number of the victim's frame. -/
theorem MemOp.swap_cases {c c' : Pcb} {op : MemOp} (h : op.exec c = .ok c') (x : Nat) :
    c'.activeMswp.storage x = c.activeMswp.storage x ∨ op.RawCopy x ∨
      (∃ s ∈ c.activeMswp.freeFpList, Memphy.CellOf (BitVec.ofNat 32 s) x) ∨
      op.EvictsFrame c (x / 256) := by
  -- All accesses change swap in the same way, by fetching their page.
  have hfetch : ∀ {p r fpn c₁}, c.pgGetpage p = .ok (r, fpn, c₁) → p ∈ op.fetchedPage c →
      c₁.activeMswp.storage x = c.activeMswp.storage x ∨ op.RawCopy x ∨
        (∃ s ∈ c.activeMswp.freeFpList, Memphy.CellOf (BitVec.ofNat 32 s) x) ∨
        op.EvictsFrame c (x / 256) := fun hpage hp =>
    (Pcb.pgGetpage_swap hpage x).imp_right fun hx =>
      .inr (hx.imp_right fun ⟨habsent, hv⟩ => ⟨⟨_, hp, habsent⟩, hv⟩)
  cases exec_cases h with
  | alloc hcall => exact .inl (by rw [(Pcb.liballoc_devices hcall).2])
  | free hcall => exact .inl (by rw [(Pcb.libfree_cases hcall).activeMswp])
  | @read source offset r destination c' hcall =>
      rcases Pcb.libread_cases hcall with rfl | ⟨i, r', data, hi, hget⟩
      · exact .inl rfl
      · obtain ⟨fpn, hpage⟩ := Pcb.pgGetval_cases hget
        exact hfetch hpage (c.regionPage_eq offset hi)
  | @write data destination offset r c' hcall =>
      rcases Pcb.libwrite_cases hcall with rfl | ⟨i, r', hi, hset⟩
      · exact .inl rfl
      · obtain ⟨fpn, c₂, hpage, hswap⟩ := Pcb.pgSetval_swap hset
        rw [hswap]
        exact hfetch hpage (c.regionPage_eq offset hi)
  | memmap hcall => exact (Pcb.sysMemmap_devices hcall x).2.imp_right .inl
  | setval hcall =>
      obtain ⟨fpn, c₂, hpage, hswap⟩ := Pcb.pgSetval_swap hcall
      rw [hswap]
      exact hfetch hpage rfl
  | getval hcall =>
      obtain ⟨fpn, hpage⟩ := Pcb.pgGetval_cases hcall
      exact hfetch hpage rfl

/-- An operation that writes to a page does not make the heap grow. -/
theorem MemOp.mapsNewPages_of_writtenPage {c : Pcb} {op : MemOp} {p : Pgn}
    (h : p ∈ op.writtenPage c) : MapsNewPages c op := by
  cases op with
  | write | setval => trivial
  | alloc | free | read | memmap | getval => cases h

/-! ## Isolation -/

section system

variable {ι : Type} [DecidableEq ι] [Fintype ι]

/-- The frames of another process keep their bytes. -/
theorem Accounted.ram_isolated {F : Multiset Nat} (hF : F.Nodup) (hlt : ∀ f ∈ F, f < 2 ^ 13)
    {s s' : MemSystem ι} {a : ι × MemOp} (hs : Accounted F s) (hstep : MemSystem.Step s a s')
    (hevicted : ¬ a.2.WritesEvicted (s.pcb a.1)) {j : ι} (hj : j ≠ a.1) {q : Pgn}
    (hq : resident ((s.mm j).pgd q) = true) {x : Nat} (hx : x / 256 = pagingFpn ((s.mm j).pgd q))
    (hraw : ¬ a.2.RawWrite x) : s'.mram.storage x = s.mram.storage x := by
  obtain ⟨c', hexec, rfl⟩ := MemSystem.step_cases hstep
  rcases MemOp.ram_cases hexec x with hkept | hwrite | ⟨p, hp, hframe, hres⟩
  · exact hkept
  · exact absurd hwrite hraw
  · -- The written page would share its frame with the page of the other process.
    have hs' := hs.step hlt (MemOp.mapsNewPages_of_writtenPage hp) hstep
    have hres' : resident (((s.withPcb a.1 c').mm a.1).pgd p) = true := by
      rw [MemSystem.withPcb_mm_self]
      exact hres.resolve_left fun hswapped => hevicted ⟨p, hp, hswapped⟩
    have hother : (s.withPcb a.1 c').mm j = s.mm j := MemSystem.withPcb_mm_of_ne s hj c'
    refine absurd (hs'.page_unique hF (hother ▸ hq) hres' ?_).1 hj
    rw [hother, ← hx, MemSystem.withPcb_mm_self, hframe]

/-- The swap frames of another process keep their bytes. -/
theorem SwapKept.swap_isolated {F : Multiset Nat} (hF : F.Nodup) (hlt : ∀ f ∈ F, f < 2 ^ 21)
    {s s' : MemSystem ι} {a : ι × MemOp} (hs : SwapKept F s) (hstep : MemSystem.Step s a s')
    {j : ι} {q : Pgn} (hq : swappedOut ((s.mm j).pgd q) = true)
    (hevicts : ¬ a.2.EvictsFrame (s.pcb a.1) (pagingPteSwp ((s.mm j).pgd q))) {x : Nat}
    (hx : x / 256 = pagingPteSwp ((s.mm j).pgd q)) (hraw : ¬ a.2.RawCopy x) :
    s'.activeMswp.storage x = s.activeMswp.storage x := by
  obtain ⟨c', hexec, rfl⟩ := MemSystem.step_cases hstep
  rcases MemOp.swap_cases hexec x with hkept | hcopy | ⟨f, hf, hcell⟩ | hfault
  · exact hkept
  · exact absurd hcopy hraw
  · -- The frame the fault takes is free, and the frame of the other process is not.
    have hfF : f ∈ F := Multiset.mem_of_le hs (Multiset.mem_add.mpr (.inl (Multiset.mem_coe.mpr hf)))
    have hsmall := hlt f hfF
    have hframe := (Memphy.cellOf_iff (by omega)).mp hcell
    refine absurd ?_ (hs.not_free hF hq)
    rw [← hx, hframe]
    exact hf
  · exact absurd (hx ▸ hfault) hevicts

/-- **Process isolation.** In every state reached from unmapped pages by operations that map new
pages only, an instruction changes nothing in the address space of another process; no byte of a
frame that a resident page of another process maps, if it writes to no evicted page and is no raw
write to this byte; and no byte of a swap frame that an evicted page of another process names, if no
fault of it evicts from the frame with this number and it is no raw copy to the frame. -/
theorem process_isolation {s₀ s : MemSystem ι} {as : List (ι × MemOp)}
    (hinit : Unmapped (↑s₀.mram.freeFpList) s₀) (hramNodup : s₀.mram.freeFpList.Nodup)
    (hramLt : ∀ f ∈ s₀.mram.freeFpList, f < 2 ^ 13) (hswapNodup : s₀.activeMswp.freeFpList.Nodup)
    (hswapLt : ∀ f ∈ s₀.activeMswp.freeFpList, f < 2 ^ 21)
    (hrun : Steps (Steps.Meeting GrowsNew MemSystem.Step) s₀ as s) (i : ι) (ins : Inst) :
    ∀ op ∈ MemOp.ofInst ins, ∀ s', MemSystem.Step s (i, op) s' → ∀ j ≠ i,
      s'.mm j = s.mm j ∧
      (¬ op.WritesEvicted (s.pcb i) → ∀ q, resident ((s.mm j).pgd q) = true →
        ∀ x, x / 256 = pagingFpn ((s.mm j).pgd q) → ¬ op.RawWrite x →
          s'.mram.storage x = s.mram.storage x) ∧
      ∀ q, swappedOut ((s.mm j).pgd q) = true →
        ¬ op.EvictsFrame (s.pcb i) (pagingPteSwp ((s.mm j).pgd q)) →
        ∀ x, x / 256 = pagingPteSwp ((s.mm j).pgd q) → ¬ op.RawCopy x →
          s'.activeMswp.storage x = s.activeMswp.storage x := by
  have hram : ∀ f ∈ (↑s₀.mram.freeFpList : Multiset Nat), f < 2 ^ 13 := fun f hf =>
    hramLt f (Multiset.mem_coe.mp hf)
  have hswap : ∀ f ∈ (↑s₀.activeMswp.freeFpList : Multiset Nat), f < 2 ^ 21 := fun f hf =>
    hswapLt f (Multiset.mem_coe.mp hf)
  have hs := accounted_of_run hram hinit hrun
  have hkept := swapKept_of_run hinit hswapLt hrun
  intro op _ s' hstep j hj
  refine ⟨?_, fun hevicted q hq x hx hraw => ?_, fun q hq hevicts x hx hraw => ?_⟩
  · obtain ⟨c', -, rfl⟩ := MemSystem.step_cases hstep
    exact MemSystem.withPcb_mm_of_ne s hj c'
  · exact hs.ram_isolated (Multiset.coe_nodup.mpr hramNodup) hram hstep hevicted hj hq hx hraw
  · exact hkept.swap_isolated (Multiset.coe_nodup.mpr hswapNodup) hswap hstep hq hevicts hx hraw

end system

theorem unmapped_twoProcesses : Unmapped (↑twoProcesses.mram.freeFpList) twoProcesses where
  free_eq := rfl
  absent := fun _ _ => pagingPagePresent_zero
  fifo_nil := fun _ => rfl

/-- Both processes have a page, and one of them writes to its own. -/
theorem process_isolation_write :
    ∃ s s', Steps (Steps.Meeting GrowsNew MemSystem.Step) twoProcesses
        [(false, .alloc 256 0), (true, .alloc 256 0)] s ∧
      MemSystem.Step s (true, .write 7 0 5) s' ∧
      resident ((s.mm false).pgd (pagingPgn 0)) = true ∧
      ∀ x, x / 256 = pagingFpn ((s.mm false).pgd (pagingPgn 0)) →
        s'.mram.storage x = s.mram.storage x := by
  have hcheck : (Steps.exec MemSystem.tryStep twoProcesses
      [(false, .alloc 256 0), (true, .alloc 256 0)]).any (fun s =>
        (s.tryStep (true, .write 7 0 5)).isSome &&
          decide (resident ((s.mm false).pgd (pagingPgn 0)) = true ∧
            (MemOp.write 7 0 5).writtenPage (s.pcb true) = some (pagingPgn 5) ∧
            swappedOut ((s.mm true).pgd (pagingPgn 5)) = false)) = true := by
    decide +kernel
  obtain ⟨s, hs, hfacts⟩ := (Option.any_eq_true _ _).mp hcheck
  obtain ⟨hsome, hpages⟩ := Bool.and_eq_true_iff.mp hfacts
  obtain ⟨s', hs'⟩ := Option.isSome_iff_exists.mp hsome
  obtain ⟨hres, hwritten, hswapped⟩ := of_decide_eq_true hpages
  -- Each process maps its first pages.
  obtain ⟨s₁, hs₁, hrest⟩ := Option.bind_eq_some_iff.mp hs
  obtain ⟨s₂, hs₂, hend⟩ := Option.bind_eq_some_iff.mp hrest
  cases hend
  have hstep₁ := MemSystem.step_of_tryStep hs₁
  have hnew₂ : GrowsNew s₁ (true, .alloc 256 0) := growsNew_of_absent fun p => by
    obtain ⟨c', -, rfl⟩ := MemSystem.step_cases hstep₁
    exact resident_zero
  have hrun : Steps (Steps.Meeting GrowsNew MemSystem.Step) twoProcesses
      [(false, .alloc 256 0), (true, .alloc 256 0)] s :=
    .cons ⟨growsNew_of_absent fun _ => resident_zero, hstep₁⟩
      (.cons ⟨hnew₂, MemSystem.step_of_tryStep hs₂⟩ (.nil s))
  have hstep := MemSystem.step_of_tryStep hs'
  have hisolated := process_isolation unmapped_twoProcesses (by decide) (by decide) (by decide)
    (by decide) hrun true ⟨.write, 7, 0, 5, 0⟩ _ rfl s' hstep false (by decide)
  refine ⟨s, s', hrun, hstep, hres, fun x hx => hisolated.2.1 ?_ _ hres x hx id⟩
  rintro ⟨p, hp, hevicted⟩
  obtain rfl : pagingPgn 5 = p := Option.some.inj (hwritten.symm.trans hp)
  rw [show ((s.pcb true).mm.pgd (pagingPgn 5)) = (s.mm true).pgd (pagingPgn 5) from rfl, hswapped]
    at hevicted
  cases hevicted

/-- One system call of a process without any memory changes a byte of another one. -/
theorem raw_write_to_other_process :
    ∃ s s' op, Steps MemSystem.Step twoProcesses [(true, .alloc 256 0)] s ∧
      MemOp.ofInst ⟨.syscall, 17, 5, 0, 99⟩ = some op ∧ MemSystem.Step s (false, op) s' ∧
      resident ((s.mm true).pgd (pagingPgn 0)) = true ∧
      0 / 256 = pagingFpn ((s.mm true).pgd (pagingPgn 0)) ∧
      s'.mram.storage 0 ≠ s.mram.storage 0 := by
  have hcheck : (Steps.exec MemSystem.tryStep twoProcesses [(true, .alloc 256 0)]).any (fun s =>
      (s.tryStep (false, .memmap ⟨5, 0, 99⟩)).any (fun s' => decide
        (resident ((s.mm true).pgd (pagingPgn 0)) = true ∧
          0 / 256 = pagingFpn ((s.mm true).pgd (pagingPgn 0)) ∧
          s'.mram.storage 0 ≠ s.mram.storage 0))) = true := by
    decide +kernel
  obtain ⟨s, hs, hnext⟩ := (Option.any_eq_true _ _).mp hcheck
  obtain ⟨s', hs', hfacts⟩ := (Option.any_eq_true _ _).mp hnext
  exact ⟨s, s', _, MemSystem.steps_of_exec hs, rfl, MemSystem.step_of_tryStep hs',
    of_decide_eq_true hfacts⟩

end Ossim.Mm
