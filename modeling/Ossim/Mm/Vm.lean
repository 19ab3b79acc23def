import Ossim.Mm.Paging

/-!
# Areas and the memmap system call (`mm-vm.c`, `sys_mem.c`)

`inc_vma_limit` moves the end of an area and maps the pages in between to free RAM frames. It is
reached only through `__sys_memmap`, the handler of system call 17, which also offers the raw
operations on frames and bytes; a program can make this call with any arguments.

`IncStep` lists what `inc_vma_limit` can do, and `MemmapStep` what a call can do. The lemmas
`sysMemmap_inc` and so on reduce a call with a known operation to that operation.
-/

namespace Ossim.Mm

/-- `PAGING_PAGE_ALIGNSZ`, on an `int`. -/
def pagingPageAlignsz (sz : BitVec 32) : BitVec 32 :=
  (sz + BitVec.ofNat 32 pagingPagesz - 1).sdiv (BitVec.ofNat 32 pagingPagesz) *
    BitVec.ofNat 32 pagingPagesz

namespace MmStruct

/-- The loop of `get_vma_by_num`; the list is what is left of the areas, from number `k` on. It
follows the link of the last area without a check. -/
def seekVma (vmaid : BitVec 32) (k : Nat) : List VmArea → Exec (Option (Nat × VmArea))
  | [] => .error .nullDeref
  | pvma :: rest =>
    if (pvma.vmId.setWidth 32).toInt < vmaid.toInt then seekVma vmaid (k + 1) rest
    else .ok (some (k, pvma))

/-- `get_vma_by_num`. The pointer it returns is a place in the list with what is there. -/
def getVmaByNum (mm : MmStruct) (vmaid : BitVec 32) : Exec (Option (Nat × VmArea)) :=
  if mm.mmap = [] then .ok none else seekVma vmaid 0 mm.mmap

/-- Replace the area at place `k`. -/
def setVma (mm : MmStruct) (k : Nat) (area : VmArea) : MmStruct :=
  { mm with mmap := mm.mmap.set k area }

/-- `get_vm_area_node_at_brk`. -/
def getVmAreaNodeAtBrk (mm : MmStruct) (vmaid alignedsz : BitVec 32) : Exec VmRg := do
  let (_, curVma) ← deref (← mm.getVmaByNum vmaid)
  return ⟨curVma.sbrk, curVma.sbrk + alignedsz.signExtend 64⟩

/-- `validate_overlap_vm_area`. -/
def validateOverlapVmArea (mm : MmStruct) (vmastart vmaend : BitVec 32) : Int :=
  if mm.mmap.any fun vma =>
      !(decide (vma.vmEnd ≤ vmastart.signExtend 64) || decide (vmaend.signExtend 64 ≤ vma.vmStart))
  then -1 else 0

@[simp] theorem setVma_pgd (mm : MmStruct) (k : Nat) (area : VmArea) :
    (mm.setVma k area).pgd = mm.pgd := rfl

@[simp] theorem setVma_symrgtbl (mm : MmStruct) (k : Nat) (area : VmArea) :
    (mm.setVma k area).symrgtbl = mm.symrgtbl := rfl

@[simp] theorem setVma_fifoPgn (mm : MmStruct) (k : Nat) (area : VmArea) :
    (mm.setVma k area).fifoPgn = mm.fifoPgn := rfl

end MmStruct

/-- The number of pages `inc_vma_limit` maps. -/
def incNumPage (incSz : BitVec 32) : BitVec 32 :=
  (pagingPageAlignsz incSz).sdiv (BitVec.ofNat 32 pagingPagesz)

/-! ## C integers -/

/-- Below 2^31 an `int` is not changed by the conversion to `unsigned long`. -/
theorem toNat_signExtend {x : BitVec 32} (h : x.toNat < 2 ^ 31) :
    (x.signExtend 64).toNat = x.toNat := by
  have hmsb : x.msb = false := BitVec.msb_eq_false_iff_two_mul_lt.mpr (by omega)
  rw [BitVec.signExtend_eq_setWidth_of_msb_false hmsb, BitVec.toNat_setWidth]
  omega

/-- A number survives a sign extension that is cut off again. -/
theorem setWidth_signExtend {w v : Nat} (h : w ≤ v) (x : BitVec w) :
    (x.signExtend v).setWidth w = x := by
  ext i hi
  have hv : i < v := Nat.lt_of_lt_of_le hi h
  rw [BitVec.getElem_setWidth, BitVec.getLsbD_eq_getElem hv, BitVec.getElem_signExtend hv,
    dif_pos hi]

/-- Sign extension does not make a number smaller. -/
theorem le_toNat_signExtend (x : BitVec 32) : x.toNat ≤ (x.signExtend 64).toNat := by
  calc x.toNat = ((x.signExtend 64).setWidth 32).toNat := by
        rw [setWidth_signExtend (by decide)]
    _ ≤ (x.signExtend 64).toNat := by
        rw [BitVec.toNat_setWidth]
        exact Nat.mod_le _ _

theorem toNat_sdiv_pagesz {x : BitVec 32} (h : x.toNat < 2 ^ 31) :
    (x.sdiv (BitVec.ofNat 32 pagingPagesz)).toNat = x.toNat / 256 := by
  have hmsb : x.msb = false := BitVec.msb_eq_false_iff_two_mul_lt.mpr (by omega)
  have hmsb' : (BitVec.ofNat 32 pagingPagesz).msb = false := by decide
  rw [BitVec.sdiv_eq, hmsb, hmsb']
  simp [pagingPagesz]

/-- Below the sizes whose rounding overflows, aligning rounds up to a multiple of the page size. -/
theorem toNat_pagingPageAlignsz {sz : BitVec 32} (h : sz.toNat < 2 ^ 31 - 255) :
    (pagingPageAlignsz sz).toNat = (sz.toNat + 255) / 256 * 256 := by
  have hsum : (sz + BitVec.ofNat 32 pagingPagesz - 1).toNat = sz.toNat + 255 := by
    simp [BitVec.toNat_sub, BitVec.toNat_add, pagingPagesz]
    omega
  unfold pagingPageAlignsz
  rw [BitVec.toNat_mul, toNat_sdiv_pagesz (by omega), hsum]
  simp only [pagingPagesz, BitVec.toNat_ofNat]
  omega

theorem toNat_incNumPage {sz : BitVec 32} (h : sz.toNat < 2 ^ 31 - 255) :
    (incNumPage sz).toInt.toNat = (sz.toNat + 255) / 256 := by
  have hsz := toNat_pagingPageAlignsz h
  have hdiv : (incNumPage sz).toNat = (sz.toNat + 255) / 256 := by
    unfold incNumPage
    rw [toNat_sdiv_pagesz (by omega), hsz]
    omega
  rw [BitVec.toInt_eq_toNat_of_lt (by omega), hdiv]
  rfl

/-! ## The operations -/

/-- `struct sc_regs`, the three argument registers. -/
structure ScRegs where
  a1 : BitVec 32
  a2 : BitVec 32
  a3 : BitVec 32
  deriving DecidableEq

/-- `SYSMEM_INC_OP`. -/
def sysmemIncOp : BitVec 32 := 2

/-- `SYSMEM_SWP_OP`. -/
def sysmemSwpOp : BitVec 32 := 3

/-- `SYSMEM_IO_READ`. -/
def sysmemIoRead : BitVec 32 := 4

/-- `SYSMEM_IO_WRITE`. -/
def sysmemIoWrite : BitVec 32 := 5

namespace Pcb

/-- `inc_vma_limit`. -/
def incVmaLimit (c : Pcb) (vmaid incSz : BitVec 32) : Exec (Int × Pcb) := do
  let incAmt := pagingPageAlignsz incSz
  let area ← c.mm.getVmAreaNodeAtBrk vmaid incAmt
  let (k, curVma) ← deref (← c.mm.getVmaByNum vmaid)
  let oldEnd := curVma.vmEnd.setWidth 32
  if c.mm.validateOverlapVmArea (area.rgStart.setWidth 32) (area.rgEnd.setWidth 32) < 0 then
    return (-1, c)
  else do
    let mm := c.mm.setVma k { curVma with vmEnd := area.rgEnd, sbrk := area.rgEnd }
    let (ret, c) ← { c with mm := mm }.vmMapRam oldEnd (incNumPage incSz)
    if ret < 0 then return (-1, c) else return (0, c)

/-- `__sys_memmap`, which is `syscall(caller, 17, regs)`. Operation 1 and the unknown ones do
nothing. -/
def sysMemmap (c : Pcb) (regs : ScRegs) : Exec (Int × ScRegs × Pcb) :=
  if regs.a1 = sysmemIncOp then do
    let (_, c) ← c.incVmaLimit regs.a2 regs.a3
    return (0, regs, c)
  else if regs.a1 = sysmemSwpOp then do
    let (mram, activeMswp) ← c.mram.swapCpPage regs.a2 c.activeMswp regs.a3
    return (0, regs, { c with mram := mram, activeMswp := activeMswp })
  else if regs.a1 = sysmemIoRead then do
    let (value, mram) ← c.mram.read regs.a2
    let value ← assigned value
    return (0, { regs with a3 := value.signExtend 32 }, { c with mram := mram })
  else if regs.a1 = sysmemIoWrite then do
    let (_, mram) ← c.mram.write regs.a2 (regs.a3.setWidth 8)
    return (0, regs, { c with mram := mram })
  else .ok (0, regs, c)

/-! ## What the operations can do -/

/-- What `inc_vma_limit` can do: refuse, or move the end of the area and map the pages from its old
end on. -/
inductive IncStep (c : Pcb) (vmaid incSz : BitVec 32) : Pcb → Prop
  | refused : IncStep c vmaid incSz c
  | grown {k : Nat} {curVma : VmArea} {newEnd : BitVec 64} {taken rest : List Nat}
      {pgd' : Pgn → Pte} {fifo' : List Pgn}
      (hvma : c.mm.getVmaByNum vmaid = .ok (some (k, curVma)))
      (hend : newEnd = curVma.sbrk + (pagingPageAlignsz incSz).signExtend 64)
      (hfree : c.mram.freeFpList = taken ++ rest)
      (hlen : taken.length = (incNumPage incSz).toInt.toNat)
      (hmapped : Mapped c.mm.pgd c.mm.fifoPgn (pagingPgn (curVma.vmEnd.setWidth 32)) taken.reverse
        pgd' fifo') :
      IncStep c vmaid incSz
        { c with
          mm :=
            { c.mm.setVma k { curVma with vmEnd := newEnd, sbrk := newEnd } with
              pgd := pgd'
              fifoPgn := fifo' }
          mram := { c.mram with freeFpList := rest } }

theorem incVmaLimit_cases {c c' : Pcb} {vmaid incSz : BitVec 32} {r : Int}
    (h : c.incVmaLimit vmaid incSz = .ok (r, c')) : IncStep c vmaid incSz c' := by
  obtain ⟨area, harea, hlookup⟩ := Exec.bind_eq_ok.mp h
  obtain ⟨pvma, hvma, hfollow⟩ := Exec.bind_eq_ok.mp hlookup
  obtain ⟨⟨k, curVma⟩, hderef, hbody⟩ := Exec.bind_eq_ok.mp hfollow
  cases pvma with
  | none => cases hderef
  | some x =>
      cases hderef
      -- The region at the break belongs to the same area.
      have hnode : area = ⟨curVma.sbrk, curVma.sbrk + (pagingPageAlignsz incSz).signExtend 64⟩ := by
        unfold MmStruct.getVmAreaNodeAtBrk at harea
        simp only [hvma, deref, bind, Except.bind] at harea
        cases harea
        rfl
      subst hnode
      simp only at hbody
      split at hbody
      · cases hbody
        exact .refused
      · obtain ⟨⟨ret, c₁⟩, hmap, hret⟩ := Exec.bind_eq_ok.mp hbody
        obtain ⟨taken, rest, pgd', fifo', rfl, hfree, hlen, hmapped, rfl⟩ := vmMapRam_cases hmap
        cases hret
        exact .grown hvma rfl hfree hlen hmapped

/-- What a call can do: extend an area, copy to a frame of swap, write a byte of RAM, or nothing. -/
inductive MemmapStep (c : Pcb) (regs : ScRegs) : Pcb → Prop
  | inc {c' : Pcb} (hop : regs.a1 = sysmemIncOp) (hinc : IncStep c regs.a2 regs.a3 c') :
      MemmapStep c regs c'
  | swp {storage : Nat → Byte} (hop : regs.a1 = sysmemSwpOp)
      (hkept : ∀ x, ¬ Memphy.CellOf regs.a3 x → storage x = c.activeMswp.storage x) :
      MemmapStep c regs { c with activeMswp := { c.activeMswp with storage := storage } }
  | ioWrite (hop : regs.a1 = sysmemIoWrite) :
      MemmapStep c regs { c with mram := c.mram.setByte regs.a2.toNat (regs.a3.setWidth 8) }
  | same : MemmapStep c regs c

theorem sysMemmap_cases {c c' : Pcb} {regs regs' : ScRegs} {r : Int}
    (h : c.sysMemmap regs = .ok (r, regs', c')) : MemmapStep c regs c' := by
  unfold sysMemmap at h
  split at h
  · next hop =>
    obtain ⟨⟨r', c₁⟩, hinc, hret⟩ := Exec.bind_eq_ok.mp h
    cases hret
    exact .inc hop (incVmaLimit_cases hinc)
  · split at h
    · next hop =>
      obtain ⟨⟨mram, mswp⟩, hcopy, hret⟩ := Exec.bind_eq_ok.mp h
      obtain ⟨rfl, storage, rfl, hkept⟩ := Memphy.swapCpPage_cases hcopy
      cases hret
      exact .swp hop hkept
    · split at h
      · obtain ⟨⟨value, mram⟩, hread, hassign⟩ := Exec.bind_eq_ok.mp h
        obtain ⟨v, -, hret⟩ := Exec.bind_eq_ok.mp hassign
        obtain rfl := Memphy.read_cases hread
        cases hret
        exact .same
      · split at h
        · next hop =>
          obtain ⟨⟨r', mram⟩, hwrite, hret⟩ := Exec.bind_eq_ok.mp h
          cases hret
          rcases Memphy.write_cases hwrite with ⟨rfl, -⟩ | rfl
          · exact .ioWrite hop
          · exact .same
        · cases h
          exact .same

theorem sysMemmap_inc (c : Pcb) (a2 a3 : BitVec 32) :
    c.sysMemmap ⟨sysmemIncOp, a2, a3⟩ = (do
      let (_, c) ← c.incVmaLimit a2 a3
      return (0, ⟨sysmemIncOp, a2, a3⟩, c)) := rfl

theorem sysMemmap_swp (c : Pcb) (a2 a3 : BitVec 32) :
    c.sysMemmap ⟨sysmemSwpOp, a2, a3⟩ = (do
      let (mram, activeMswp) ← c.mram.swapCpPage a2 c.activeMswp a3
      return (0, ⟨sysmemSwpOp, a2, a3⟩, { c with mram := mram, activeMswp := activeMswp })) := rfl

theorem sysMemmap_ioRead (c : Pcb) (a2 a3 : BitVec 32) :
    c.sysMemmap ⟨sysmemIoRead, a2, a3⟩ = (do
      let (value, mram) ← c.mram.read a2
      let value ← assigned value
      return (0, ⟨sysmemIoRead, a2, value.signExtend 32⟩, { c with mram := mram })) := rfl

theorem sysMemmap_ioWrite (c : Pcb) (a2 a3 : BitVec 32) :
    c.sysMemmap ⟨sysmemIoWrite, a2, a3⟩ = (do
      let (_, mram) ← c.mram.write a2 (a3.setWidth 8)
      return (0, ⟨sysmemIoWrite, a2, a3⟩, { c with mram := mram })) := rfl

end Pcb

end Ossim.Mm
