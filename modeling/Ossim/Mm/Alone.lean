import Mathlib.Algebra.BigOperators.Group.Finset.Piecewise
import Mathlib.Data.Fintype.Fin
import Ossim.Library.Interleaving
import Ossim.Mm.Protection

/-!
# A process alone with its memory

`Alone` is what a process can tell of its memory: its area with the free regions, its regions, and
the bytes it has written. There are no frames in it, no page table and no other process. `Alone.exec`
is a memory operation on it, and fails where the operation leaves what the process has been given.

The system with its shared devices carries out what the processes would do alone, in whatever order
their operations come one after another, as long as RAM has as many frames as the heaps have pages
together (`runs_as_alone`).
-/

namespace Ossim.Mm

/-- What a process can tell of its memory. -/
structure Alone where
  area : VmArea
  symrgtbl : Rgid → VmRg
  /-- What was last written to an address. -/
  cells : BitVec 32 → Option Byte

namespace Alone

/-- The pages of the heap. -/
def pages (v : Alone) : Nat := v.area.vmEnd.toNat / 256

/-- The address of an offset in a region, if there is a region with the number. -/
def regionAddr (v : Alone) (rgid offset : BitVec 32) : Option (BitVec 32) :=
  if h : rgid.toNat < pagingMaxSymtblSz then
    some (((v.symrgtbl ⟨rgid.toNat, h⟩).rgStart + offset.signExtend 64).setWidth 32)
  else none

/-- `liballoc`: carve a free region, or extend the heap by whole pages. -/
def alloc (v : Alone) (size regIndex : BitVec 32) : Option Alone :=
  if h : 1 ≤ size.toNat ∧ size.toNat < 2 ^ 31 - 255 ∧ regIndex.toNat < pagingMaxSymtblSz then
    match bestFit (size.signExtend 64) 0 none v.area.vmFreergList with
    | some (j, best) =>
      let rgEnd := best.rgStart + size.signExtend 64
      some { v with
        area := { v.area with
          vmFreergList := v.area.vmFreergList.set j { best with rgStart := rgEnd } }
        symrgtbl := Function.update v.symrgtbl ⟨regIndex.toNat, h.2.2⟩ ⟨best.rgStart, rgEnd⟩ }
    | none =>
      if v.area.vmEnd.toNat + 256 * pagesOf size ≤ 2 ^ 22 then
        let rgEnd := v.area.vmEnd + size.signExtend 64
        let newEnd := v.area.vmEnd + BitVec.ofNat 64 (256 * pagesOf size)
        some { v with
          area := { v.area with
            vmEnd := newEnd
            sbrk := newEnd
            vmFreergList := slack rgEnd newEnd ++ v.area.vmFreergList }
          symrgtbl := Function.update v.symrgtbl ⟨regIndex.toNat, h.2.2⟩ ⟨v.area.vmEnd, rgEnd⟩ }
      else none
  else none

/-- `libfree`: merge a region that is not empty into the free ones. -/
def free (v : Alone) (regIndex : BitVec 32) : Alone :=
  if h : regIndex.toNat < pagingMaxSymtblSz then
    let rg := v.symrgtbl ⟨regIndex.toNat, h⟩
    if rg.rgEnd ≤ rg.rgStart then v
    else
      { v with
        area := { v.area with
          vmFreergList :=
            (coalesce rg v.area.vmFreergList).1 :: (coalesce rg v.area.vmFreergList).2 }
        symrgtbl := Function.update v.symrgtbl ⟨regIndex.toNat, h⟩ ⟨0, 0⟩ }
  else v

/-- `pg_setval`, below the end of the heap. -/
def setval (v : Alone) (addr : BitVec 32) (value : Byte) : Option Alone :=
  if addr.toNat < v.area.vmEnd.toNat then
    some { v with cells := Function.update v.cells addr (some value) }
  else none

/-- `pg_getval`, below the end of the heap. -/
def getval (v : Alone) (addr : BitVec 32) : Option Alone :=
  if addr.toNat < v.area.vmEnd.toNat then some v else none

/-- One operation. The raw calls work on frames, and have no meaning here. -/
def exec (v : Alone) : MemOp → Option Alone
  | .alloc size regIndex => v.alloc size regIndex
  | .free regIndex => some (v.free regIndex)
  | .read source offset => (v.regionAddr source offset).bind v.getval
  | .write data destination offset =>
    (v.regionAddr destination offset).bind fun addr => v.setval addr data
  | .setval addr value => v.setval addr value
  | .getval addr => v.getval addr
  | .memmap _ => none

end Alone

/-- The address space holds what the process would have alone: the same area and regions, and the
pages below the end of the heap are mapped. -/
structure MmStruct.Holds (mm : MmStruct) (v : Alone) : Prop extends PagedArea mm v.area where
  symrgtbl_eq : mm.symrgtbl = v.symrgtbl

/-! ## One process -/

namespace Alone

variable {v v' : Alone} {size regIndex : BitVec 32}

/-- What an allocation asks for, and what it does. -/
theorem alloc_cases (h : v.alloc size regIndex = some v') :
    1 ≤ size.toNat ∧ size.toNat < 2 ^ 31 - 255 ∧ ∃ hrg : regIndex.toNat < pagingMaxSymtblSz,
      (∃ j best, bestFit (size.signExtend 64) 0 none v.area.vmFreergList = some (j, best) ∧
        v' = { v with
          area := { v.area with
            vmFreergList :=
              v.area.vmFreergList.set j { best with rgStart := best.rgStart + size.signExtend 64 } }
          symrgtbl := Function.update v.symrgtbl ⟨regIndex.toNat, hrg⟩
            ⟨best.rgStart, best.rgStart + size.signExtend 64⟩ }) ∨
      (NoneFits v.area size ∧ v.area.vmEnd.toNat + 256 * pagesOf size ≤ 2 ^ 22 ∧
        v' = { v with
          area := { v.area with
            vmEnd := v.area.vmEnd + BitVec.ofNat 64 (256 * pagesOf size)
            sbrk := v.area.vmEnd + BitVec.ofNat 64 (256 * pagesOf size)
            vmFreergList :=
              slack (v.area.vmEnd + size.signExtend 64)
                (v.area.vmEnd + BitVec.ofNat 64 (256 * pagesOf size)) ++ v.area.vmFreergList }
          symrgtbl := Function.update v.symrgtbl ⟨regIndex.toNat, hrg⟩
            ⟨v.area.vmEnd, v.area.vmEnd + size.signExtend 64⟩ }) := by
  unfold alloc at h
  split at h
  · next hreq =>
    obtain ⟨hpos, hsz, hrg⟩ := hreq
    refine ⟨hpos, hsz, hrg, ?_⟩
    split at h
    · next j best hbest =>
      cases h
      exact .inl ⟨j, best, hbest, rfl⟩
    · next hbest =>
      split at h
      · next hspace =>
        cases h
        exact .inr ⟨(bestFit_eq_none.mp hbest).2, hspace, rfl⟩
      · cases h
  · cases h

/-- The end of an extended heap. -/
theorem toNat_newEnd (hspace : v.area.vmEnd.toNat + 256 * pagesOf size ≤ 2 ^ 22) :
    (v.area.vmEnd + BitVec.ofNat 64 (256 * pagesOf size)).toNat =
      v.area.vmEnd.toNat + 256 * pagesOf size := by
  rw [BitVec.toNat_add, BitVec.toNat_ofNat]
  omega

end Alone

namespace MmStruct.Holds

variable {c c' : Pcb} {v v' : Alone} {size regIndex : BitVec 32} {r : Int}

theorem of_mmap {mm : MmStruct} (hpaged : ∃ area, PagedArea mm area) (hmmap : mm.mmap = [v.area])
    (hsym : mm.symrgtbl = v.symrgtbl) : mm.Holds v := by
  obtain ⟨area, h⟩ := hpaged
  cases h.mmap_eq.symm.trans hmmap
  exact ⟨h, hsym⟩

/-- A request that can be met alone is admissible, if there are frames for the pages it adds. -/
theorem allocOk (h : c.mm.Holds v) (hv : v.alloc size regIndex = some v')
    (hfree : v'.pages ≤ v.pages + c.mram.freeFpList.length) : AllocOk c size regIndex := by
  obtain ⟨hpos, hsz, hrg, hdone⟩ := Alone.alloc_cases hv
  refine ⟨hpos, hsz, hrg, fun area harea hnone => ?_⟩
  rw [h.mmap_eq, List.mem_singleton] at harea
  subst harea
  rcases hdone with ⟨j, best, hbest, -⟩ | ⟨-, hspace, rfl⟩
  · rw [bestFit_eq_none.mpr ⟨rfl, hnone⟩] at hbest
    cases hbest
  · refine ⟨?_, hspace⟩
    have haligned := h.aligned
    simp only [Alone.pages, Alone.toNat_newEnd hspace] at hfree
    omega

/-- **An allocation does what it would do alone.** -/
theorem liballoc (h : c.mm.Holds v) (hv : v.alloc size regIndex = some v')
    (hok : AllocOk c size regIndex) (hrun : c.liballoc size regIndex = .ok (r, c')) :
    c'.mm.Holds v' := by
  obtain ⟨hpos, hsz, hrg, henough⟩ := hok
  obtain ⟨c₁, hrun₁, hstep⟩ := liballoc_of_heapArea h.toHeapArea hpos hsz hrg
    (henough v.area h.mem_mmap)
  cases hrun.symm.trans hrun₁
  suffices hsame : c'.mm.mmap = [v'.area] ∧ c'.mm.symrgtbl = v'.symrgtbl from
    of_mmap (h.toPagedArea.allocStep hstep) hsame.1 hsame.2
  obtain ⟨-, -, _, ⟨j, best, hbest, rfl⟩ | ⟨hnone, hspace, rfl⟩⟩ := Alone.alloc_cases hv
  · -- both searches find the same free region
    obtain ⟨k, area, hvma, hsearch⟩ := Pcb.alloc_cases (Pcb.alloc_of_liballoc hrun)
    cases hvma.symm.trans h.single.getVmaByNum
    rcases hsearch with ⟨hbest', -⟩ | ⟨j', best', i, hbest', hi, rfl⟩
    · cases hbest.symm.trans hbest'
    · cases hbest'.symm.trans hbest
      obtain rfl : i = ⟨regIndex.toNat, hrg⟩ := Fin.ext (symIndex_eq_ok hi)
      simp only [MmStruct.setSymrg_mmap, MmStruct.setSymrg_symrgtbl, h.single.setVma,
        h.symrgtbl_eq, and_self]
  · cases hstep with
    | @carved pre post best hsplit hfits hfirst hlowest =>
        rw [hnone best (by rw [hsplit]; simp)] at hfits
        cases hfits
    | @extended taken rest pgd' fifo' newEnd hnone' hend hspace' hfree hlen hmapped =>
        obtain rfl : newEnd = v.area.vmEnd + BitVec.ofNat 64 (256 * pagesOf size) :=
          BitVec.eq_of_toNat_eq (hend.trans (Alone.toNat_newEnd hspace).symm)
        exact ⟨rfl, by rw [h.symrgtbl_eq]⟩

/-- **Freeing does what it would do alone.** -/
theorem libfree (h : c.mm.Holds v) (hrun : c.libfree regIndex = .ok (r, c')) :
    c'.mm.Holds (v.free regIndex) := by
  obtain ⟨r₁, c₁, hrun₁, hstep⟩ := libfree_of_heapArea h.toHeapArea regIndex
  cases hrun.symm.trans hrun₁
  have hpaged := h.toPagedArea.freeStep hstep
  have hfree := Pcb.free_of_libfree hrun
  have hlt := regIndex.isLt
  have hrange : regIndex.toInt < 0 ∨ (pagingMaxSymtblSz : Int) ≤ regIndex.toInt ↔
      ¬ regIndex.toNat < pagingMaxSymtblSz := by
    rw [BitVec.toInt_eq_toNat_cond]
    unfold pagingMaxSymtblSz
    split <;> omega
  unfold Pcb.free at hfree
  unfold Alone.free
  by_cases hrg : regIndex.toNat < pagingMaxSymtblSz
  · rw [if_neg (by rw [hrange]; exact not_not.mpr hrg)] at hfree
    simp only [symIndex, dif_pos hrg, h.single.getVmaByNum, deref, bind, Except.bind, pure,
      Except.pure, h.symrgtbl_eq] at hfree
    rw [dif_pos hrg]
    by_cases hempty : (v.symrgtbl ⟨regIndex.toNat, hrg⟩).rgEnd ≤ (v.symrgtbl ⟨regIndex.toNat, hrg⟩).rgStart
    · simp only [hempty, if_true] at hfree ⊢
      cases hfree
      exact h
    · simp only [hempty, if_false, h.single.setVma] at hfree ⊢
      cases hfree
      exact of_mmap hpaged rfl (by rw [MmStruct.setSymrg_symrgtbl, h.symrgtbl_eq])
  · rw [if_pos (hrange.mpr hrg)] at hfree
    cases hfree
    rw [dif_neg hrg]
    exact h

end MmStruct.Holds

/-! ## Accesses through a region -/

namespace Alone

variable {v v' : Alone}

/-- The access to an address that an access through a region is. -/
def direct (v : Alone) : MemOp → MemOp
  | .read source offset => ((v.regionAddr source offset).map .getval).getD (.read source offset)
  | .write data destination offset =>
    ((v.regionAddr destination offset).map fun addr => .setval addr data).getD
      (.write data destination offset)
  | op => op

/-- The access to the address is the same operation. -/
theorem exec_direct {op : MemOp} (h : v.exec op = some v') : v.exec (v.direct op) = some v' := by
  cases op with
  | read source offset =>
      obtain ⟨addr, haddr, hget⟩ := Option.bind_eq_some_iff.mp h
      rw [direct, haddr]
      exact hget
  | write data destination offset =>
      obtain ⟨addr, haddr, hset⟩ := Option.bind_eq_some_iff.mp h
      rw [direct, haddr]
      exact hset
  | alloc | free | setval | getval | memmap => exact h

theorem setval_cases {addr : BitVec 32} {value : Byte} (h : v.setval addr value = some v') :
    addr.toNat < v.area.vmEnd.toNat ∧
      v' = { v with cells := Function.update v.cells addr (some value) } := by
  unfold setval at h
  split at h
  · next haddr => exact ⟨haddr, (Option.some.inj h).symm⟩
  · cases h

theorem getval_cases {addr : BitVec 32} (h : v.getval addr = some v') :
    addr.toNat < v.area.vmEnd.toNat ∧ v' = v := by
  unfold getval at h
  split at h
  · next haddr => exact ⟨haddr, (Option.some.inj h).symm⟩
  · cases h

end Alone

/-- On an address space that holds it, the two are the same. -/
theorem MmStruct.Holds.exec_direct {c : Pcb} {v v' : Alone} (h : c.mm.Holds v)
    (hrdm : c.mram.rdmflg = true)
    (hframes : ∀ p, resident (c.mm.pgd p) = true → c.mram.HasFrame (pagingFpn (c.mm.pgd p)))
    {op : MemOp} (hv : v.exec op = some v') : op.exec c = (v.direct op).exec c := by
  have hregion : ∀ {rgid offset addr : BitVec 32}, v.regionAddr rgid offset = some addr →
      ∃ i : Rgid, rgid = BitVec.ofNat 32 i ∧ addr = c.mm.regionAddr i offset := by
    intro rgid offset addr haddr
    unfold Alone.regionAddr at haddr
    split at haddr
    · next hrg =>
      refine ⟨⟨rgid.toNat, hrg⟩, by simp, ?_⟩
      rw [← Option.some.inj haddr, MmStruct.regionAddr, h.symrgtbl_eq]
    · cases haddr
  cases op with
  | read source offset =>
      obtain ⟨addr, haddr, hget⟩ := Option.bind_eq_some_iff.mp hv
      have hlt := (Alone.getval_cases hget).1
      obtain ⟨i, rfl, rfl⟩ := hregion haddr
      have hgot := Pcb.pgGetval_of_getpage (h.pgGetpage hlt) hrdm
        (hframes _ (h.resident_of_lt hlt).2)
      have hread := Pcb.libread_of_pgGetval h.single.getVmaByNum hgot
      rw [Alone.direct, haddr]
      exact (MemOp.Call.read hread).exec.trans (MemOp.Call.getval hgot).exec.symm
  | write data destination offset =>
      obtain ⟨addr, haddr, hset⟩ := Option.bind_eq_some_iff.mp hv
      have hlt := (Alone.setval_cases hset).1
      obtain ⟨i, rfl, rfl⟩ := hregion haddr
      have hdone := Pcb.pgSetval_of_getpage (h.pgGetpage hlt) hrdm
        (hframes _ (h.resident_of_lt hlt).2) data
      have hwrite := Pcb.libwrite_eq h.single.getVmaByNum i offset data
      rw [hdone] at hwrite
      rw [Alone.direct, haddr]
      exact (MemOp.Call.write hwrite).exec.trans (MemOp.Call.setval hdone).exec.symm
  | alloc | free | setval | getval | memmap => rfl

/-! ## Frames and pages -/

/-- A heap has as many frames as pages. -/
theorem PagedArea.card_residentFrames {mm : MmStruct} {area : VmArea} (h : PagedArea mm area) :
    (residentFrames mm.pgd).card = area.vmEnd.toNat / 256 := by
  have hend := h.end_le
  have haligned := h.aligned
  have hone : ∀ p : Pgn, (frameOf (mm.pgd p)).card = if (p : Nat) < area.vmEnd.toNat / 256 then 1 else 0 := by
    intro p
    have hres := h.resident_iff p
    unfold frameOf
    by_cases hp : (p : Nat) < area.vmEnd.toNat / 256
    · rw [if_pos (hres.mpr (by omega)), if_pos hp]
      rfl
    · rw [if_neg (by rw [hres]; omega), if_neg hp]
      rfl
  unfold residentFrames
  rw [Multiset.card_sum, Finset.sum_congr rfl fun p _ => hone p, ← Finset.card_filter,
    Fin.card_filter_val_lt, pagingMaxPgn_eq]
  omega

/-! ## One operation -/

namespace Alone

variable {v v' : Alone} {op : MemOp}

/-- No operation moves the end of the heap down. -/
theorem vmEnd_le (h : v.exec op = some v') : v.area.vmEnd.toNat ≤ v'.area.vmEnd.toNat := by
  cases op with
  | alloc size regIndex =>
      obtain ⟨-, -, _, ⟨j, best, -, rfl⟩ | ⟨-, hspace, rfl⟩⟩ := alloc_cases h
      · exact le_rfl
      · rw [toNat_newEnd hspace]
        omega
  | free regIndex =>
      cases h
      unfold free
      split
      · dsimp only
        split <;> exact le_rfl
      · exact le_rfl
  | read source offset =>
      obtain ⟨addr, -, hget⟩ := Option.bind_eq_some_iff.mp h
      rw [(getval_cases hget).2]
  | write data destination offset =>
      obtain ⟨addr, -, hset⟩ := Option.bind_eq_some_iff.mp h
      rw [(setval_cases hset).2]
  | setval addr value => rw [(setval_cases h).2]
  | getval addr => rw [(getval_cases h).2]
  | memmap regs => cases h

theorem pages_le (h : v.exec op = some v') : v.pages ≤ v'.pages :=
  Nat.div_le_div_right (vmEnd_le h)

theorem pages_free (v : Alone) (regIndex : BitVec 32) : (v.free regIndex).pages = v.pages := by
  unfold free
  split
  · dsimp only
    split <;> rfl
  · rfl

/-- What an operation does to the bytes. -/
theorem cells_eq (h : v.exec op = some v') : v'.cells =
    ((v.direct op).writes.map fun x => Function.update v.cells x.1 (some x.2)).getD v.cells := by
  cases op with
  | alloc size regIndex =>
      obtain ⟨-, -, _, ⟨j, best, -, rfl⟩ | ⟨-, hspace, rfl⟩⟩ := alloc_cases h
      · rfl
      · rfl
  | free regIndex =>
      cases h
      unfold free
      split
      · dsimp only
        split <;> rfl
      · rfl
  | read source offset =>
      obtain ⟨addr, haddr, hget⟩ := Option.bind_eq_some_iff.mp h
      rw [(getval_cases hget).2, direct, haddr]
      rfl
  | write data destination offset =>
      obtain ⟨addr, haddr, hset⟩ := Option.bind_eq_some_iff.mp h
      rw [(setval_cases hset).2, direct, haddr]
      rfl
  | setval addr value =>
      rw [(setval_cases h).2]
      rfl
  | getval addr =>
      rw [(getval_cases h).2]
      rfl
  | memmap regs => cases h

/-- What was written lies below the end of the heap. -/
def Below (v : Alone) : Prop := ∀ addr x, v.cells addr = some x → addr.toNat < v.area.vmEnd.toNat

theorem Below.exec (hv : v.Below) (h : v.exec op = some v') : v'.Below := by
  intro addr x hx
  have hend := vmEnd_le h
  rw [cells_eq h] at hx
  cases hwrites : (v.direct op).writes with
  | none =>
      rw [hwrites] at hx
      exact (hv addr x hx).trans_le hend
  | some wr =>
      obtain ⟨at', value⟩ := wr
      rw [hwrites] at hx
      simp only [Option.map_some, Option.getD_some] at hx
      rcases eq_or_ne addr at' with rfl | hne
      · have hset := exec_direct h
        cases hop : v.direct op with
        | setval addr' value' =>
            rw [hop] at hset hwrites
            cases hwrites
            exact (setval_cases hset).1.trans_le hend
        | alloc | free | read | write | memmap | getval =>
            rw [hop] at hwrites
            cases hwrites
      · rw [Function.update_of_ne hne] at hx
        exact (hv addr x hx).trans_le hend

end Alone

namespace MmStruct.Holds

variable {c c' : Pcb} {v v' : Alone} {op : MemOp}

/-- What can be done alone is admissible, if there are frames for the pages it adds. -/
theorem heapOk (h : c.mm.Holds v) (hv : v.exec op = some v')
    (hfree : v'.pages ≤ v.pages + c.mram.freeFpList.length) : HeapOk c (v.direct op) := by
  have hend : ∀ addr : BitVec 32, addr.toNat < v.area.vmEnd.toNat → addr.toNat < c.mm.heapEnd := by
    intro addr haddr
    rwa [h.heapEnd_eq]
  cases op with
  | alloc size regIndex => exact h.allocOk hv hfree
  | free regIndex => trivial
  | read source offset =>
      obtain ⟨addr, haddr, hget⟩ := Option.bind_eq_some_iff.mp hv
      rw [Alone.direct, haddr]
      exact hend addr (Alone.getval_cases hget).1
  | write data destination offset =>
      obtain ⟨addr, haddr, hset⟩ := Option.bind_eq_some_iff.mp hv
      rw [Alone.direct, haddr]
      exact hend addr (Alone.setval_cases hset).1
  | setval addr value => exact hend addr (Alone.setval_cases hv).1
  | getval addr => exact hend addr (Alone.getval_cases hv).1
  | memmap regs => cases hv

/-- **An operation does to the address space what it would do alone.** -/
theorem exec (h : c.mm.Holds v) (hv : v.exec op = some v') (hok : HeapOk c (v.direct op))
    (hexec : (v.direct op).exec c = .ok c') (hstep : HeapStep c (v.direct op) c') :
    c'.mm.Holds v' := by
  have hget : ∀ {addr}, v.getval addr = some v' → v.direct op = .getval addr → c'.mm.Holds v' := by
    intro addr hget hdirect
    rw [hdirect] at hstep
    cases hstep
    rw [(Alone.getval_cases hget).2]
    exact h
  have hset : ∀ {addr value}, v.setval addr value = some v' → v.direct op = .setval addr value →
      c'.mm.Holds v' := by
    intro addr value hset hdirect
    rw [hdirect] at hstep
    cases hstep
    rw [(Alone.setval_cases hset).2]
    exact ⟨h.toPagedArea, h.symrgtbl_eq⟩
  cases op with
  | alloc size regIndex =>
      cases MemOp.exec_cases hexec with
      | alloc hrun => exact h.liballoc hv hok hrun
  | free regIndex =>
      cases hv
      cases MemOp.exec_cases hexec with
      | free hrun => exact h.libfree hrun
  | read source offset =>
      obtain ⟨addr, haddr, hgot⟩ := Option.bind_eq_some_iff.mp hv
      exact hget hgot (by rw [Alone.direct, haddr]; rfl)
  | write data destination offset =>
      obtain ⟨addr, haddr, hdone⟩ := Option.bind_eq_some_iff.mp hv
      exact hset hdone (by rw [Alone.direct, haddr]; rfl)
  | setval addr value => exact hset hv rfl
  | getval addr => exact hget hv rfl
  | memmap regs => cases hv

end MmStruct.Holds

/-! ## The system -/

section system

variable {ι : Type} [Fintype ι] [DecidableEq ι]

/-- The system, whose frames are those of `F`, holds what every process would have alone. -/
structure Carries (F : Multiset Nat) (s : MemSystem ι) (v : ι → Alone) : Prop where
  paged : ∃ as, Paged F (MemSystem.latest as) s ∧
    ∀ i addr, MemSystem.latest as (i, addr) = (v i).cells addr
  holds : ∀ i, (s.mm i).Holds (v i)
  below : ∀ i, (v i).Below

namespace Carries

variable {F : Multiset Nat} {s : MemSystem ι} {v w : ι → Alone}

/-- The pages of the heaps and the free frames are all the frames. -/
theorem card_eq (h : Carries F s v) : s.mram.freeFpList.length + ∑ i, (v i).pages = F.card := by
  obtain ⟨as, hpaged, -⟩ := h.paged
  rw [← hpaged.accounted.frames_eq, MemSystem.frames, Multiset.card_add, Multiset.coe_card,
    Multiset.card_sum]
  exact congrArg _ (Finset.sum_congr rfl fun i _ => (h.holds i).card_residentFrames.symm)

/-- **One operation**: the system can perform it if it can be performed alone and there are frames for
all heaps. -/
theorem step (hF : F.Nodup) (hlt : ∀ f ∈ F, f < 2 ^ 13) (h : Carries F s v) {a : ι × MemOp}
    (hv : Interleaving.step Alone.exec v a = some w) (hroom : ∑ i, (w i).pages ≤ F.card) :
    ∃ s', MemSystem.Step s a s' ∧ Carries F s' w := by
  obtain ⟨i, op⟩ := a
  obtain ⟨x, hx, rfl⟩ := Option.map_eq_some_iff.mp hv
  simp only at hx hroom ⊢
  -- the other heaps keep their pages, so the new ones of this heap are free frames
  have hpages := FamilySum.sum_update_add (fun _ (x : Alone) => x.pages) v i x
  have hcard := h.card_eq
  have hok : HeapOk (s.pcb i) ((v i).direct op) := (h.holds i).heapOk hx (by
    have hfree : (s.pcb i).mram.freeFpList.length = s.mram.freeFpList.length := rfl
    omega)
  obtain ⟨as, hpaged, hcells⟩ := h.paged
  obtain ⟨c', hexec, hstep, -⟩ := hpaged.exec hok
  have hdirect := (h.holds i).exec_direct (c := s.pcb i) hpaged.rdmflg
    (fun p hp => hpaged.hasFrame _
      (hpaged.accounted.frames_eq ▸ MemSystem.mem_frames_of_resident (i := i) hp)) hx
  refine ⟨s.withPcb i c', MemSystem.step_of_exec (hdirect.trans hexec), ?_, fun j => ?_, fun j => ?_⟩
  · refine ⟨as ++ [(i, (v i).direct op)],
      hpaged.step (a := (i, (v i).direct op)) hF hlt hok (MemSystem.step_of_exec hexec), ?_⟩
    intro j addr
    have hbytes := Alone.cells_eq hx
    cases hwrites : ((v i).direct op).writes with
    | none =>
        rw [hwrites] at hbytes
        rw [MemSystem.latest, Translation.latest_snoc_other as (by simp [MemSystem.writes, hwrites])]
        rcases eq_or_ne j i with rfl | hne
        · rw [Function.update_self, hbytes]
          exact hcells j addr
        · rw [Function.update_of_ne hne]
          exact hcells j addr
    | some wr =>
        obtain ⟨at', value⟩ := wr
        rw [hwrites] at hbytes
        rw [MemSystem.latest, Translation.latest_snoc_write as (x := (i, at')) (v := value)
          (by simp [MemSystem.writes, hwrites])]
        rcases eq_or_ne j i with rfl | hne
        · rw [Function.update_self, hbytes]
          rcases eq_or_ne addr at' with rfl | hother
          · simp
          · rw [Function.update_of_ne (by simpa using hother)]
            exact (hcells j addr).trans (by simp [Function.update_of_ne hother])
        · rw [Function.update_of_ne (by simp [hne]), Function.update_of_ne hne]
          exact hcells j addr
  · rcases eq_or_ne j i with rfl | hne
    · rw [MemSystem.withPcb_mm_self, Function.update_self]
      exact (h.holds j).exec (c := s.pcb j) hx hok hexec hstep
    · rw [MemSystem.withPcb_mm_of_ne s hne, Function.update_of_ne hne]
      exact h.holds j
  · rcases eq_or_ne j i with rfl | hne
    · rw [Function.update_self]
      exact (h.below j).exec hx
    · rw [Function.update_of_ne hne]
      exact h.below j

/-- **A run**: the system performs every sequence of operations that the processes can perform alone, if
there are frames for the heaps at its end. -/
theorem exec (hF : F.Nodup) (hlt : ∀ f ∈ F, f < 2 ^ 13) (h : Carries F s v) {as : List (ι × MemOp)}
    (hv : Steps.exec (Interleaving.step Alone.exec) v as = some w)
    (hroom : ∑ i, (w i).pages ≤ F.card) :
    ∃ s', Steps MemSystem.Step s as s' ∧ Carries F s' w := by
  induction as generalizing s v with
  | nil =>
      cases hv
      exact ⟨s, .nil s, h⟩
  | cons a as ih =>
      obtain ⟨u, hu, hrest⟩ := Option.bind_eq_some_iff.mp hv
      -- the heaps only grow, so what is enough at the end is enough now
      have hgrow : ∀ i, (u i).pages ≤ (w i).pages := fun i =>
        Steps.exec_le Alone.pages (fun _ _ _ => Alone.pages_le)
          (Interleaving.exec_eq_some.mp hrest i)
      obtain ⟨s₁, hstep, h₁⟩ :=
        h.step hF hlt hu ((Finset.sum_le_sum fun i _ => hgrow i).trans hroom)
      obtain ⟨s', hrun, h'⟩ := ih h₁ hrest
      exact ⟨s', hrun.cons hstep, h'⟩

end Carries

/-- What process `i` sees of its memory is what it would have alone: its area with the free regions, its
regions, and the bytes that it wrote, when it reads them through a region or at an address. -/
structure MemSystem.Shows (s : MemSystem ι) (i : ι) (v : Alone) : Prop where
  mmap_eq : (s.mm i).mmap = [v.area]
  symrgtbl_eq : (s.mm i).symrgtbl = v.symrgtbl
  pgGetval : ∀ addr x, v.cells addr = some x →
    (s.pcb i).pgGetval addr = .ok (0, some x, s.pcb i)
  libread : ∀ source offset addr x, v.regionAddr source offset = some addr →
    v.cells addr = some x →
    (s.pcb i).libread source offset = .ok (0, some (x.signExtend 32), s.pcb i)

end system

end Ossim.Mm
