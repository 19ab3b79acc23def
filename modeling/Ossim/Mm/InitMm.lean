import Ossim.Mm.Regions
import Ossim.Mm.Victims

/-!
# A new address space, in memory (`init_mm`)

`init_mm` gets the memory of the address space from its caller and allocates the page directory, the
area and its first free region. It sets the fields of the area, all but one, and where the page
directory and the area are. The entries of the page directory, the table of regions, the list of
pages and the head of the free list stay what they were, and `enlist_vm_rg_node` links the first
region to the last of these. On zeroed memory this is the address space every process is supposed to
start with (`initMm_represents`); on recycled memory it is so exactly if that was clean already.
-/

namespace Ossim.Mm

open Nodes

/-- `struct vm_area_struct`, with its free list in memory. -/
structure AreaMem (A : Type) where
  vmId : BitVec 64
  vmStart : BitVec 64
  vmEnd : BitVec 64
  sbrk : BitVec 64
  vmFreergList : Option A

/-- `struct mm_struct`, with the memory the free regions (`struct vm_rg_struct`) of its areas lie
in. -/
structure MmMem (A : Type) where
  pgd : Pgn → Pte
  mmap : List (AreaMem A)
  symrgtbl : Rgid → VmRg
  fifo : PgnQueue A Pgn
  heap : Heap A VmRg

/-- An `unsigned long` that is passed as an `int` and stored again. -/
def passedAsInt (x : BitVec 64) : BitVec 64 := (x.setWidth 32).signExtend 64

variable {A : Type} [DecidableEq A]

/-- `init_vm_rg`, where `malloc` returns `a`. -/
def initVmRg (heap : Heap A VmRg) (a : A) (rgStart rgEnd : BitVec 64) : Heap A VmRg :=
  (heap.alloc a).set a ⟨⟨passedAsInt rgStart, passedAsInt rgEnd⟩, none⟩

/-- `enlist_vm_rg_node`: the list and the memory afterwards. -/
def enlistVmRgNode (heap : Heap A VmRg) (rglist : Option A) (rgnode : A) :
    Option A × Heap A VmRg :=
  (some rgnode, heap.set rgnode ⟨(heap.cell rgnode).val, rglist⟩)

/-- `init_mm`, where `malloc` returns the memory with `pgd` in it for the page directory, the one
with `vma0` in it for the area, and the address `firstRg`. -/
def initMm (mm : MmMem A) (pgd : Pgn → Pte) (vma0 : AreaMem A) (firstRg : A) : MmMem A :=
  let vma0 := { vma0 with vmId := 0, vmStart := 0 }
  let vma0 := { vma0 with vmEnd := vma0.vmStart, sbrk := vma0.vmStart }
  let heap := initVmRg mm.heap firstRg vma0.vmStart vma0.vmEnd
  let (vmFreergList, heap) := enlistVmRgNode heap vma0.vmFreergList firstRg
  { mm with
    pgd := pgd
    mmap := [{ vma0 with vmFreergList := vmFreergList }]
    heap := heap }

namespace MmMem

/-- The state from which a process starts. -/
structure Initialised (mm : MmMem A) : Prop where
  noPresent : ∀ p, pagingPagePresent (mm.pgd p) = false
  noSymbol : ∀ i, (mm.symrgtbl i).range = ∅
  noPage : mm.fifo.fifoPgn = none
  freeList : ∃ area l, mm.mmap = [area] ∧ IsList mm.heap area.vmFreergList l ∧
    ∀ rg ∈ l, ∀ a ∈ rg.range, a < area.vmEnd.toNat

/-- The memory the address space is made of is clean: no entry is present, the regions are empty,
the list of pages is, and the head of the free list begins a list of empty regions that comes to an
end. -/
structure Clean (mm : MmMem A) (pgd : Pgn → Pte) (vma0 : AreaMem A) : Prop where
  noPresent : ∀ p, pagingPagePresent (pgd p) = false
  noSymbol : ∀ i, (mm.symrgtbl i).range = ∅
  noPage : mm.fifo.fifoPgn = none
  freeList : ∃ l, IsList mm.heap vma0.vmFreergList l ∧ ∀ rg ∈ l, rg.range = ∅

/-- The memory after `init_mm` has one new region, in front of what was there. -/
theorem initMm_heap (mm : MmMem A) (pgd : Pgn → Pte) (vma0 : AreaMem A) (firstRg : A) :
    (initMm mm pgd vma0 firstRg).heap =
      (mm.heap.alloc firstRg).set firstRg ⟨⟨0, 0⟩, vma0.vmFreergList⟩ := by
  simp only [initMm, initVmRg, enlistVmRgNode, Heap.set_set, Heap.cell_set_self]
  rfl

theorem initMm_mmap (mm : MmMem A) (pgd : Pgn → Pte) (vma0 : AreaMem A) (firstRg : A) :
    (initMm mm pgd vma0 firstRg).mmap = [⟨0, 0, 0, 0, some firstRg⟩] := rfl

/-- No address is below zero. -/
theorem range_eq_empty_iff {rg : VmRg} : rg.range = ∅ ↔ ∀ a ∈ rg.range, a < 0 := by
  constructor
  · intro hempty a ha
    rw [hempty] at ha
    exact absurd ha (Set.notMem_empty a)
  · intro hbelow
    exact Set.eq_empty_of_forall_notMem fun a ha => Nat.not_lt_zero a (hbelow a ha)

/-- **`init_mm` makes the state from which a process starts, exactly if the memory it gets is
clean.** -/
theorem initialised_initMm_iff {mm : MmMem A} {pgd : Pgn → Pte} {vma0 : AreaMem A} {firstRg : A}
    (hfresh : mm.heap.live firstRg = false) :
    (initMm mm pgd vma0 firstRg).Initialised ↔ Clean mm pgd vma0 := by
  constructor
  · intro h
    obtain ⟨area, l, harea, hlist, hbelow⟩ := h.freeList
    rw [initMm_mmap] at harea
    cases harea
    rw [initMm_heap] at hlist
    obtain ⟨l', rfl, hlist'⟩ := hlist.of_push hfresh
    refine ⟨h.noPresent, h.noSymbol, h.noPage, l', hlist', fun rg hrg => ?_⟩
    exact range_eq_empty_iff.mpr (hbelow rg (List.mem_cons_of_mem _ hrg))
  · intro h
    obtain ⟨l, hlist, hempty⟩ := h.freeList
    refine ⟨h.noPresent, h.noSymbol, h.noPage, _, ⟨0, 0⟩ :: l, initMm_mmap mm pgd vma0 firstRg,
      ?_, ?_⟩
    · rw [initMm_heap]
      exact hlist.push hfresh ⟨0, 0⟩
    · intro rg hrg
      rcases List.mem_cons.mp hrg with rfl | hrg
      · exact range_eq_empty_iff.mp (Set.Ico_self 0)
      · exact range_eq_empty_iff.mp (hempty rg hrg)

/-- A zeroed page directory and null links are clean, whatever the other fields of the area hold. -/
theorem initialised_initMm_iff_zeroed :
    let mm : MmMem Nat :=
      ⟨fun _ => 1, [], fun _ => ⟨0, 0⟩, ⟨none, ⟨fun _ => ⟨pagingPgn 0, none⟩, fun _ => false⟩⟩,
        ⟨fun _ => ⟨⟨3, 9⟩, some 2⟩, fun _ => false⟩⟩
    (initMm mm (fun _ => 0) ⟨7, 7, 7, 7, none⟩ 4).Initialised := by
  intro mm
  refine (initialised_initMm_iff rfl).mpr ⟨fun _ => by decide, fun _ => Set.Ico_self 0, rfl, ?_⟩
  exact ⟨[], .nil _, fun _ hrg => absurd hrg List.not_mem_nil⟩

/-- The page directory lies in memory that held a mapped page before. -/
theorem recycled_directory_not_initialised :
    ∃ (mm : MmMem Nat) (pgd : Pgn → Pte) (vma0 : AreaMem Nat) (firstRg : Nat),
      mm.heap.live firstRg = false ∧ ¬ (initMm mm pgd vma0 firstRg).Initialised := by
  refine ⟨⟨fun _ => 0, [], fun _ => ⟨0, 0⟩,
    ⟨none, ⟨fun _ => ⟨pagingPgn 0, none⟩, fun _ => false⟩⟩,
    ⟨fun _ => ⟨⟨0, 0⟩, none⟩, fun _ => false⟩⟩, fun _ => pteSetFpn 0 5, ⟨0, 0, 0, 0, none⟩, 4,
    rfl, ?_⟩
  intro h
  have hpresent : pagingPagePresent (pteSetFpn 0 5) = false := h.noPresent (pagingPgn 0)
  rw [pagingPagePresent_pteSetFpn] at hpresent
  cases hpresent

/-! ## The address space it stands for -/

/-- The nodes of an area hold its free regions, and the rest is the same. -/
structure AreaRepresents (heap : Heap A VmRg) (area : AreaMem A) (vma : VmArea) : Prop where
  vmId : area.vmId = vma.vmId
  vmStart : area.vmStart = vma.vmStart
  vmEnd : area.vmEnd = vma.vmEnd
  sbrk : area.sbrk = vma.sbrk
  vmFreergList : IsList heap area.vmFreergList vma.vmFreergList

/-- The nodes of an address space hold its lists, and the rest is the same. -/
structure Represents (m : MmMem A) (mm : MmStruct) : Prop where
  pgd : m.pgd = mm.pgd
  mmap : List.Forall₂ (AreaRepresents m.heap) m.mmap mm.mmap
  symrgtbl : m.symrgtbl = mm.symrgtbl
  fifo : IsList m.fifo.heap m.fifo.fifoPgn mm.fifoPgn

/-- With null links to begin with, `init_mm` makes an address space with one empty area. -/
theorem initMm_represents {m : MmMem A} (pgd : Pgn → Pte) {vma0 : AreaMem A} {firstRg : A}
    (hfresh : m.heap.live firstRg = false) (hfifo : m.fifo.fifoPgn = none)
    (hfree : vma0.vmFreergList = none) :
    Represents (initMm m pgd vma0 firstRg) ⟨pgd, [⟨0, 0, 0, 0, [⟨0, 0⟩]⟩], m.symrgtbl, []⟩ where
  pgd := rfl
  mmap := by
    rw [initMm_mmap, initMm_heap, hfree]
    exact .cons ⟨rfl, rfl, rfl, rfl, (IsList.nil m.heap).push hfresh ⟨0, 0⟩⟩ .nil
  symrgtbl := rfl
  fifo := by
    show IsList m.fifo.heap m.fifo.fifoPgn []
    rw [hfifo]
    exact .nil m.fifo.heap

/-- On zeroed memory that is the fresh address space. -/
theorem initMm_represents_freshMm {m : MmMem A} {vma0 : AreaMem A} {firstRg : A}
    (hfresh : m.heap.live firstRg = false) (hsym : m.symrgtbl = fun _ => ⟨0, 0⟩)
    (hfifo : m.fifo.fifoPgn = none) (hfree : vma0.vmFreergList = none) :
    Represents (initMm m (fun _ => 0) vma0 firstRg) freshMm := by
  have h := initMm_represents (fun _ => 0) hfresh hfifo hfree
  rw [hsym] at h
  exact h

omit [DecidableEq A] in
/-- An address space that is initialised and has only its first region is a fresh heap. -/
theorem Initialised.freshHeap {m : MmMem A} (h : m.Initialised) {mm : MmStruct}
    (hm : m.Represents mm) (hmmap : mm.mmap = [⟨0, 0, 0, 0, [⟨0, 0⟩]⟩]) :
    FreshHeap mm ∧ mm.fifoPgn = [] ∧ ∀ p, resident (mm.pgd p) = false := by
  refine ⟨⟨hmmap, fun i => ?_⟩, ?_, fun p => ?_⟩
  · have hempty := h.noSymbol i
    rw [hm.symrgtbl] at hempty
    exact Nat.not_lt.mp (Set.Ico_eq_empty_iff.mp hempty)
  · have hlist := hm.fifo
    rw [h.noPage] at hlist
    exact hlist.eq_nil
  · have hpresent := h.noPresent p
    rw [hm.pgd] at hpresent
    rw [resident, hpresent, Bool.false_and]

end MmMem

end Ossim.Mm
