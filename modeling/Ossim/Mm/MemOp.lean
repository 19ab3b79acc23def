import Ossim.Library.Steps
import Ossim.Mm.Access
import Ossim.Mm.Growth

/-!
# Memory operations and the processes that share the devices (`cpu.c`, `libmem.c`)

`MemOp` lists the operations a process can perform on its memory: what `run` calls for the
instructions `ALLOC`, `FREE`, `READ`, `WRITE` and for `SYSCALL` with number 17, and the two page
accesses below `READ` and `WRITE`. All processes share one RAM device and one swap device, and have
an address space each; one operation of one process is one step of the system.

Whatever the operation, it does to the pages of its process one of three things, which `PageStep`
lists: nothing, mapping new pages to free frames, or a fault.
-/

namespace Ossim.Mm

/-- An operation on memory. -/
inductive MemOp where
  | alloc (size regIndex : BitVec 32)
  | free (regIndex : BitVec 32)
  | read (source offset : BitVec 32)
  | write (data : Byte) (destination offset : BitVec 32)
  | memmap (regs : ScRegs)
  | setval (addr : BitVec 32) (value : Byte)
  | getval (addr : BitVec 32)
  deriving DecidableEq

namespace MemOp

/-- The number of `sys_memmap` in the table of system calls. -/
def sysMemmapNr : BitVec 32 := 17

/-- The memory operation that `run` performs for an instruction, if it performs one. -/
def ofInst (ins : Inst) : Option MemOp :=
  match ins.opcode with
  | .calc => none
  | .alloc => some (.alloc ins.arg0 ins.arg1)
  | .free => some (.free ins.arg0)
  | .read => some (.read ins.arg0 ins.arg1)
  | .write => some (.write (ins.arg0.setWidth 8) ins.arg1 ins.arg2)
  | .syscall =>
    if ins.arg0 = sysMemmapNr then some (.memmap ⟨ins.arg1, ins.arg2, ins.arg3⟩) else none

/-- Perform an operation, and drop its return code and its result. -/
def exec (c : Pcb) : MemOp → Exec Pcb
  | .alloc size regIndex => do
    let (_, c) ← c.liballoc size regIndex
    return c
  | .free regIndex => do
    let (_, c) ← c.libfree regIndex
    return c
  | .read source offset => do
    let (_, _, c) ← c.libread source offset
    return c
  | .write data destination offset => do
    let (_, c) ← c.libwrite data destination offset
    return c
  | .memmap regs => do
    let (_, _, c) ← c.sysMemmap regs
    return c
  | .setval addr value => do
    let (_, c) ← c.pgSetval addr value
    return c
  | .getval addr => do
    let (_, _, c) ← c.pgGetval addr
    return c

/-- `exec`, as the call that went through. -/
inductive Call (c : Pcb) : MemOp → Pcb → Prop
  | alloc {size regIndex : BitVec 32} {r : Int} {c' : Pcb}
      (h : c.liballoc size regIndex = .ok (r, c')) : Call c (.alloc size regIndex) c'
  | free {regIndex : BitVec 32} {r : Int} {c' : Pcb} (h : c.libfree regIndex = .ok (r, c')) :
      Call c (.free regIndex) c'
  | read {source offset : BitVec 32} {r : Int} {destination : Option (BitVec 32)} {c' : Pcb}
      (h : c.libread source offset = .ok (r, destination, c')) : Call c (.read source offset) c'
  | write {data : Byte} {destination offset : BitVec 32} {r : Int} {c' : Pcb}
      (h : c.libwrite data destination offset = .ok (r, c')) :
      Call c (.write data destination offset) c'
  | memmap {regs regs' : ScRegs} {r : Int} {c' : Pcb} (h : c.sysMemmap regs = .ok (r, regs', c')) :
      Call c (.memmap regs) c'
  | setval {addr : BitVec 32} {value : Byte} {r : Int} {c' : Pcb}
      (h : c.pgSetval addr value = .ok (r, c')) : Call c (.setval addr value) c'
  | getval {addr : BitVec 32} {r : Int} {data : Option Byte} {c' : Pcb}
      (h : c.pgGetval addr = .ok (r, data, c')) : Call c (.getval addr) c'

theorem exec_cases {c c' : Pcb} {op : MemOp} (h : op.exec c = .ok c') : Call c op c' := by
  cases op with
  | alloc | free | write | setval =>
      obtain ⟨⟨r, c₁⟩, hcall, hret⟩ := Exec.bind_eq_ok.mp h
      cases hret
      constructor
      exact hcall
  | read | memmap | getval =>
      obtain ⟨⟨r, x, c₁⟩, hcall, hret⟩ := Exec.bind_eq_ok.mp h
      cases hret
      constructor
      exact hcall

theorem Call.exec {c c' : Pcb} {op : MemOp} (h : Call c op c') : op.exec c = .ok c' := by
  cases h <;> exact Exec.bind_eq_ok.mpr ⟨_, ‹_›, rfl⟩

/-- One operation of a process that has the devices for itself. -/
def Step (c : Pcb) (op : MemOp) (c' : Pcb) : Prop := op.exec c = .ok c'

/-- What an operation writes at which address, for the page accesses. -/
def writes : MemOp → Option (BitVec 32 × Byte)
  | .setval addr value => some (addr, value)
  | _ => none

end MemOp

/-! ## The system -/

/-- The address spaces of the processes, and the devices they share. -/
structure MemSystem (ι : Type) where
  mm : ι → MmStruct
  mram : Memphy
  activeMswp : Memphy

namespace MemSystem

variable {ι : Type} [DecidableEq ι]

/-- The system as process `i` sees it. -/
def pcb (s : MemSystem ι) (i : ι) : Pcb := ⟨s.mm i, s.mram, s.activeMswp⟩

/-- The system after process `i` has changed what it sees. -/
def withPcb (s : MemSystem ι) (i : ι) (c : Pcb) : MemSystem ι :=
  ⟨Function.update s.mm i c.mm, c.mram, c.activeMswp⟩

/-- One operation of process `i`. -/
def step (s : MemSystem ι) (i : ι) (op : MemOp) : Exec (MemSystem ι) := do
  let c ← op.exec (s.pcb i)
  return s.withPcb i c

/-- The step relation. -/
def Step (s : MemSystem ι) (a : ι × MemOp) (s' : MemSystem ι) : Prop := s.step a.1 a.2 = .ok s'

theorem step_cases {s s' : MemSystem ι} {a : ι × MemOp} (h : Step s a s') :
    ∃ c', a.2.exec (s.pcb a.1) = .ok c' ∧ s' = s.withPcb a.1 c' := by
  obtain ⟨c', hexec, hret⟩ := Exec.bind_eq_ok.mp h
  cases hret
  exact ⟨c', hexec, rfl⟩

theorem step_of_exec {s : MemSystem ι} {i : ι} {op : MemOp} {c' : Pcb}
    (h : op.exec (s.pcb i) = .ok c') : Step s (i, op) (s.withPcb i c') := by
  unfold Step step
  simp only [h]
  rfl

@[simp] theorem withPcb_mm_self (s : MemSystem ι) (i : ι) (c : Pcb) :
    (s.withPcb i c).mm i = c.mm := Function.update_self ..

@[simp] theorem withPcb_mram (s : MemSystem ι) (i : ι) (c : Pcb) :
    (s.withPcb i c).mram = c.mram := rfl

@[simp] theorem withPcb_activeMswp (s : MemSystem ι) (i : ι) (c : Pcb) :
    (s.withPcb i c).activeMswp = c.activeMswp := rfl

theorem withPcb_pcb (s : MemSystem ι) (i : ι) : s.withPcb i (s.pcb i) = s := by
  unfold withPcb pcb
  rw [Function.update_eq_self]

@[simp] theorem pcb_withPcb (s : MemSystem ι) (i : ι) (c : Pcb) : (s.withPcb i c).pcb i = c := by
  unfold pcb
  rw [withPcb_mm_self, withPcb_mram, withPcb_activeMswp]

theorem withPcb_mm_of_ne (s : MemSystem ι) {i j : ι} (h : j ≠ i) (c : Pcb) :
    (s.withPcb i c).mm j = s.mm j := Function.update_of_ne h _ _

end MemSystem

/-! ## A fresh system, and running it -/

/-- The address space `init_mm` makes of zeroed memory. -/
def freshMm : MmStruct where
  pgd := fun _ => 0
  mmap := [⟨0, 0, 0, 0, [⟨0, 0⟩]⟩]
  symrgtbl := fun _ => ⟨0, 0⟩
  fifoPgn := []

/-- A random access device of `n` zeroed frames, all of them free. -/
def freshDevice (n : Nat) (h : n * 256 < 2 ^ 31) : Memphy where
  storage := fun _ => 0
  maxsz := n * 256
  rdmflg := true
  cursor := 0
  freeFpList := List.range n
  maxsz_lt := h

/-- The smallest device. -/
def oneFrame : Memphy := freshDevice 1 (by decide)

/-- A small device. -/
def fourFrames : Memphy := freshDevice 4 (by decide)

/-- A step that goes through, as a value. -/
def MemSystem.tryStep {ι : Type} [DecidableEq ι] (s : MemSystem ι) (a : ι × MemOp) :
    Option (MemSystem ι) :=
  (s.step a.1 a.2).toOption

theorem MemSystem.step_of_tryStep {ι : Type} [DecidableEq ι] {s s' : MemSystem ι} {a : ι × MemOp}
    (h : s.tryStep a = some s') : Step s a s' := Exec.toOption_eq_some.mp h

/-- An execution that goes through is a run. -/
theorem MemSystem.steps_of_exec {ι : Type} [DecidableEq ι] {s s' : MemSystem ι}
    {as : List (ι × MemOp)} (h : Steps.exec tryStep s as = some s') : Steps Step s as s' :=
  (Steps.of_exec h).mono fun _ _ _ => step_of_tryStep

/-- An execution that is not refused is a run of the restricted relation. -/
theorem MemSystem.steps_of_exec_checked {ι : Type} [DecidableEq ι] {s s' : MemSystem ι}
    {pre : MemSystem ι → ι × MemOp → Prop} [∀ s a, Decidable (pre s a)] {as : List (ι × MemOp)}
    (h : Steps.exec (Steps.checked pre tryStep) s as = some s') :
    Steps (Steps.Meeting pre Step) s as s' :=
  (Steps.of_exec_checked h).mono fun _ _ _ hstep => ⟨hstep.1, step_of_tryStep hstep.2⟩

/-- The same for a process that has the devices for itself. -/
def MemOp.tryStep (c : Pcb) (op : MemOp) : Option Pcb := (op.exec c).toOption

theorem MemOp.step_of_tryStep {c c' : Pcb} {op : MemOp} (h : tryStep c op = some c') :
    Step c op c' := Exec.toOption_eq_some.mp h

theorem MemOp.steps_of_exec {c c' : Pcb} {ops : List MemOp}
    (h : Steps.exec tryStep c ops = some c') : Steps Step c ops c' :=
  (Steps.of_exec h).mono fun _ _ _ => step_of_tryStep

theorem MemOp.steps_of_exec_checked {c c' : Pcb} {pre : Pcb → MemOp → Prop}
    [∀ c op, Decidable (pre c op)] {ops : List MemOp}
    (h : Steps.exec (Steps.checked pre tryStep) c ops = some c') :
    Steps (Steps.Meeting pre Step) c ops c' :=
  (Steps.of_exec_checked h).mono fun _ _ _ hstep => ⟨hstep.1, step_of_tryStep hstep.2⟩

/-! ## What an operation does to the pages -/

/-- The pages of a range are not resident. -/
def NewRange (mm : MmStruct) (start n : Nat) : Prop :=
  ∀ p : Pgn, start ≤ p → (p : Nat) < start + n → resident (mm.pgd p) = false

/-- If an operation makes the heap grow, it maps only pages that are not resident already. -/
def MapsNewPages (c : Pcb) : MemOp → Prop
  | .alloc size _ => ∀ k vma, c.mm.getVmaByNum 0 = .ok (some (k, vma)) → NoneFits vma size →
      NewRange c.mm (pagingPgn (vma.vmEnd.setWidth 32))
        (incNumPage (pagingPageAlignsz size)).toInt.toNat
  | .memmap regs => regs.a1 = sysmemIncOp →
      ∀ k vma, c.mm.getVmaByNum regs.a2 = .ok (some (k, vma)) →
        NewRange c.mm (pagingPgn (vma.vmEnd.setWidth 32)) (incNumPage regs.a3).toInt.toNat
  | _ => True

/-- What an operation can do to the page directory, the list of mapped pages and the free frames. -/
inductive PageStep (c c' : Pcb) : Prop
  | same (hpgd : c'.mm.pgd = c.mm.pgd) (hfifo : c'.mm.fifoPgn = c.mm.fifoPgn)
      (hram : c'.mram.freeFpList = c.mram.freeFpList)
      (hswap : c'.activeMswp.freeFpList = c.activeMswp.freeFpList)
  | mapped {start : Nat} {taken : List Nat}
      (hram : c.mram.freeFpList = taken ++ c'.mram.freeFpList)
      (hmapped : Mapped c.mm.pgd c.mm.fifoPgn start taken.reverse c'.mm.pgd c'.mm.fifoPgn)
      (hnew : NewRange c.mm start taken.length)
      (hswap : c'.activeMswp.freeFpList = c.activeMswp.freeFpList)
  | fault {p v : Pgn} {newer : List Pgn} {s : Nat}
      (habsent : pagingPagePresent (c.mm.pgd p) = false)
      (hfifo : c.mm.fifoPgn = newer ++ [v])
      (hswap : c.activeMswp.freeFpList = s :: c'.activeMswp.freeFpList)
      (hpgd : ∃ pte pte', c'.mm.pgd =
        Function.update (Function.update c.mm.pgd v (pteSetSwap pte 0 s)) p
          (pteSetFpn pte' (pagingFpn (c.mm.pgd v))))
      (hfifo' : c'.mm.fifoPgn = p :: newer)
      (hram : c'.mram.freeFpList = c.mram.freeFpList)

namespace Pcb

theorem IncStep.pageStep {c c' : Pcb} {vmaid incSz : BitVec 32} (h : IncStep c vmaid incSz c')
    (hnew : ∀ k vma, c.mm.getVmaByNum vmaid = .ok (some (k, vma)) →
      NewRange c.mm (pagingPgn (vma.vmEnd.setWidth 32)) (incNumPage incSz).toInt.toNat) :
    PageStep c c' := by
  cases h with
  | refused => exact .same rfl rfl rfl rfl
  | grown hvma hend hfree hlen hmapped =>
      exact .mapped hfree hmapped (by rw [hlen]; exact hnew _ _ hvma) rfl

/-- Two states that differ in areas and regions only. -/
structure SamePages (c c' : Pcb) : Prop where
  pgd : c'.mm.pgd = c.mm.pgd
  fifo : c'.mm.fifoPgn = c.mm.fifoPgn
  mram : c'.mram = c.mram
  activeMswp : c'.activeMswp = c.activeMswp

theorem SamePages.refl (c : Pcb) : SamePages c c := ⟨rfl, rfl, rfl, rfl⟩

theorem SamePages.pageStep {c c' : Pcb} (h : SamePages c c') : PageStep c c' :=
  .same h.pgd h.fifo (by rw [h.mram]) (by rw [h.activeMswp])

theorem SamePages.trans_pageStep {c c₁ c₂ c' : Pcb} (h : SamePages c c₁) (hstep : PageStep c₁ c₂)
    (h' : SamePages c₂ c') : PageStep c c' := by
  obtain ⟨hpgd, hfifo, hram, hswap⟩ := h
  obtain ⟨hpgd', hfifo', hram', hswap'⟩ := h'
  cases hstep with
  | same h1 h2 h3 h4 =>
      exact .same (by rw [hpgd', h1, hpgd]) (by rw [hfifo', h2, hfifo]) (by rw [hram', h3, hram])
        (by rw [hswap', h4, hswap])
  | mapped h1 h2 h3 h4 =>
      rw [hpgd, hfifo, ← hpgd', ← hfifo'] at h2
      refine .mapped (by rw [← hram, h1, hram']) h2 ?_ (by rw [hswap', h4, hswap])
      intro p hlo hhi
      rw [← hpgd]
      exact h3 p hlo hhi
  | fault h1 h2 h3 h4 h5 h6 =>
      refine .fault (by rw [← hpgd]; exact h1) (by rw [← hfifo, h2]) (by rw [← hswap, h3, hswap'])
        ?_ (by rw [hfifo', h5]) (by rw [hram', h6, hram])
      obtain ⟨pte, pte', h4⟩ := h4
      exact ⟨pte, pte', by rw [hpgd', h4, hpgd]⟩

/-- The second half of `__alloc` extends the area at most. -/
theorem allocAtBrk_cases {c c' : Pcb} {vmaid rgid size : BitVec 32} {k : Nat} {curVma : VmArea}
    {r : Int} (h : c.allocAtBrk vmaid rgid size k curVma = .ok (r, c')) :
    ∃ c₁ c₂, SamePages c c₁ ∧ c₁.mm.mmap = c.mm.mmap ∧ SamePages c₂ c' ∧
      (c₂ = c₁ ∨ IncStep c₁ vmaid (pagingPageAlignsz size) c₂) := by
  obtain ⟨i, rg, c₂, -, hgrow, hslack⟩ := allocAtBrk_split h
  refine ⟨{ c with mm := c.mm.setSymrg i rg }, c₂, ⟨rfl, rfl, rfl, rfl⟩, rfl, ?_, hgrow⟩
  rcases hslack with rfl | ⟨area, left, -, rfl⟩
  · exact .refl _
  · exact ⟨rfl, rfl, rfl, rfl⟩

/-- What `liballoc` does to the pages: nothing, or it extends the area, and then no free region
fits. -/
theorem liballoc_cases {c c' : Pcb} {size regIndex : BitVec 32} {r : Int}
    (h : c.liballoc size regIndex = .ok (r, c')) :
    ∃ c₁ c₂, SamePages c c₁ ∧ SamePages c₂ c' ∧ (c₂ = c₁ ∨
      c₁.mm.mmap = c.mm.mmap ∧ IncStep c₁ 0 (pagingPageAlignsz size) c₂ ∧
        ∀ k vma, c.mm.getVmaByNum 0 = .ok (some (k, vma)) → NoneFits vma size) := by
  obtain ⟨k, vma, hvma, ⟨hbest, hbrk⟩ | ⟨j, best, i, -, -, rfl⟩⟩ := alloc_cases (alloc_of_liballoc h)
  · obtain ⟨c₁, c₂, hsame, hmmap, hsame', hgrow⟩ := allocAtBrk_cases hbrk
    refine ⟨c₁, c₂, hsame, hsame', hgrow.imp_right fun hinc => ⟨hmmap, hinc, ?_⟩⟩
    intro k₀ vma₀ hvma₀
    cases hvma₀.symm.trans hvma
    exact (bestFit_eq_none.mp hbest).2
  · exact ⟨c, c, .refl c, ⟨rfl, rfl, rfl, rfl⟩, .inl rfl⟩

/-- `libfree` does nothing to the pages. -/
theorem libfree_cases {c c' : Pcb} {regIndex : BitVec 32} {r : Int}
    (h : c.libfree regIndex = .ok (r, c')) : SamePages c c' := by
  rcases free_cases (free_of_libfree h) with rfl | ⟨i, k, vma, -, -, rfl⟩
  · exact .refl _
  · exact ⟨rfl, rfl, rfl, rfl⟩

/-- The pointer `get_symrg_byid` returns has the number it was asked for. -/
theorem getSymrgByid_deref {rgid : BitVec 32} {j : Nat}
    (h : deref (MmStruct.getSymrgByid rgid) = .ok j) : j = rgid.toNat := by
  unfold MmStruct.getSymrgByid at h
  split at h
  · cases h
  · cases h
    rfl

/-- A read goes through `pg_getval`, or does nothing. -/
theorem libread_cases {c c' : Pcb} {source offset : BitVec 32} {r : Int} {d : Option (BitVec 32)}
    (h : c.libread source offset = .ok (r, d, c')) :
    c' = c ∨ ∃ (i : Rgid) (r' : Int) (data : Option Byte), (i : Nat) = source.toNat ∧
      c.pgGetval (((c.mm.symrgtbl i).rgStart + offset.signExtend 64).setWidth 32) =
        .ok (r', data, c') := by
  obtain ⟨⟨val, data, c₁⟩, hread, hret⟩ := Exec.bind_eq_ok.mp h
  have hc₁ : c' = c₁ := by
    simp only at hret
    split at hret
    · obtain ⟨v, -, hdone⟩ := Exec.bind_eq_ok.mp hret
      cases hdone
      rfl
    · cases hret
      rfl
  subst hc₁
  obtain ⟨curVma, -, hbody⟩ := Exec.bind_eq_ok.mp hread
  split at hbody
  · cases hbody
    exact .inl rfl
  · obtain ⟨j, hj, hindex⟩ := Exec.bind_eq_ok.mp hbody
    obtain ⟨i, hi, haccess⟩ := Exec.bind_eq_ok.mp hindex
    obtain ⟨⟨r', data', c₂⟩, hget, hdone⟩ := Exec.bind_eq_ok.mp haccess
    cases hdone
    exact .inr ⟨i, r', _, by rw [symIndex_eq_ok hi, getSymrgByid_deref hj], hget⟩

/-- A write goes through `pg_setval`, or does nothing. -/
theorem libwrite_cases {c c' : Pcb} {value : Byte} {destination offset : BitVec 32} {r : Int}
    (h : c.libwrite value destination offset = .ok (r, c')) :
    c' = c ∨ ∃ (i : Rgid) (r' : Int), (i : Nat) = destination.toNat ∧
      c.pgSetval (((c.mm.symrgtbl i).rgStart + offset.signExtend 64).setWidth 32) value =
        .ok (r', c') := by
  obtain ⟨j, -, hlook⟩ := Exec.bind_eq_ok.mp h
  obtain ⟨i, -, hwrite⟩ := Exec.bind_eq_ok.mp hlook
  obtain ⟨curVma, -, hbody⟩ := Exec.bind_eq_ok.mp hwrite
  split at hbody
  · cases hbody
    exact .inl rfl
  · obtain ⟨j, hj, hindex⟩ := Exec.bind_eq_ok.mp hbody
    obtain ⟨i, hi, haccess⟩ := Exec.bind_eq_ok.mp hindex
    obtain ⟨⟨r', c₂⟩, hset, hdone⟩ := Exec.bind_eq_ok.mp haccess
    cases hdone
    exact .inr ⟨i, r', by rw [symIndex_eq_ok hi, getSymrgByid_deref hj], hset⟩

/-! ## The step lemma -/

theorem FaultStep.pageStep {c c' : Pcb} {p : Pgn} (habsent : pagingPagePresent (c.mm.pgd p) = false)
    (h : FaultStep c p c') : PageStep c c' := by
  cases h with
  | intro hfifo hswap hstorage => exact .fault habsent hfifo hswap ⟨_, _, rfl⟩ rfl rfl

theorem pgGetpage_pageStep {c c' : Pcb} {p : Pgn} {r : Int} {fpn : Nat}
    (h : c.pgGetpage p = .ok (r, fpn, c')) : PageStep c c' := by
  obtain ⟨-, -, ⟨-, rfl⟩ | ⟨habsent, hfault⟩⟩ := pgGetpage_cases h
  · exact (SamePages.refl _).pageStep
  · exact hfault.pageStep habsent

theorem pgGetval_pageStep {c c' : Pcb} {addr : BitVec 32} {r : Int} {data : Option Byte}
    (h : c.pgGetval addr = .ok (r, data, c')) : PageStep c c' := by
  obtain ⟨fpn, hpage⟩ := pgGetval_cases h
  exact pgGetpage_pageStep hpage

theorem pgSetval_pageStep {c c' : Pcb} {addr : BitVec 32} {value : Byte} {r : Int}
    (h : c.pgSetval addr value = .ok (r, c')) : PageStep c c' := by
  obtain ⟨fpn, c₁, hpage, rfl | rfl⟩ := pgSetval_cases h
  · exact pgGetpage_pageStep hpage
  · cases pgGetpage_pageStep hpage with
    | same h1 h2 h3 h4 => exact .same h1 h2 h3 h4
    | mapped h1 h2 h3 h4 => exact .mapped h1 h2 h3 h4
    | fault h1 h2 h3 h4 h5 h6 => exact .fault h1 h2 h3 h4 h5 h6

theorem liballoc_pageStep {c c' : Pcb} {size regIndex : BitVec 32} {r : Int}
    (hnew : MapsNewPages c (.alloc size regIndex)) (h : c.liballoc size regIndex = .ok (r, c')) :
    PageStep c c' := by
  obtain ⟨c₁, c₂, hsame, hsame', rfl | ⟨hmmap, hinc, hnone⟩⟩ := liballoc_cases h
  · exact hsame.trans_pageStep (.same rfl rfl rfl rfl) hsame'
  · refine hsame.trans_pageStep (hinc.pageStep fun k vma hvma p hlo hhi => ?_) hsame'
    have hvma₀ : c.mm.getVmaByNum 0 = .ok (some (k, vma)) := by
      rw [← hvma]
      unfold MmStruct.getVmaByNum
      rw [hmmap]
    rw [hsame.pgd]
    exact hnew k vma hvma₀ (hnone k vma hvma₀) p hlo hhi

/-- A raw call: the operations on frames and bytes do not touch page directories or free lists. -/
theorem sysMemmap_pageStep {c c' : Pcb} {regs regs' : ScRegs} {r : Int}
    (hnew : MapsNewPages c (.memmap regs)) (h : c.sysMemmap regs = .ok (r, regs', c')) :
    PageStep c c' := by
  cases sysMemmap_cases h with
  | inc hop hinc => exact hinc.pageStep (hnew hop)
  | swp | ioWrite | same => exact .same rfl rfl rfl rfl

end Pcb

/-- **What an operation does to the pages**, if a growing heap maps new pages only. -/
theorem MemOp.pageStep {c c' : Pcb} {op : MemOp} (hnew : MapsNewPages c op)
    (h : op.exec c = .ok c') : PageStep c c' := by
  cases exec_cases h with
  | alloc hcall => exact Pcb.liballoc_pageStep hnew hcall
  | free hcall => exact (Pcb.libfree_cases hcall).pageStep
  | read hcall =>
      rcases Pcb.libread_cases hcall with rfl | ⟨i, r', data, -, hget⟩
      · exact (Pcb.SamePages.refl _).pageStep
      · exact Pcb.pgGetval_pageStep hget
  | write hcall =>
      rcases Pcb.libwrite_cases hcall with rfl | ⟨i, r', -, hset⟩
      · exact (Pcb.SamePages.refl _).pageStep
      · exact Pcb.pgSetval_pageStep hset
  | memmap hcall => exact Pcb.sysMemmap_pageStep hnew hcall
  | setval hcall => exact Pcb.pgSetval_pageStep hcall
  | getval hcall => exact Pcb.pgGetval_pageStep hcall

end Ossim.Mm
