import Ossim.Cpu.Run
import Ossim.Mm.Protection

/-!
# Where a `READ` puts its byte (`cpu.c`)

`READ <src> <offset> <dst>` should load a byte into a register. `libread` gets the byte right: it is
the one at the address, extended as a signed one. But `run` passes `&ins.arg_2` for the destination,
the address of a field of its local copy of the instruction, where the `read` of the build without
paging writes to `proc->regs[destination]`. The copy is gone when `run` returns. So no instruction
changes a register, and the destination holds the byte after the `READ` exactly if it held it before
(`read_delivers_iff`); a value that was just written is no exception.
-/

namespace Ossim

open Mm

namespace Mm.Pcb

/-- The offset in the region is an address on a page in RAM, and the machine is as `main` sets it
up: the process has an area, and RAM is a random access device that has the page's frame. -/
structure ByteReady (c : Pcb) (i : Rgid) (offset : BitVec 32) : Prop where
  area : ∃ x, c.mm.getVmaByNum 0 = .ok (some x)
  rdmflg : c.mram.rdmflg = true
  inRam : c.mm.InRam i offset
  hasFrame : c.mram.HasFrame (pagingFpn (c.mm.pgd (pagingPgn (c.mm.regionAddr i offset))))

/-- The cell of RAM with the byte at an offset in a region. -/
def cellAt (c : Pcb) (i : Rgid) (offset : BitVec 32) : Nat :=
  pagingFpn (c.mm.pgd (pagingPgn (c.mm.regionAddr i offset))) * 256 +
    pagingOffst (c.mm.regionAddr i offset)

/-- The byte at an offset in a region. -/
def byteAt (c : Pcb) (i : Rgid) (offset : BitVec 32) : Byte := c.mram.storage (c.cellAt i offset)

variable {c : Pcb} {i : Rgid} {offset : BitVec 32}

theorem ByteReady.getpage (h : ByteReady c i offset) :
    c.pgGetpage (pagingPgn (c.mm.regionAddr i offset)) =
      .ok (0, pagingFpn (c.mm.pgd (pagingPgn (c.mm.regionAddr i offset))), c) :=
  pgGetpage_of_present (present_of_resident h.inRam)

/-- `libread` returns the byte and changes nothing. -/
theorem ByteReady.libread (h : ByteReady c i offset) :
    c.libread (BitVec.ofNat 32 i) offset = .ok (0, some ((c.byteAt i offset).signExtend 32), c) := by
  obtain ⟨x, hx⟩ := h.area
  exact libread_of_pgGetval hx (pgGetval_of_getpage h.getpage h.rdmflg h.hasFrame)

/-- `libwrite` sets the byte. -/
theorem ByteReady.libwrite (h : ByteReady c i offset) (v : Byte) :
    c.libwrite v (BitVec.ofNat 32 i) offset =
      .ok (0, { c with mram := c.mram.setByte (c.cellAt i offset) v }) := by
  obtain ⟨x, hx⟩ := h.area
  rw [libwrite_eq hx, pgSetval_of_getpage h.getpage h.rdmflg h.hasFrame]
  rfl

/-- The byte is still there to be read after a write, and it is the one written. -/
theorem ByteReady.setByte (h : ByteReady c i offset) (v : Byte) :
    ByteReady { c with mram := c.mram.setByte (c.cellAt i offset) v } i offset ∧
      byteAt { c with mram := c.mram.setByte (c.cellAt i offset) v } i offset = v :=
  ⟨⟨h.area, h.rdmflg, h.inRam, h.hasFrame⟩, Function.update_self ..⟩

end Mm.Pcb

/-- In a system that the processes can reach, every page in RAM can be read. -/
theorem Mm.Sound.byteReady {ι : Type} [Fintype ι] {F : Multiset Nat} {s : MemSystem ι}
    (hs : Sound F s) {p : ι} {i : Rgid} {offset : BitVec 32} (h : (s.mm p).InRam i offset) :
    (s.pcb p).ByteReady i offset where
  area := by
    obtain ⟨area, hvma⟩ := MmStruct.getVmaByNum_of_vmIds (hs.vmIds p)
    exact ⟨_, hvma⟩
  rdmflg := hs.rdmflg
  inRam := h
  hasFrame := hs.hasFrame_of_resident h

namespace Machine

variable {π : Type} [DecidableEq π] {pid : π → BitVec 32} {m : Machine π} {p : π}

/-- What a `READ` at `pc` is for: `run` succeeds, `regs[d]` is the value afterwards, and the other
registers, memory and the programs are as before. -/
def Delivers (pid : π → BitVec 32) (m : Machine π) (p : π) (d : Fin 10) (value : BitVec 32) : Prop :=
  ∃ m', m.run pid p = .ok (0, m') ∧ m'.regs p d = value ∧
    (∀ q e, (q, e) ≠ (p, d) → m'.regs q e = m.regs q e) ∧ m'.mem = m.mem ∧ m'.code = m.code

/-- A `WRITE` at `pc`, followed by what comes next, leaves the value in `regs[d]`. -/
def DeliversWritten (pid : π → BitVec 32) (m : Machine π) (p : π) (d : Fin 10) (value : BitVec 32) :
    Prop :=
  ∃ m₁ m₂, m.run pid p = .ok (0, m₁) ∧ m₁.run pid p = .ok (0, m₂) ∧ m₂.regs p d = value

/-- A `READ` of a byte in RAM only moves `pc` on. -/
theorem run_read (pid : π → BitVec 32) {i : Rgid} {offset d a3 : BitVec 32}
    (hfetch : m.fetch p = some ⟨.read, BitVec.ofNat 32 i, offset, d, a3⟩)
    (hready : (m.mem.pcb p).ByteReady i offset) : m.run pid p = .ok (0, m.advance p) := by
  have hexec : (m.advance p).execute pid p ⟨.read, BitVec.ofNat 32 i, offset, d, a3⟩ =
      .ok (0, (m.advance p).withPcb p (m.mem.pcb p)) :=
    execute_read rfl hready.libread
  rw [run_of_fetch hfetch, hexec, withPcb, show m.mem.pcb p = (m.advance p).mem.pcb p from rfl,
    MemSystem.withPcb_pcb]

/-- A `WRITE` to a byte in RAM sets it. -/
theorem run_write (pid : π → BitVec 32) {i : Rgid} {v offset a3 : BitVec 32}
    (hfetch : m.fetch p = some ⟨.write, v, BitVec.ofNat 32 i, offset, a3⟩)
    (hready : (m.mem.pcb p).ByteReady i offset) :
    m.run pid p = .ok (0, (m.advance p).withPcb p
      { m.mem.pcb p with
        mram := m.mem.mram.setByte ((m.mem.pcb p).cellAt i offset) (v.setWidth 8) }) := by
  rw [run_of_fetch hfetch]
  exact execute_write (m := m.advance p) rfl (hready.libwrite (v.setWidth 8))

theorem delivers_iff {i : Rgid} {offset a3 : BitVec 32} {d : Fin 10}
    (hready : (m.mem.pcb p).ByteReady i offset)
    (hfetch : m.fetch p = some ⟨.read, BitVec.ofNat 32 i, offset, BitVec.ofNat 32 d, a3⟩) :
    Delivers pid m p d (((m.mem.pcb p).byteAt i offset).signExtend 32) ↔
      m.regs p d = ((m.mem.pcb p).byteAt i offset).signExtend 32 := by
  have hrun := run_read pid hfetch hready
  constructor
  · rintro ⟨m', hrun', hvalue, -⟩
    cases hrun.symm.trans hrun'
    exact hvalue
  · intro hvalue
    exact ⟨_, hrun, hvalue, fun _ _ _ => rfl, rfl, rfl⟩

theorem deliversWritten_iff {i : Rgid} {v offset a3 b3 : BitVec 32} {d : Fin 10}
    (hready : (m.mem.pcb p).ByteReady i offset)
    (hfetch : m.fetch p = some ⟨.write, v, BitVec.ofNat 32 i, offset, a3⟩)
    (hnext : (m.advance p).fetch p =
      some ⟨.read, BitVec.ofNat 32 i, offset, BitVec.ofNat 32 d, b3⟩) :
    DeliversWritten pid m p d ((v.setWidth 8).signExtend 32) ↔
      m.regs p d = (v.setWidth 8).signExtend 32 := by
  have hrun := run_write pid hfetch hready
  -- the byte is still in RAM for the `READ`
  have hready' : (((m.advance p).withPcb p { m.mem.pcb p with
      mram := m.mem.mram.setByte ((m.mem.pcb p).cellAt i offset) (v.setWidth 8) }).mem.pcb p).ByteReady
      i offset := by
    rw [withPcb_mem, MemSystem.pcb_withPcb]
    exact (hready.setByte _).1
  have hrun' := run_read pid (m := (m.advance p).withPcb p _) hnext hready'
  constructor
  · rintro ⟨m₁, m₂, hm₁, hm₂, hvalue⟩
    cases hrun.symm.trans hm₁
    cases hrun'.symm.trans hm₂
    exact hvalue
  · intro hvalue
    exact ⟨_, _, hrun, hrun', hvalue⟩

/-- **A `READ` delivers its byte exactly if the register holds it already.** The byte is in RAM, at
any offset of any region, and the destination is any register. The same holds of a `READ` after a
`WRITE` to the same place, and the byte that was written. -/
theorem read_delivers_iff {i : Rgid} {offset : BitVec 32} (d : Fin 10)
    (hready : (m.mem.pcb p).ByteReady i offset) :
    (∀ a3, m.fetch p = some ⟨.read, BitVec.ofNat 32 i, offset, BitVec.ofNat 32 d, a3⟩ →
        (Delivers pid m p d (((m.mem.pcb p).byteAt i offset).signExtend 32) ↔
          m.regs p d = ((m.mem.pcb p).byteAt i offset).signExtend 32)) ∧
      ∀ v a3 b3, m.fetch p = some ⟨.write, v, BitVec.ofNat 32 i, offset, a3⟩ →
        (m.advance p).fetch p = some ⟨.read, BitVec.ofNat 32 i, offset, BitVec.ofNat 32 d, b3⟩ →
        (DeliversWritten pid m p d ((v.setWidth 8).signExtend 32) ↔
          m.regs p d = (v.setWidth 8).signExtend 32) :=
  ⟨fun _ hfetch => delivers_iff hready hfetch,
    fun _ _ _ hfetch hnext => deliversWritten_iff hready hfetch hnext⟩

/-- A process with the byte 80 in its region 1, and a program that writes 81 there and reads it into
register 5. -/
def readDemo : Machine Unit where
  sched := Sched.initScheduler
  mem :=
    { mm := fun _ =>
        { freshMm.mapPage (pagingPgn 0) 0 with
          symrgtbl := Function.update freshMm.symrgtbl rgidOne ⟨0, 3⟩ }
      mram := { oneFrame.setByte 0 80 with freeFpList := [] }
      activeMswp := fourFrames }
  regs := fun _ _ => 0
  pc := fun _ => 0
  code := fun _ => [⟨.write, 81, 1, 0, 0⟩, ⟨.read, 1, 0, 5, 0⟩]

theorem readDemo_ready (m : Machine Unit) (h : m.mem = readDemo.mem) :
    (m.mem.pcb ()).ByteReady rgidOne 0 := by
  rw [h]
  exact ⟨⟨_, rfl⟩, rfl, by decide, by decide⟩

theorem read_delivers_iff_readDemo :
    (Delivers (fun _ => 1) (readDemo.advance ()) () 5 80 ↔ readDemo.regs () 5 = 80) ∧
      (DeliversWritten (fun _ => 1) readDemo () 5 81 ↔ readDemo.regs () 5 = 81) :=
  ⟨(read_delivers_iff (m := readDemo.advance ()) 5 (readDemo_ready _ rfl)).1 0 rfl,
    (read_delivers_iff 5 (readDemo_ready readDemo rfl)).2 81 0 0 rfl rfl⟩

/-- Register 5 is 0, and gets neither the byte in memory nor the one that was written before. -/
theorem read_leaves_register :
    ¬ Delivers (fun _ => 1) (readDemo.advance ()) () 5
        (((readDemo.mem.pcb ()).byteAt rgidOne 0).signExtend 32) ∧
      ¬ DeliversWritten (fun _ => 1) readDemo () 5 (((81 : BitVec 32).setWidth 8).signExtend 32) := by
  have hready := readDemo_ready readDemo rfl
  rw [deliversWritten_iff (i := rgidOne) hready rfl rfl]
  rw [show readDemo.mem.pcb () = (readDemo.advance ()).mem.pcb () from rfl,
    delivers_iff (m := readDemo.advance ()) (i := rgidOne) hready rfl]
  decide

end Machine

end Ossim
