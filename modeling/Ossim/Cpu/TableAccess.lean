import Ossim.Cpu.Run
import Ossim.Library.Logged

/-!
# The accesses of `run` to the region table

The operations that reach `symrgtbl`, once more, with a log of the pointers into the table that they
follow. A pointer is the result of `get_symrg_byid` or the address of an entry by its number, `none`
for `NULL`. Only `Traced.access` touches the table, and everything else is lifted. The one read that is not
in the log is the one of the report that `liballoc` prints: it is of `symrgtbl[reg_index]`, the entry
that `__alloc` has written just before, so its pointer is in the log already.

`Traced.result_run` says that without the log this is `run`. A pointer that is not to an entry ends
the program (`Traced.run_error_of_access`).
-/

namespace Ossim

open Mm

/-- The pointer is to an entry of `symrgtbl`. -/
def InTable (ptr : Option Nat) : Prop := ∃ n, ptr = some n ∧ n < pagingMaxSymtblSz

/-- C code, with the log of the pointers into `symrgtbl` that it follows. -/
abbrev Traced (α : Type) := Logged (fun ptr => ¬ InTable ptr) Fault α

namespace Traced

theorem error_of_not_inTable {ptr : Option Nat} (h : ¬ InTable ptr) :
    ∃ e, (do symIndex (← deref ptr) : Exec Rgid) = .error e := by
  cases ptr with
  | none => exact ⟨_, rfl⟩
  | some n => exact ⟨_, dif_neg fun hn => h ⟨n, rfl, hn⟩⟩

/-- Following a pointer into the table. -/
def access (ptr : Option Nat) : Traced Rgid :=
  .emit ptr (do symIndex (← deref ptr)) error_of_not_inTable

/-! ## Regions -/

/-- `Pcb.allocAtBrk`. -/
def allocAtBrk (c : Pcb) (vmaid rgid size : BitVec 32) (k : Nat) (curVma : VmArea) :
    Traced (Int × Pcb) := do
  let incSz := pagingPageAlignsz size
  let oldSbrk := curVma.sbrk.setWidth 32
  let i ← access (some rgid.toNat)
  let rg : VmRg := ⟨oldSbrk.signExtend 64, (oldSbrk + size).signExtend 64⟩
  let c := { c with mm := c.mm.setSymrg i rg }
  let (ret, c) ←
    (if curVma.vmEnd - rg.rgStart + 1 < incSz.signExtend 64 then do
      let (ret, _, c) ← .lift (c.sysMemmap ⟨sysmemIncOp, vmaid, incSz⟩)
      return (ret, c)
    else return (0, c) : Traced (Int × Pcb))
  if ret < 0 then return (-1, c)
  else do
    let curVma ← .lift (deref c.mm.mmap[k]?)
    if rg.rgEnd < curVma.sbrk then do
      let (_, mm) ← .lift (c.mm.enlistVmFreergList ⟨rg.rgEnd, curVma.sbrk⟩)
      return (0, { c with mm := mm })
    else return (0, c)

/-- `__alloc`. -/
def alloc (c : Pcb) (vmaid rgid size : BitVec 32) : Traced (Int × Pcb) := do
  let (rgnode, mm) ← .lift (c.mm.getFreeVmrgArea vmaid size)
  match rgnode with
  | some rgnode => do
    let i ← access (some rgid.toNat)
    return (0, { c with mm := mm.setSymrg i rgnode })
  | none => do
    let vma ← .lift (c.mm.getVmaByNum vmaid)
    let (k, curVma) ← .lift (deref vma)
    allocAtBrk c vmaid rgid size k curVma

/-- `__free`. -/
def free (c : Pcb) (vmaid rgid : BitVec 32) : Traced (Int × Pcb) :=
  if rgid.toInt < 0 ∨ (pagingMaxSymtblSz : Int) ≤ rgid.toInt then return (-1, c)
  else do
    let i ← access (some rgid.toNat)
    let rg := c.mm.symrgtbl i
    if rg.rgEnd ≤ rg.rgStart then return (-1, c)
    else do
      let vma ← .lift (c.mm.getVmaByNum vmaid)
      let (k, vma) ← .lift (deref vma)
      let (newrg, left) := coalesce rg vma.vmFreergList
      let mm := c.mm.setVma k { vma with vmFreergList := newrg :: left }
      return (0, { c with mm := mm.setSymrg i ⟨0, 0⟩ })

/-- `liballoc`. -/
def liballoc (c : Pcb) (size regIndex : BitVec 32) : Traced (Int × Pcb) := do
  let (val, c) ← alloc c 0 regIndex size
  let vma ← .lift (c.mm.getVmaByNum 0)
  let _ ← .lift (deref vma)
  return (val, c)

/-- `libfree`. -/
def libfree (c : Pcb) (regIndex : BitVec 32) : Traced (Int × Pcb) := do
  let (valFree, c) ← free c 0 regIndex
  let vma ← .lift (c.mm.getVmaByNum 0)
  let _ ← .lift (deref vma)
  return (valFree, c)

/-- `__read`. -/
def read (c : Pcb) (vmaid rgid offset : BitVec 32) : Traced (Int × Option Byte × Pcb) := do
  let currg := MmStruct.getSymrgByid rgid
  let curVma ← .lift (c.mm.getVmaByNum vmaid)
  if currg = none ∨ curVma = none then return (-1, none, c)
  else do
    let i ← access currg
    let addr := ((c.mm.symrgtbl i).rgStart + offset.signExtend 64).setWidth 32
    let (_, data, c) ← .lift (c.pgGetval addr)
    return (0, data, c)

/-- `libread`. -/
def libread (c : Pcb) (source offset : BitVec 32) : Traced (Int × Option (BitVec 32) × Pcb) := do
  let (val, data, c) ← read c 0 source offset
  if val = 0 then do
    let data ← .lift (assigned data)
    return (val, some (data.signExtend 32), c)
  else return (val, none, c)

/-- `__write`. -/
def write (c : Pcb) (vmaid rgid offset : BitVec 32) (value : Byte) : Traced (Int × Pcb) := do
  let currg := MmStruct.getSymrgByid rgid
  let curVma ← .lift (c.mm.getVmaByNum vmaid)
  if currg = none ∨ curVma = none then return (-1, c)
  else do
    let i ← access currg
    let addr := ((c.mm.symrgtbl i).rgStart + offset.signExtend 64).setWidth 32
    let (_, c) ← .lift (c.pgSetval addr value)
    return (0, c)

/-- `libwrite`. -/
def libwrite (c : Pcb) (data : Byte) (destination offset : BitVec 32) : Traced (Int × Pcb) := do
  let _ ← access (MmStruct.getSymrgByid destination)
  write c 0 destination offset data

/-! ### Without the log -/

theorem result_access (ptr : Option Nat) : (access ptr).result = deref ptr >>= symIndex := rfl

theorem result_allocAtBrk (c : Pcb) (vmaid rgid size : BitVec 32) (k : Nat) (curVma : VmArea) :
    (allocAtBrk c vmaid rgid size k curVma).result = c.allocAtBrk vmaid rgid size k curVma := by
  unfold allocAtBrk Pcb.allocAtBrk
  simp only [Logged.result_bind, Logged.result_ite]
  rfl

theorem result_alloc (c : Pcb) (vmaid rgid size : BitVec 32) :
    (alloc c vmaid rgid size).result = c.alloc vmaid rgid size := by
  unfold alloc Pcb.alloc
  simp only [Logged.result_bind, Logged.result_lift]
  apply bind_congr
  rintro ⟨rgnode, mm⟩
  cases rgnode with
  | some rgnode => rfl
  | none =>
      simp only [Logged.result_bind, result_allocAtBrk]
      rfl

theorem result_liballoc (c : Pcb) (size regIndex : BitVec 32) :
    (liballoc c size regIndex).result = c.liballoc size regIndex := by
  unfold liballoc Pcb.liballoc
  rw [Logged.result_bind, result_alloc]
  rfl

theorem result_free (c : Pcb) (vmaid rgid : BitVec 32) :
    (free c vmaid rgid).result = c.free vmaid rgid := by
  unfold free Pcb.free
  simp only [Logged.result_ite, Logged.result_bind]
  rfl

theorem result_read (c : Pcb) (vmaid rgid offset : BitVec 32) :
    (read c vmaid rgid offset).result = c.read vmaid rgid offset := by
  unfold read Pcb.read
  simp only [Logged.result_ite, Logged.result_bind, result_access, bind_assoc]
  rfl

theorem result_libread (c : Pcb) (source offset : BitVec 32) :
    (libread c source offset).result = c.libread source offset := by
  unfold libread Pcb.libread
  rw [Logged.result_bind, result_read]
  apply bind_congr
  rintro ⟨val, data, c⟩
  simp only [Logged.result_ite]
  rfl

theorem result_write (c : Pcb) (vmaid rgid offset : BitVec 32) (value : Byte) :
    (write c vmaid rgid offset value).result = c.write vmaid rgid offset value := by
  unfold write Pcb.write
  simp only [Logged.result_ite, Logged.result_bind, result_access, bind_assoc]
  rfl

theorem result_libwrite (c : Pcb) (data : Byte) (destination offset : BitVec 32) :
    (libwrite c data destination offset).result = c.libwrite data destination offset := by
  unfold libwrite Pcb.libwrite
  simp only [Logged.result_bind, result_access, bind_assoc, result_write]

theorem result_libfree (c : Pcb) (regIndex : BitVec 32) :
    (libfree c regIndex).result = c.libfree regIndex := by
  unfold libfree Pcb.libfree
  rw [Logged.result_bind, result_free]
  rfl

/-! ## Killing processes by name -/

/-- `Pcb.readName`. -/
def readName (memrg : BitVec 32) : Nat → Pcb → List Byte → BitVec 32 → Traced (List Byte × Pcb)
  | 0, c, procName, _ => do
    let procName ← .lift (putChar procName 0)
    return (procName, c)
  | n + 1, c, procName, data =>
    if data = -1 then return (procName, c)
    else do
      let (_, destination, c) ← libread c memrg (BitVec.ofNat 32 procName.length)
      let data := destination.getD data
      let procName ← .lift (putChar procName (if data = -1 then 0 else data.setWidth 8))
      readName memrg n c procName data

section killall

variable {π : Type} [DecidableEq π]

/-- `libfree(p, memrg); free_pcb_memph(p);`. -/
def killMem (m : MemSystem π) (p : π) (memrg : BitVec 32) : Traced (MemSystem π) := do
  let (_, c) ← libfree (m.pcb p) memrg
  return m.withPcb p c.freePcbMemph

/-- `Ossim.killLoop`. -/
def killLoop (pid : π → BitVec 32) (procName : List Byte) (memrg : BitVec 32) :
    Nat → Nat → Queue π → MemSystem π → Traced (Queue π × MemSystem π)
  | 0, _, q, m => return (q, m)
  | n + 1, idx, q, m => do
    let p ← .lift (deref (q.proc idx))
    if pidName (pid p) = cString procName then do
      let m ← killMem m p memrg
      let q ← .lift (q.removeFromQueue idx)
      killLoop pid procName memrg n idx q m
    else killLoop pid procName memrg n (idx + 1) q m

/-- `__sys_killall`. -/
def sysKillall (pid : π → BitVec 32) (codeSize : π → Nat) (s : KillState π) (caller : π)
    (regs : ScRegs) : Traced (Int × KillState π) := do
  let memrg := regs.a1
  let (procName, c) ← readName memrg (codeSize caller + 1) (s.mem.pcb caller) [] 0
  let mem := s.mem.withPcb caller c
  let queue := s.sched.mlqReadyQueue Os.levelZero
  let rlist := s.sched.runningList
  let (queue, mem) ← killLoop pid procName memrg queue.size 0 queue mem
  let (rlist, mem) ← killLoop pid procName memrg rlist.size 0 rlist mem
  return (0,
    { sched := { s.sched with
        mlqReadyQueue := Function.update s.sched.mlqReadyQueue Os.levelZero queue
        runningList := rlist }
      mem := mem })

end killall

theorem result_readName (memrg : BitVec 32) (n : Nat) (c : Pcb) (procName : List Byte)
    (data : BitVec 32) :
    (readName memrg n c procName data).result = Pcb.readName memrg n c procName data := by
  induction n generalizing c procName data with
  | zero => rfl
  | succ n ih =>
      unfold readName Pcb.readName
      simp only [Logged.result_ite, Logged.result_bind, result_libread, ih]
      rfl

section killall

variable {π : Type} [DecidableEq π] {pid : π → BitVec 32}

theorem result_killMem (m : MemSystem π) (p : π) (memrg : BitVec 32) :
    (killMem m p memrg).result = m.killMem p memrg := by
  unfold killMem MemSystem.killMem
  rw [Logged.result_bind, result_libfree]
  rfl

theorem result_killLoop (procName : List Byte) (memrg : BitVec 32) (n idx : Nat) (q : Queue π)
    (m : MemSystem π) :
    (killLoop pid procName memrg n idx q m).result =
      Ossim.killLoop pid procName memrg n idx q m := by
  induction n generalizing idx q m with
  | zero => rfl
  | succ n ih =>
      unfold killLoop Ossim.killLoop
      simp only [Logged.result_ite, Logged.result_bind, Logged.result_lift, result_killMem, ih]

theorem result_sysKillall (codeSize : π → Nat) (s : KillState π) (caller : π) (regs : ScRegs) :
    (sysKillall pid codeSize s caller regs).result =
      Ossim.sysKillall pid codeSize s caller regs := by
  unfold sysKillall Ossim.sysKillall
  simp only [Logged.result_bind, result_readName, result_killLoop]
  rfl

end killall

/-! ## The instructions -/

section run

variable {π : Type} [DecidableEq π] (pid : π → BitVec 32) (m : Machine π) (p : π)

/-- `Machine.syscall`. -/
def syscall (nr : BitVec 32) (regs : ScRegs) : Traced (Int × Machine π) :=
  if nr = Machine.sysListsyscallNr then return (0, m)
  else if nr = MemOp.sysMemmapNr then do
    let (ret, _, c) ← .lift ((m.mem.pcb p).sysMemmap regs)
    return (ret, m.withPcb p c)
  else if nr = Machine.sysKillallNr then do
    let (ret, s) ← sysKillall pid (fun p => (m.code p).length) ⟨m.sched, m.mem⟩ p regs
    return (ret, { m with sched := s.sched, mem := s.mem })
  else if nr = Machine.sysXxxhandlerNr then return (0, m)
  else return (0, m)

/-- The `switch` of `run`. -/
def execute (ins : Inst) : Traced (Int × Machine π) :=
  match ins.opcode with
  | .calc => return (1, m)
  | .alloc => do
    let (stat, c) ← liballoc (m.mem.pcb p) ins.arg0 ins.arg1
    return (stat, m.withPcb p c)
  | .free => do
    let (stat, c) ← libfree (m.mem.pcb p) ins.arg0
    return (stat, m.withPcb p c)
  | .read => do
    let (stat, _, c) ← libread (m.mem.pcb p) ins.arg0 ins.arg1
    return (stat, m.withPcb p c)
  | .write => do
    let (stat, c) ← libwrite (m.mem.pcb p) (ins.arg0.setWidth 8) ins.arg1 ins.arg2
    return (stat, m.withPcb p c)
  | .syscall => syscall pid m p ins.arg0 ⟨ins.arg1, ins.arg2, ins.arg3⟩

/-- `Machine.run`. -/
def run : Traced (Int × Machine π) :=
  match m.fetch p with
  | none => return (1, m)
  | some ins => execute pid (m.advance p) p ins

variable {pid m p}

theorem result_syscall (nr : BitVec 32) (regs : ScRegs) :
    (syscall pid m p nr regs).result = m.syscall pid p nr regs := by
  unfold syscall Machine.syscall
  simp only [Logged.result_ite, Logged.result_bind, result_sysKillall]
  rfl

theorem result_execute (ins : Inst) : (execute pid m p ins).result = m.execute pid p ins := by
  unfold execute Machine.execute
  cases ins.opcode with
  | alloc =>
      simp only [Logged.result_bind, result_liballoc]
      rfl
  | free =>
      simp only [Logged.result_bind, result_libfree]
      rfl
  | read =>
      simp only [Logged.result_bind, result_libread]
      rfl
  | write =>
      simp only [Logged.result_bind, result_libwrite]
      rfl
  | syscall => exact result_syscall _ _
  | _ => rfl

/-- **Without the log, this is `run`.** -/
theorem result_run : (run pid m p).result = m.run pid p := by
  unfold run Machine.run
  cases m.fetch p with
  | none => rfl
  | some ins => exact result_execute ins

/-- **A pointer that is followed and not in the table ends the program.** -/
theorem run_error_of_access {ptr : Option Nat} (h : ptr ∈ (run pid m p).log) (hout : ¬ InTable ptr) :
    ∃ e, m.run pid p = .error e := by
  rw [← result_run]
  exact (run pid m p).ends ptr h hout

end run

end Traced

end Ossim
