import Ossim.Syscall.Killall

/-!
# Executing an instruction (`cpu.c`, `libstd.c`, `syscall.c`)

`run` fetches the instruction at `pc` into a local variable, moves `pc` on, and calls the operation
for the opcode. A `Machine` is everything an instruction can reach: the scheduler, the memory of all
processes, and of every process the registers, `pc` and the program.

The build has `MM_PAGING`, so the memory instructions go to `libmem.c`. Their arguments are numbers
of regions, not of registers, and no operation there gets to see `regs`. `READ` takes the address of
its third argument for a destination, which is a field of the local copy of the instruction.

`mem_execute` is the link to `Ossim.Mm`: what an instruction does to memory is its `MemOp`.
-/

namespace Ossim

open Mm

/-- What an instruction of one process can reach. -/
structure Machine (π : Type) where
  sched : Sched π
  mem : MemSystem π
  regs : π → Fin 10 → BitVec 32
  pc : π → Nat
  code : π → List Inst

namespace Machine

variable {π : Type} [DecidableEq π]

/-- The machine after process `p` has changed what it sees of memory. -/
def withPcb (m : Machine π) (p : π) (c : Pcb) : Machine π := { m with mem := m.mem.withPcb p c }

@[simp] theorem withPcb_mem (m : Machine π) (p : π) (c : Pcb) :
    (m.withPcb p c).mem = m.mem.withPcb p c := rfl

@[simp] theorem withPcb_regs (m : Machine π) (p : π) (c : Pcb) : (m.withPcb p c).regs = m.regs := rfl

@[simp] theorem withPcb_pc (m : Machine π) (p : π) (c : Pcb) : (m.withPcb p c).pc = m.pc := rfl

@[simp] theorem withPcb_code (m : Machine π) (p : π) (c : Pcb) : (m.withPcb p c).code = m.code := rfl

/-- The number of `sys_listsyscall`. -/
def sysListsyscallNr : BitVec 32 := 0

/-- The number of `sys_killall`. -/
def sysKillallNr : BitVec 32 := 101

/-- The number of `sys_xxxhandler`. -/
def sysXxxhandlerNr : BitVec 32 := 440

/-- `syscall`: the table, and `__sys_ni_syscall` for the rest. Two of the handlers only print. -/
def syscall (pid : π → BitVec 32) (m : Machine π) (caller : π) (nr : BitVec 32) (regs : ScRegs) :
    Exec (Int × Machine π) :=
  if nr = sysListsyscallNr then .ok (0, m)
  else if nr = MemOp.sysMemmapNr then do
    let (ret, _, c) ← (m.mem.pcb caller).sysMemmap regs
    return (ret, m.withPcb caller c)
  else if nr = sysKillallNr then do
    let (ret, s) ← sysKillall pid (fun p => (m.code p).length) ⟨m.sched, m.mem⟩ caller regs
    return (ret, { m with sched := s.sched, mem := s.mem })
  else if nr = sysXxxhandlerNr then .ok (0, m)
  else .ok (0, m)

/-- `libsyscall`. -/
def libsyscall (pid : π → BitVec 32) (m : Machine π) (caller : π) (syscallIdx a1 a2 a3 : BitVec 32) :
    Exec (Int × Machine π) :=
  m.syscall pid caller syscallIdx ⟨a1, a2, a3⟩

/-- The `switch` of `run`, with its status. -/
def execute (pid : π → BitVec 32) (m : Machine π) (p : π) (ins : Inst) : Exec (Int × Machine π) :=
  match ins.opcode with
  | .calc => .ok (1, m)
  | .alloc => do
    let (stat, c) ← (m.mem.pcb p).liballoc ins.arg0 ins.arg1
    return (stat, m.withPcb p c)
  | .free => do
    let (stat, c) ← (m.mem.pcb p).libfree ins.arg0
    return (stat, m.withPcb p c)
  | .read => do
    let (stat, destination, c) ← (m.mem.pcb p).libread ins.arg0 ins.arg1
    -- `*destination` is `ins.arg_2`, and `ins` is not used again
    let _ins := { ins with arg2 := destination.getD ins.arg2 }
    return (stat, m.withPcb p c)
  | .write => do
    let (stat, c) ← (m.mem.pcb p).libwrite (ins.arg0.setWidth 8) ins.arg1 ins.arg2
    return (stat, m.withPcb p c)
  | .syscall => m.libsyscall pid p ins.arg0 ins.arg1 ins.arg2 ins.arg3

/-- The instruction at `pc`. -/
def fetch (m : Machine π) (p : π) : Option Inst := (m.code p)[m.pc p]?

/-- `proc->pc++`. -/
def advance (m : Machine π) (p : π) : Machine π :=
  { m with pc := Function.update m.pc p (m.pc p + 1) }

@[simp] theorem advance_mem (m : Machine π) (p : π) : (m.advance p).mem = m.mem := rfl

@[simp] theorem advance_regs (m : Machine π) (p : π) : (m.advance p).regs = m.regs := rfl

@[simp] theorem advance_code (m : Machine π) (p : π) : (m.advance p).code = m.code := rfl

/-- `run`. -/
def run (pid : π → BitVec 32) (m : Machine π) (p : π) : Exec (Int × Machine π) :=
  match m.fetch p with
  | none => .ok (1, m)
  | some ins => (m.advance p).execute pid p ins

variable {pid : π → BitVec 32} {m m' : Machine π} {p : π} {ins : Inst} {stat : Int}

theorem run_of_fetch (h : m.fetch p = some ins) :
    m.run pid p = (m.advance p).execute pid p ins := by
  unfold run
  rw [h]

/-- `READ` changes what the process sees of memory, and nothing else. -/
theorem execute_read {c : Pcb} {destination : Option (BitVec 32)} (hop : ins.opcode = .read)
    (h : (m.mem.pcb p).libread ins.arg0 ins.arg1 = .ok (stat, destination, c)) :
    m.execute pid p ins = .ok (stat, m.withPcb p c) := by
  unfold execute
  simp only [hop, h]
  rfl

theorem execute_write {c : Pcb} (hop : ins.opcode = .write)
    (h : (m.mem.pcb p).libwrite (ins.arg0.setWidth 8) ins.arg1 ins.arg2 = .ok (stat, c)) :
    m.execute pid p ins = .ok (stat, m.withPcb p c) := by
  unfold execute
  simp only [hop, h]
  rfl

/-- **What an instruction does to memory is its memory operation**, and it does nothing else. -/
theorem mem_execute {op : MemOp} (hop : MemOp.ofInst ins = some op)
    (h : m.execute pid p ins = .ok (stat, m')) :
    MemSystem.Step m.mem (p, op) m'.mem ∧ m' = { m with mem := m'.mem } := by
  have hdone : ∀ c, op.exec (m.mem.pcb p) = .ok c → m' = m.withPcb p c →
      MemSystem.Step m.mem (p, op) m'.mem ∧ m' = { m with mem := m'.mem } := by
    rintro c hexec rfl
    exact ⟨MemSystem.step_of_exec hexec, rfl⟩
  unfold execute at h
  unfold MemOp.ofInst at hop
  cases hcode : ins.opcode with
  | alloc =>
      simp only [hcode, Option.some.injEq] at h hop
      obtain ⟨⟨r, c⟩, hcall, hret⟩ := Exec.bind_eq_ok.mp h
      cases hret
      subst hop
      exact hdone c (MemOp.Call.alloc hcall).exec rfl
  | free =>
      simp only [hcode, Option.some.injEq] at h hop
      obtain ⟨⟨r, c⟩, hcall, hret⟩ := Exec.bind_eq_ok.mp h
      cases hret
      subst hop
      exact hdone c (MemOp.Call.free hcall).exec rfl
  | read =>
      simp only [hcode, Option.some.injEq] at h hop
      obtain ⟨⟨r, destination, c⟩, hcall, hret⟩ := Exec.bind_eq_ok.mp h
      cases hret
      subst hop
      exact hdone c (MemOp.Call.read hcall).exec rfl
  | write =>
      simp only [hcode, Option.some.injEq] at h hop
      obtain ⟨⟨r, c⟩, hcall, hret⟩ := Exec.bind_eq_ok.mp h
      cases hret
      subst hop
      exact hdone c (MemOp.Call.write hcall).exec rfl
  | syscall =>
      simp only [hcode] at h hop
      split at hop
      · next hnr =>
        cases hop
        have hlist : ¬ ins.arg0 = sysListsyscallNr := by
          rw [hnr]
          decide
        unfold libsyscall syscall at h
        rw [if_neg hlist, if_pos hnr] at h
        obtain ⟨⟨r, regs, c⟩, hcall, hret⟩ := Exec.bind_eq_ok.mp h
        cases hret
        exact hdone c (MemOp.Call.memmap hcall).exec rfl
      · cases hop
  | _ =>
      -- `CALC`
      rw [hcode] at hop
      cases hop

end Machine

end Ossim
