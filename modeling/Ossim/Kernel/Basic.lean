import Ossim.Cpu.RegionTable
import Ossim.Os.Ownership

/-!
# The whole simulator (`os.c`, `cpu.c`, `loader.c`, `sys_killall.c`)

`Os` has the threads and leaves out what an instruction does; `Machine` has the instruction and leaves
out the threads. A `Kernel` is both: a CPU that is inside `run` executes the instruction that it has
fetched on the memory that all processes share, and the loader gives a process its address space. The
removals of `killall`, which are actions of their own in `Os`, happen here when a process calls it, to
whom it names.

An instruction is one action here, with its whole memory operation or, of a `killall`, with both of its
loops. On one CPU this is what happens. On several it leaves out interleavings that the code allows:
`mmvm_lock` in `libmem.c` is never taken, so two memory operations can overlap (two allocations can take
the same frame off the free list), and `remove_from_queue` moves the entries of a queue without
`queue_lock`, while another CPU may be in `get_proc`. The results about `Kernel` are about the runs in
which the instructions of different CPUs do not overlap.

Every run of the kernel is a run of `Os` (`runs_os`), with the removals in between.
-/

namespace Ossim

open Mm

/-- The threads, and what their processes reach. -/
structure Kernel (cfg : Config) where
  os : Os cfg
  mem : MemSystem Nat
  regs : Nat → Fin 10 → BitVec 32

/-- An action of a thread, or of the timer. -/
inductive KernelAct (cfg : Config) where
  | cpu (c : Fin cfg.numCpus)
  | loader
  | tick
  deriving DecidableEq

/-- The action among those of `Os`. -/
def KernelAct.toAct {cfg : Config} : KernelAct cfg → Act cfg
  | .cpu c => .cpu c
  | .loader => .loader
  | .tick => .tick

namespace Kernel

variable {cfg : Config}

/-- `avail_pid` starts at 1, and a process gets its number when it is loaded. -/
def pid (p : Nat) : BitVec 32 := BitVec.ofNat 32 (p + 1)

/-- What an instruction can reach. -/
def machine (k : Kernel cfg) : Machine Nat := ⟨k.os.sched, k.mem, k.regs, k.os.pc, cfg.code⟩

/-- The kernel after an instruction. -/
def withMachine (k : Kernel cfg) (m : Machine Nat) : Kernel cfg :=
  ⟨{ k.os with sched := m.sched }, m.mem, m.regs⟩

/-- One action of a CPU thread: inside `run` it executes the instruction, from its beginning to its end. -/
def cpuStep (k : Kernel cfg) (c : Fin cfg.numCpus) : Option (Kernel cfg) :=
  match (k.os.cpu c).phase, (k.os.cpu c).proc with
  | .exec ins, some p =>
    (k.os.cpuStep c).bind fun os =>
      match ({ k with os := os }.machine).execute pid p ins with
      | .error _ => none
      | .ok (_, m) => some ({ k with os := os }.withMachine m)
  | _, _ => (k.os.cpuStep c).map fun os => { k with os := os }

/-- `proc->mm = malloc(...); init_mm(proc->mm, proc);` for process `p`. -/
def bootMm (mem : MemSystem Nat) (p : Nat) (mm : MmStruct) : MemSystem Nat :=
  { mem with mm := Function.update mem.mm p mm }

/-- One action of the loader thread. `initMm` is what `init_mm` makes of the memory that `malloc`
returns for a process; this happens between the waiting for its start time and `add_proc`. -/
def ldStep (initMm : Nat → MmStruct) (k : Kernel cfg) : Option (Kernel cfg) :=
  (k.os.ldStep).map fun os =>
    match k.os.ld.phase, os.ld.phase with
    | .head, .addRunning =>
      { k with os := os, mem := bootMm k.mem k.os.ld.i (initMm k.os.ld.i) }
    | _, _ => { k with os := os }

/-- One atomic action. -/
def step (initMm : Nat → MmStruct) (k : Kernel cfg) : KernelAct cfg → Option (Kernel cfg)
  | .cpu c => k.cpuStep c
  | .loader => k.ldStep initMm
  | .tick => (k.os.tick).map fun os => { k with os := os }

/-- The step relation of the whole simulator. -/
def Step (initMm : Nat → MmStruct) (k : Kernel cfg) (a : KernelAct cfg) (k' : Kernel cfg) : Prop :=
  k.step initMm a = some k'

/-- The state when `main` has set up the devices and created the threads. -/
def init (cfg : Config) (mem : MemSystem Nat) (regs : Nat → Fin 10 → BitVec 32) : Kernel cfg :=
  ⟨Os.init cfg, mem, regs⟩

/-! ## What one action can do -/

/-- The kinds of actions: those that do not touch memory, loading, and executing. -/
inductive StepKind (initMm : Nat → MmStruct) (k : Kernel cfg) : KernelAct cfg → Kernel cfg → Prop
  | quiet {a : KernelAct cfg} {os : Os cfg} (hos : Os.Step k.os a.toAct os)
      (hexec : ∀ c, a = .cpu c → ∀ ins, (k.os.cpu c).phase ≠ .exec ins)
      (hboot : a = .loader → k.os.ld.phase = .head → os.ld.phase ≠ .addRunning) :
      StepKind initMm k a { k with os := os }
  | boot {os : Os cfg} (hos : Os.Step k.os .loader os) (hhead : k.os.ld.phase = .head)
      (hadd : os.ld.phase = .addRunning) :
      StepKind initMm k .loader
        { k with os := os, mem := bootMm k.mem k.os.ld.i (initMm k.os.ld.i) }
  | exec {c : Fin cfg.numCpus} {ins : Inst} {p : Nat} {os : Os cfg} {stat : Int} {m : Machine Nat}
      (hphase : (k.os.cpu c).phase = .exec ins) (hproc : (k.os.cpu c).proc = some p)
      (hos : Os.Step k.os (.cpu c) os)
      (hexec : ({ k with os := os }.machine).execute pid p ins = .ok (stat, m)) :
      StepKind initMm k (.cpu c) ({ k with os := os }.withMachine m)

variable {initMm : Nat → MmStruct} {k k' : Kernel cfg} {a : KernelAct cfg}

theorem cpuStep_cases {c : Fin cfg.numCpus} (h : k.cpuStep c = some k') :
    StepKind initMm k (.cpu c) k' := by
  unfold cpuStep at h
  split at h
  · next ins p hphase hproc =>
    obtain ⟨os, hos, hdone⟩ := Option.bind_eq_some_iff.mp h
    split at hdone
    · cases hdone
    · next stat m hexec =>
      cases hdone
      exact .exec hphase hproc hos hexec
  · next hnot =>
    obtain ⟨os, hos, rfl⟩ := Option.map_eq_some_iff.mp h
    refine .quiet hos (fun c' hc ins hphase => ?_) nofun
    cases hc
    -- a CPU that has fetched an instruction but holds nobody could not move
    cases hproc : (k.os.cpu c).proc with
    | some p => exact hnot ins p hphase hproc
    | none =>
        unfold Os.cpuStep at hos
        simp only [hphase, hproc] at hos
        cases hos

theorem ldStep_cases (h : k.ldStep initMm = some k') : StepKind initMm k .loader k' := by
  obtain ⟨os, hos, hk⟩ := Option.map_eq_some_iff.mp h
  split at hk
  · next hhead hadd =>
    subst hk
    exact .boot hos hhead hadd
  · next hnot =>
    subst hk
    exact .quiet hos nofun fun _ hhead hadd => hnot hhead hadd

theorem step_cases (h : Step initMm k a k') : StepKind initMm k a k' := by
  cases a with
  | cpu c => exact cpuStep_cases h
  | loader => exact ldStep_cases h
  | tick =>
      obtain ⟨os, hos, rfl⟩ := Option.map_eq_some_iff.mp h
      exact .quiet hos nofun nofun

/-! ## The kernel refines the threads -/

/-- Removing one entry of a queue. -/
def Removes {π : Type} (q : Queue π) (idx : Nat) (q' : Queue π) : Prop :=
  q.removeFromQueue idx = .ok q'

section killall

variable {π : Type} [DecidableEq π] {pid : π → BitVec 32} {procName : List Byte}

/-- A loop of `killall` removes entries one after another. -/
theorem removals_of_killLoop {memrg : BitVec 32} {n idx : Nat} {q q' : Queue π}
    {m m' : MemSystem π} (h : killLoop pid procName memrg n idx q m = .ok (q', m')) :
    ∃ idxs, Steps Removes q idxs q' := by
  induction n generalizing idx q m with
  | zero =>
      cases h
      exact ⟨[], .nil _⟩
  | succ n ih =>
      obtain ⟨p, -, hbody⟩ := Exec.bind_eq_ok.mp h
      split at hbody
      · obtain ⟨m₁, -, hrest⟩ := Exec.bind_eq_ok.mp hbody
        obtain ⟨q₁, hremove, hloop⟩ := Exec.bind_eq_ok.mp hrest
        obtain ⟨idxs, hrun⟩ := ih hloop
        exact ⟨idx :: idxs, hrun.cons hremove⟩
      · exact ih hbody

end killall

/-- The instruction calls `killall`. -/
def Kills (ins : Inst) : Prop := ins.opcode = .syscall ∧ ins.arg0 = Machine.sysKillallNr

instance (ins : Inst) : Decidable (Kills ins) := inferInstanceAs (Decidable (_ ∧ _))

/-- Without a memory operation and without `killall` an instruction does nothing. -/
theorem execute_of_none {m : Machine Nat} {p : Nat} {ins : Inst} (hop : MemOp.ofInst ins = none)
    (hkill : ¬ Kills ins) : ∃ stat, m.execute pid p ins = .ok (stat, m) := by
  unfold Machine.execute
  unfold MemOp.ofInst at hop
  cases hcode : ins.opcode with
  | alloc | free | read | write =>
      rw [hcode] at hop
      cases hop
  | syscall =>
      rw [hcode] at hop
      have hmemmap : ¬ ins.arg0 = MemOp.sysMemmapNr := fun hnr => by
        rw [if_pos hnr] at hop
        cases hop
      have hnr : ¬ ins.arg0 = Machine.sysKillallNr := fun hnr => hkill ⟨hcode, hnr⟩
      refine ⟨0, ?_⟩
      simp only [Machine.libsyscall, Machine.syscall, if_neg hmemmap, if_neg hnr]
      split
      · rfl
      · split <;> rfl
  | _ =>
      -- `CALC`
      exact ⟨1, rfl⟩

/-- What an instruction does to the scheduler: it removes entries of level 0 and of the running list. -/
theorem sched_of_execute {m m' : Machine Nat} {p : Nat} {ins : Inst} {stat : Int}
    (h : m.execute pid p ins = .ok (stat, m')) :
    ∃ q r idxs jdxs, Steps Removes (m.sched.mlqReadyQueue Os.levelZero) idxs q ∧
      Steps Removes m.sched.runningList jdxs r ∧
      m'.sched = { m.sched with
        mlqReadyQueue := Function.update m.sched.mlqReadyQueue Os.levelZero q
        runningList := r } := by
  have hsame : m'.sched = m.sched → ∃ q r idxs jdxs,
      Steps Removes (m.sched.mlqReadyQueue Os.levelZero) idxs q ∧
      Steps Removes m.sched.runningList jdxs r ∧
      m'.sched = { m.sched with
        mlqReadyQueue := Function.update m.sched.mlqReadyQueue Os.levelZero q
        runningList := r } := fun heq =>
    ⟨_, _, [], [], .nil _, .nil _, by rw [heq, Function.update_eq_self]⟩
  cases hop : MemOp.ofInst ins with
  | some op =>
      have hframe := (Machine.mem_execute hop h).2
      exact hsame (by rw [hframe])
  | none =>
      by_cases hkill : Kills ins
      · obtain ⟨hcode, hnr⟩ := hkill
        rw [Machine.execute_killall hcode hnr] at h
        obtain ⟨⟨ret, s⟩, hcall, hret⟩ := Exec.bind_eq_ok.mp h
        cases hret
        obtain ⟨⟨procName, c⟩, -, hloops⟩ := Exec.bind_eq_ok.mp hcall
        obtain ⟨⟨queue, mem⟩, hqueue, hrest⟩ := Exec.bind_eq_ok.mp hloops
        obtain ⟨⟨rlist, mem'⟩, hrlist, hdone⟩ := Exec.bind_eq_ok.mp hrest
        cases hdone
        obtain ⟨idxs, hidxs⟩ := removals_of_killLoop hqueue
        obtain ⟨jdxs, hjdxs⟩ := removals_of_killLoop hrlist
        exact ⟨queue, rlist, idxs, jdxs, hidxs, hjdxs, rfl⟩
      · obtain ⟨stat', hnothing⟩ := execute_of_none (m := m) (p := p) hop hkill
        cases h.symm.trans hnothing
        exact hsame rfl

/-- The removals, as actions of `Os`. -/
theorem steps_of_removals (os : Os cfg) {q r : Queue Nat} {idxs jdxs : List Nat}
    (hready : Steps Removes (os.sched.mlqReadyQueue Os.levelZero) idxs q)
    (hrunning : Steps Removes os.sched.runningList jdxs r) :
    Steps Os.Step os (idxs.map .killReady ++ jdxs.map .killRunning)
      { os with sched := { os.sched with
          mlqReadyQueue := Function.update os.sched.mlqReadyQueue Os.levelZero q
          runningList := r } } := by
  have hfirst : Steps Os.Step os (idxs.map .killReady)
      { os with sched := { os.sched with
          mlqReadyQueue := Function.update os.sched.mlqReadyQueue Os.levelZero q } } := by
    induction hready with
    | nil =>
        rw [Function.update_eq_self]
        exact .nil os
    | @snoc q₁ q₂ idxs idx _ hremove ih =>
        rw [List.map_append]
        refine .snoc ih ?_
        simp only [Os.Step, Os.step, Function.update_self, show q₁.removeFromQueue idx = .ok q₂ from hremove,
          Function.update_idem]
  refine hfirst.append ?_
  generalize hrl : os.sched.runningList = rl at hrunning
  induction hrunning with
  | nil =>
      rw [← hrl]
      exact .nil _
  | @snoc r₁ r₂ jdxs jdx _ hremove ih =>
      rw [List.map_append]
      refine .snoc ih ?_
      simp only [Os.Step, Os.step, show r₁.removeFromQueue jdx = .ok r₂ from hremove]

/-- An action of the threads, without the removals. -/
def ofAct : Act cfg → Option (KernelAct cfg)
  | .cpu c => some (.cpu c)
  | .loader => some .loader
  | .tick => some .tick
  | .killReady _ => none
  | .killRunning _ => none

@[simp] theorem ofAct_toAct (a : KernelAct cfg) : ofAct a.toAct = some a := by cases a <;> rfl

/-- **One action of the kernel** is the same action of `Os`, and then the removals of a `killall`. -/
theorem step_os (h : Step initMm k a k') :
    ∃ bs, Steps Os.Step k.os bs k'.os ∧ bs.filterMap ofAct = [a] := by
  have hone : ∀ {os}, Os.Step k.os a.toAct os →
      ∃ bs, Steps Os.Step k.os bs os ∧ bs.filterMap ofAct = [a] := fun hos =>
    ⟨[a.toAct], .cons hos (.nil _), by simp⟩
  cases step_cases h with
  | quiet hos => exact hone hos
  | boot hos => exact hone hos
  | @exec c ins p os stat m hphase hproc hos hexec =>
      obtain ⟨q, r, idxs, jdxs, hidxs, hjdxs, hsched⟩ := sched_of_execute hexec
      have hkills := steps_of_removals os hidxs hjdxs
      refine ⟨.cpu c :: (idxs.map .killReady ++ jdxs.map .killRunning), .cons hos ?_, ?_⟩
      · have hos' : ({ k with os := os }.withMachine m).os = { os with sched := m.sched } := rfl
        rw [hos', hsched]
        exact hkills
      · have hnone : ∀ (f : Nat → Act cfg), (∀ i, ofAct (f i) = none) → ∀ l : List Nat,
            (l.map f).filterMap ofAct = [] := fun f hf l => by
          rw [List.filterMap_map]
          exact List.filterMap_eq_nil_iff.mpr fun i _ => hf i
        rw [List.filterMap_cons, List.filterMap_append, hnone _ fun _ => rfl, hnone _ fun _ => rfl]
        rfl

/-- **Every run of the simulator is a run of its threads**, in which the removals of `killall` come
where a process calls it. -/
theorem runs_os {as : List (KernelAct cfg)} (hrun : Steps (Step initMm) k as k') :
    ∃ bs, Steps Os.Step k.os bs k'.os ∧ bs.filterMap ofAct = as := by
  refine hrun.invariant
    (motive := fun as k' => ∃ bs, Steps Os.Step k.os bs k'.os ∧ bs.filterMap ofAct = as)
    ⟨[], .nil _, rfl⟩ fun as t a u ⟨bs, hbs, hacts⟩ hstep => ?_
  obtain ⟨cs, hcs, hact⟩ := step_os hstep
  exact ⟨bs ++ cs, hbs.append hcs, by rw [List.filterMap_append, hacts, hact]⟩

variable {mem : MemSystem Nat} {regs : Nat → Fin 10 → BitVec 32}

/-- **The simulator refines its threads.** Whatever its processes do to memory and to each other, `killall`
included, a run of the simulator, in which every instruction is one action, is a run of the threads and the
timer in which entries of level 0 and of the running list are removed now and then. So a process is never
in two places at once, and its code is executed once and in order. -/
theorem refines_threads {as : List (KernelAct cfg)}
    (hrun : Steps (Step initMm) (init cfg mem regs) as k) :
    (∃ bs, Steps Os.Step (Os.init cfg) bs k.os ∧ bs.filterMap ofAct = as) ∧
      ∀ p, k.os.heldBy p + Os.queued k.os.sched p ≤ 1 ∧
        k.os.executed p = (cfg.code p).take (k.os.pc p) ∧ k.os.pc p ≤ (cfg.code p).length := by
  obtain ⟨bs, hbs, hacts⟩ := runs_os hrun
  have howned := Os.owned_of_steps hbs
  refine ⟨⟨bs, hbs, hacts⟩, fun p => ⟨?_, howned.executed_eq p, howned.pc_le p⟩⟩
  have hone := howned.one p
  unfold Os.places at hone
  omega

/-- Process 0 writes the name of process 1, and a byte `-1`, to its region 1. Then it kills it. -/
abbrev killer : Config where
  timeSlot := 10
  numCpus := 1
  numProcesses := 2
  startTime := fun _ => 0
  prio := fun p => 5 * p
  code := fun p => if p = 0 then
      [⟨.alloc, 100, 1, 0, 0⟩, ⟨.write, 80, 1, 0, 0⟩, ⟨.write, 50, 1, 1, 0⟩, ⟨.write, 255, 1, 2, 0⟩,
        ⟨.syscall, 101, 1, 0, 0⟩]
    else [⟨.calc, 0, 0, 0, 0⟩]

/-- Four slots in which the loader adds both processes and the CPU executes what writes the name, and
the call in the fifth slot. -/
def killerRun : List (KernelAct killer) :=
  List.replicate 4 .loader ++ List.replicate 5 (.cpu 0) ++ [.tick] ++
    List.replicate 4 .loader ++ List.replicate 5 (.cpu 0) ++ [.tick] ++
    List.replicate 2 .loader ++ List.replicate 5 (.cpu 0) ++ [.tick] ++
    List.replicate 5 (.cpu 0) ++ [.tick] ++ List.replicate 4 (.cpu 0)

/-- Process 1 waits at level 5, and is gone from the running list. -/
theorem refines_threads_killall :
    ∃ k : Kernel killer, Steps (Step fun _ => freshMm) (init killer
        ⟨fun _ => freshMm, fourFrames, oneFrame⟩ fun _ _ => 0) killerRun k ∧
      (k.os.sched.waiting ⟨5, by decide⟩ = [some 1] ∧ k.os.sched.runningList.entries = [some 0]) ∧
      (∃ bs, Steps Os.Step (Os.init killer) bs k.os ∧ bs.filterMap ofAct = killerRun) := by
  have hcheck : (Steps.exec (step fun _ => freshMm) (init killer
      ⟨fun _ => freshMm, fourFrames, oneFrame⟩ fun _ _ => 0) killerRun).any (fun k => decide
        (k.os.sched.waiting ⟨5, by decide⟩ = [some 1] ∧ k.os.sched.runningList.entries = [some 0])) =
      true := by
    decide +kernel
  obtain ⟨k, hk, hgone⟩ := (Option.any_eq_true _ _).mp hcheck
  have hrun : Steps (Step fun _ => freshMm) _ killerRun k := Steps.of_exec hk
  exact ⟨k, hrun, of_decide_eq_true hgone, (refines_threads hrun).1⟩

end Kernel

end Ossim
