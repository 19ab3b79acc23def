import Ossim.Sched.Basic

/-!
# The simulator: CPU routines, the loader and the time slot (`os.c`)

`cpu_routine` and `ld_routine` run as threads that share the scheduler, the flag `done` and the
process control blocks. A state `Os cfg` holds all of these together with the place in the code
where each thread stands, and `step` executes one atomic action of one thread: a lock-protected
section, or the code between two of them.

* A CPU moves through `CpuPhase`. `run` is two actions, the fetch of `text[pc]` and the rest, so
  nothing below relies on two CPUs not being inside `run` together.
* `next_slot` is two actions, raising the own flag and leaving the wait. The timer releases the
  waiting threads when every thread that has not detached is waiting, which is what `tick` does; the
  module `Ossim.Timer.LockStep` is about the timer's own code.
* `killReady` and `killRunning` are the removals `__sys_killall` makes, at any time and any index:
  it reads `mlq_ready_queue` as a pointer to one queue, so only level 0 is in its reach.

Of a process control block this file keeps what these threads read: `pc`, and from the configuration
the fixed `prio` and `code`. What an instruction does to memory is the subject of `Ossim.Mm`; it
does not touch the scheduler. Three fields only record the past: `executed`, `freed` and `refused`.
-/

namespace Ossim

/-- What `read_config` and the process files fix. Processes are numbered as in `ld_processes`. -/
structure Config where
  timeSlot : Int
  numCpus : Nat
  numProcesses : Nat
  startTime : Nat → Nat
  prio : Nat → Nat
  code : Nat → List Inst

/-- Where a CPU thread stands in `cpu_routine`. -/
inductive CpuPhase where
  /-- At the head of the loop, before the status of `proc` is checked. -/
  | check
  /-- In `put_proc`, before its first critical section. -/
  | putReady
  /-- In `put_proc`, before `put_mlq_proc`. -/
  | putMlq
  /-- Before the `get_proc` that follows a finished or a returned process. -/
  | getNext
  /-- Before "Recheck process status after loading new process". -/
  | recheck
  /-- Before `run(proc)`. -/
  | run
  /-- Inside `run`, with the instruction fetched. -/
  | exec (ins : Inst)
  /-- Before `next_slot`. -/
  | slot
  /-- Inside `next_slot`, waiting for the timer. -/
  | waiting
  /-- Out of the loop, before `detach_event`. -/
  | stopped
  /-- After `detach_event`. -/
  | detached
  deriving DecidableEq

/-- The local variables of a CPU thread. -/
structure Cpu where
  phase : CpuPhase
  proc : Option Nat
  timeLeft : Int

/-- Where the loader stands in `ld_routine`. -/
inductive LdPhase where
  /-- At the tests `i < num_processes` and `current_time() < start_time[i]`. -/
  | head
  /-- In `add_proc`, before its first critical section. -/
  | addRunning
  /-- In `add_proc`, before `add_mlq_proc`. -/
  | addMlq
  /-- Before `next_slot`. -/
  | slot
  /-- Inside `next_slot`, waiting for the timer. -/
  | waiting
  /-- After `done = 1`, before `detach_event`. -/
  | finished
  /-- After `detach_event`. -/
  | detached
  deriving DecidableEq

/-- The local variables of the loader thread. -/
structure Loader where
  phase : LdPhase
  i : Nat

/-- The shared state, the threads and the history. -/
structure Os (cfg : Config) where
  sched : Sched Nat
  cpu : Fin cfg.numCpus → Cpu
  ld : Loader
  done : Bool
  time : Nat
  pc : Nat → Nat
  /-- History: the instructions executed for a process, oldest first. -/
  executed : Nat → List Inst
  /-- History: the process has finished and was freed. -/
  freed : Nat → Bool
  /-- History: an enqueue of the process at its level found the array full. -/
  refused : Nat → Bool

/-- An atomic action. -/
inductive Act (cfg : Config) where
  | cpu (c : Fin cfg.numCpus)
  | loader
  | tick
  | killReady (idx : Nat)
  | killRunning (idx : Nat)
  deriving DecidableEq

namespace Os

variable {cfg : Config}

/-- The state when `main` has created the threads. -/
def init (cfg : Config) : Os cfg where
  sched := Sched.initScheduler
  cpu := fun _ => ⟨.check, none, 0⟩
  ld := ⟨.head, 0⟩
  done := false
  time := 0
  pc := fun _ => 0
  executed := fun _ => []
  freed := fun _ => false
  refused := fun _ => false

/-- Replace the local variables of one CPU. -/
def setCpu (s : Os cfg) (c : Fin cfg.numCpus) (l : Cpu) : Os cfg :=
  { s with cpu := Function.update s.cpu c l }

/-- The array of the level of `p` is full. -/
def levelFull (s : Os cfg) (p : Nat) : Bool :=
  if h : cfg.prio p < maxPrio then
    decide (maxQueueSize ≤ (s.sched.mlqReadyQueue ⟨cfg.prio p, h⟩).size)
  else false

/-- The critical section of `put_mlq_proc` and `add_mlq_proc`, with the history of refusals. -/
def enqueueLevel (s : Os cfg) (p : Nat) : Option (Os cfg) :=
  match s.sched.enqueueMlq cfg.prio p with
  | .error _ => none
  | .ok sched =>
    some { s with
      sched := sched
      refused := Function.update s.refused p (s.refused p || s.levelFull p) }

/-- One action of a CPU thread. -/
def cpuStep (s : Os cfg) (c : Fin cfg.numCpus) : Option (Os cfg) :=
  let l := s.cpu c
  match l.phase, l.proc with
  | .check, none =>
    match s.sched.getMlqProc cfg.prio with
    | .error _ => none
    | .ok g =>
      let phase := if g.proc.isNone then .slot else .recheck
      some ({ s with sched := g.sched }.setCpu c { l with phase := phase, proc := g.proc })
  | .check, some p =>
    if s.pc p = (cfg.code p).length then
      -- `free(proc)`; the `time_left = 0` after `get_proc` is done here, nothing reads it between
      some ({ s with freed := Function.update s.freed p true }.setCpu c
        { l with phase := .getNext, timeLeft := 0 })
    else if l.timeLeft = 0 then some (s.setCpu c { l with phase := .putReady })
    else some (s.setCpu c { l with phase := .recheck })
  | .putReady, some p =>
    some ({ s with sched := s.sched.putReady p }.setCpu c { l with phase := .putMlq })
  | .putMlq, some p => (s.enqueueLevel p).map (·.setCpu c { l with phase := .getNext })
  | .getNext, _ =>
    match s.sched.getMlqProc cfg.prio with
    | .error _ => none
    | .ok g => some ({ s with sched := g.sched }.setCpu c { l with phase := .recheck, proc := g.proc })
  | .recheck, none =>
    if s.done then some (s.setCpu c { l with phase := .stopped })
    else some (s.setCpu c { l with phase := .slot })
  | .recheck, some _ =>
    let timeLeft := if l.timeLeft = 0 then cfg.timeSlot else l.timeLeft
    some (s.setCpu c { l with phase := .run, timeLeft := timeLeft })
  | .run, some p =>
    match (cfg.code p)[s.pc p]? with
    | none => some (s.setCpu c { l with phase := .slot, timeLeft := l.timeLeft - 1 })
    | some ins => some (s.setCpu c { l with phase := .exec ins })
  | .exec ins, some p =>
    some ({ s with
        pc := Function.update s.pc p (s.pc p + 1)
        executed := Function.update s.executed p (s.executed p ++ [ins]) }.setCpu c
      { l with phase := .slot, timeLeft := l.timeLeft - 1 })
  | .slot, _ => some (s.setCpu c { l with phase := .waiting })
  | .stopped, _ => some (s.setCpu c { l with phase := .detached })
  | _, _ => none

/-- One action of the loader thread. -/
def ldStep (s : Os cfg) : Option (Os cfg) :=
  let l := s.ld
  match l.phase with
  | .head =>
    if l.i < cfg.numProcesses then
      if s.time < cfg.startTime l.i then some { s with ld := { l with phase := .slot } }
      else some { s with ld := { l with phase := .addRunning } }
    else some { s with done := true, ld := { l with phase := .finished } }
  | .addRunning =>
    some { s with sched := s.sched.addRunning l.i, ld := { l with phase := .addMlq } }
  | .addMlq => (s.enqueueLevel l.i).map fun s => { s with ld := ⟨.slot, l.i + 1⟩ }
  | .slot => some { s with ld := { l with phase := .waiting } }
  | .waiting => none
  | .finished => some { s with ld := { l with phase := .detached } }
  | .detached => none

/-- A CPU thread the timer does not wait for. -/
def cpuReady (l : Cpu) : Bool := l.phase = .waiting || l.phase = .detached

/-- The same for the loader thread. -/
def ldReady (l : Loader) : Bool := l.phase = .waiting || l.phase = .detached

/-- The CPU thread after the timer has let it go. -/
def releaseCpu (l : Cpu) : Cpu := if l.phase = .waiting then { l with phase := .check } else l

/-- The loader thread after the timer has let it go. -/
def releaseLd (l : Loader) : Loader := if l.phase = .waiting then { l with phase := .head } else l

/-- The timer passes to the next slot. -/
def tick (s : Os cfg) : Option (Os cfg) :=
  if (∀ c, cpuReady (s.cpu c)) ∧ ldReady s.ld then
    some { s with
      time := s.time + 1
      cpu := fun c => releaseCpu (s.cpu c)
      ld := releaseLd s.ld }
  else none

/-- Level 0, which is where `caller->mlq_ready_queue` points. -/
def levelZero : Level := ⟨0, by decide⟩

/-- One atomic action; `none` when it is not possible in this state, or would fault. -/
def step (s : Os cfg) : Act cfg → Option (Os cfg)
  | .cpu c => s.cpuStep c
  | .loader => s.ldStep
  | .tick => s.tick
  | .killReady idx =>
    match (s.sched.mlqReadyQueue levelZero).removeFromQueue idx with
    | .error _ => none
    | .ok q =>
      some { s with
        sched := { s.sched with
          mlqReadyQueue := Function.update s.sched.mlqReadyQueue levelZero q } }
  | .killRunning idx =>
    match s.sched.runningList.removeFromQueue idx with
    | .error _ => none
    | .ok q => some { s with sched := { s.sched with runningList := q } }

/-- The step relation of the simulator. -/
def Step (s : Os cfg) (a : Act cfg) (s' : Os cfg) : Prop := s.step a = some s'

end Os

end Ossim
