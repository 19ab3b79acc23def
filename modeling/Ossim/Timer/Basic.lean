import Mathlib.Logic.Function.Basic

/-!
# The timer and its devices (`timer.c`)

A device is a thread that announced itself with `attach_event` before the timer started. It works,
calls `next_slot` when it has done its work for the current slot, and may leave for good with
`detach_event`. The timer thread waits, device by device, until each has raised its `done` flag or
its `fsh` flag, increments `_time`, and then clears the `done` flags, again device by device.

`next_slot` is two critical sections under two different locks: the first raises `done`, the second
waits until the timer has cleared it. One action of `step` is one critical section, or the
increment. A section that would block is not possible. The devices are numbered in the order of
`dev_list`.

Three fields record the past: `completed` counts the finished calls of `next_slot` of a device,
`seen` says that the timer has found `done` raised since it last cleared it, and `ticks` counts the
increments of the 64-bit variable `_time`.
-/

namespace Ossim.Timer

/-- Where a device thread stands. -/
inductive DevPhase where
  /-- Doing its work for the current slot. -/
  | working
  /-- Inside `next_slot`, between raising `done` and seeing it cleared. -/
  | waiting
  /-- After `detach_event`. -/
  | gone
  deriving DecidableEq

/-- `struct timer_id_t`, the thread that owns it, and their history. -/
structure Device where
  done : Bool
  fsh : Bool
  phase : DevPhase
  completed : Nat
  seen : Bool
  deriving DecidableEq

/-- Where the timer thread stands in `timer_routine`; `i` is the device `temp` points to, and `fsh`
and `event` are the local counters. -/
inductive TimerPhase where
  /-- At `while (!timer_stop)`. -/
  | head
  /-- In the first loop. -/
  | collect (i fsh event : Nat)
  /-- Before `_time++`. -/
  | advance (fsh event : Nat)
  /-- In the second loop. -/
  | release (i fsh event : Nat)
  /-- After `pthread_exit`. -/
  | exited
  deriving DecidableEq

/-- The whole system, with `n` devices. -/
structure State (n : Nat) where
  dev : Fin n → Device
  timer : TimerPhase
  timerStop : Bool
  time : BitVec 64
  ticks : Nat

/-- An atomic action. -/
inductive Act (n : Nat) where
  | timer
  /-- The first critical section of `next_slot`. -/
  | raise (d : Fin n)
  /-- The second critical section of `next_slot`. -/
  | pass (d : Fin n)
  /-- `detach_event`. -/
  | detach (d : Fin n)
  /-- The assignment in `stop_timer`. -/
  | stop

variable {n : Nat}

/-- A device as `attach_event` makes it. -/
def attachEvent : Device := ⟨false, false, .working, 0, false⟩

/-- `n` devices have been attached, and `start_timer` was called. -/
def init (n : Nat) : State n := ⟨fun _ => attachEvent, .head, false, 0, 0⟩

/-- One critical section of the timer thread. -/
def timerRoutine (s : State n) : Option (State n) :=
  match s.timer with
  | .head =>
    if s.timerStop then some { s with timer := .exited }
    else some { s with timer := .collect 0 0 0 }
  | .collect i fsh event =>
    if h : i < n then
      let d := s.dev ⟨i, h⟩
      if d.done || d.fsh then
        some { s with
          dev := Function.update s.dev ⟨i, h⟩ { d with seen := d.done }
          timer := .collect (i + 1) (if d.fsh then fsh + 1 else fsh) (event + 1) }
      else none
    else some { s with timer := .advance fsh event }
  | .advance fsh event =>
    some { s with time := s.time + 1, ticks := s.ticks + 1, timer := .release 0 fsh event }
  | .release i fsh event =>
    if h : i < n then
      some { s with
        dev := Function.update s.dev ⟨i, h⟩ { s.dev ⟨i, h⟩ with done := false, seen := false }
        timer := .release (i + 1) fsh event }
    else if fsh = event then some { s with timer := .exited }
    else some { s with timer := .head }
  | .exited => none

/-- One action. -/
def step (s : State n) : Act n → Option (State n)
  | .timer => timerRoutine s
  | .raise d =>
    if (s.dev d).phase = .working then
      some { s with dev := Function.update s.dev d { s.dev d with done := true, phase := .waiting } }
    else none
  | .pass d =>
    if (s.dev d).phase = .waiting ∧ (s.dev d).done = false then
      some { s with
        dev :=
          Function.update s.dev d
            { s.dev d with phase := .working, completed := (s.dev d).completed + 1 } }
    else none
  | .detach d =>
    if (s.dev d).phase = .working then
      some { s with dev := Function.update s.dev d { s.dev d with fsh := true, phase := .gone } }
    else none
  | .stop => some { s with timerStop := true }

/-- The step relation. -/
def Step (s : State n) (a : Act n) (s' : State n) : Prop := step s a = some s'

end Ossim.Timer
