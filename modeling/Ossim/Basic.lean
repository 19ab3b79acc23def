/-!
# Shared vocabulary: C faults and the instruction format

The source is C, so an operation can do worse than return an error code: it can follow a null
pointer, index an array out of bounds, or read a variable nobody assigned. `Exec` is the result of
running such an operation, and a `Fault` is the point where the meaning of the C program ends.
Everything that the source reports by a return code stays an ordinary value.
-/

namespace Ossim

/-- The ways in which the modelled code can leave the language. -/
inductive Fault where
  /-- A member access through `NULL`. -/
  | nullDeref
  /-- An array access outside the array. -/
  | outOfBounds
  /-- A read of a variable that was never assigned. -/
  | uninitialized
  deriving DecidableEq, Repr

/-- The result of running C code: a value, or the fault that ended the program. -/
abbrev Exec (α : Type) := Except Fault α

/-- A local variable that is read: a fault if no statement assigned it. -/
def assigned {α : Type} : Option α → Exec α
  | some a => .ok a
  | none => .error .uninitialized

/-- A pointer that is followed: a fault if it is `NULL`. -/
def deref {α : Type} : Option α → Exec α
  | some a => .ok a
  | none => .error .nullDeref

/-- Running one operation after another goes through when both do. -/
theorem Exec.bind_eq_ok {α β : Type} {x : Exec α} {f : α → Exec β} {b : β} :
    x >>= f = .ok b ↔ ∃ a, x = .ok a ∧ f a = .ok b := by
  cases x with
  | error e => simp [bind, Except.bind]
  | ok a => simp [bind, Except.bind]

/-- An operation that goes through, as a value. -/
theorem Exec.toOption_eq_some {α : Type} {x : Exec α} {a : α} :
    x.toOption = some a ↔ x = .ok a := by
  cases x with
  | error e => simp [Except.toOption]
  | ok b => simp [Except.toOption]

/-- `enum ins_opcode_t`. -/
inductive Opcode where
  | calc
  | alloc
  | free
  | read
  | write
  | syscall
  deriving DecidableEq, Repr

/-- `struct inst_t`: an opcode and four `uint32_t` arguments. -/
structure Inst where
  opcode : Opcode
  arg0 : BitVec 32
  arg1 : BitVec 32
  arg2 : BitVec 32
  arg3 : BitVec 32
  deriving DecidableEq, Repr

/-- `MAX_PRIO`: the number of priority levels. -/
def maxPrio : Nat := 140

/-- `MAX_QUEUE_SIZE`: the capacity of the array inside a `queue_t`. -/
def maxQueueSize : Nat := 10

end Ossim
