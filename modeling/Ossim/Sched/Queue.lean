import Mathlib.Logic.Function.Basic
import Ossim.Basic

/-!
# The process queue (`queue.c`, `remove_from_queue`)

A `queue_t` is an array of `MAX_QUEUE_SIZE` process pointers and the number of them in use.
`dequeue` is a priority search that closes the gap it leaves by shifting the rest of the array
down; `remove_from_queue`, which `killall` calls, shifts in the same way.

`entries` is the abstract view of the array, the pointers in use in index order. The three lemmas
`entries_enqueue`, `entries_closeGap` and `dequeue_head` say what the operations do to it, and
nothing outside this file looks at the array again.

Processes are pointers, and the only thing the queue code reads through one is `prio`; so a process
is an element of an arbitrary type `π` and `prio : π → Nat` is a parameter.
-/

namespace Ossim

variable {π : Type}

/-- `struct queue_t`. The bound on `size` is what keeps every access of the operations below
inside the array. -/
structure Queue (π : Type) where
  proc : Nat → Option π
  size : Nat
  size_le : size ≤ maxQueueSize

namespace Queue

/-- A queue in static storage: all zero. -/
def zero : Queue π where
  proc := fun _ => none
  size := 0
  size_le := Nat.zero_le _

/-- `empty`. -/
def empty (q : Queue π) : Bool := q.size == 0

/-- `enqueue`: append at the end, and do nothing for a null pointer or a full array. -/
def enqueue (q : Queue π) : Option π → Queue π
  | none => q
  | some p =>
    if h : q.size < maxQueueSize then
      { proc := Function.update q.proc q.size (some p), size := q.size + 1, size_le := h }
    else q

/-- `m` rounds of `proc[i] = proc[i + 1]`, for `i = k, k + 1, ...`. -/
def shift (proc : Nat → Option π) (k : Nat) : Nat → Nat → Option π
  | 0 => proc
  | m + 1 =>
    let proc' := shift proc k m
    Function.update proc' (k + m) (proc' (k + m + 1))

/-- Drop the last cell of the count, shift everything behind `k` down by one, and clear the cell
that became free. -/
def closeGap (q : Queue π) (k : Nat) : Queue π where
  proc := Function.update (shift q.proc k (q.size - 1 - k)) (q.size - 1) none
  size := q.size - 1
  size_le := Nat.le_trans (Nat.sub_le _ _) q.size_le

/-- The search loop of `dequeue` after `i` rounds: `highest_prio` and `highest_num`, where `none`
is the initial `-1`. -/
def highest (prio : π → Nat) (q : Queue π) : Nat → Nat × Option Nat
  | 0 => (maxPrio, none)
  | i + 1 =>
    let best := highest prio q i
    match q.proc i with
    | some p => if prio p < best.1 then (prio p, some i) else best
    | none => best

/-- `dequeue`. With no entry of priority below `MAX_PRIO` the search ends with
`highest_num == -1` and the code reads `proc[-1]`. -/
def dequeue (prio : π → Nat) (q : Queue π) : Exec (Option π × Queue π) :=
  if q.size = 0 then .ok (none, q)
  else
    match (highest prio q q.size).2 with
    | none => .error .outOfBounds
    | some k => .ok (q.proc k, q.closeGap k)

/-- `remove_from_queue`. On an empty queue the size becomes `-1` and `proc[-1]` is written. -/
def removeFromQueue (q : Queue π) (idx : Nat) : Exec (Queue π) :=
  if q.size = 0 then .error .outOfBounds else .ok (q.closeGap idx)

/-! ## The abstract view -/

/-- The cells in use, in index order. -/
def entries (q : Queue π) : List (Option π) := (List.range q.size).map q.proc

@[simp] theorem length_entries (q : Queue π) : q.entries.length = q.size := by
  simp [entries]

@[simp] theorem entries_zero : (zero : Queue π).entries = [] := rfl

@[simp] theorem empty_eq_true {q : Queue π} : q.empty = true ↔ q.entries = [] := by
  rw [← List.length_eq_zero_iff, length_entries]
  simp [empty]

@[simp] theorem size_closeGap (q : Queue π) (k : Nat) : (q.closeGap k).size = q.size - 1 := rfl

/-- Appending: the abstract view grows by the pointer, unless it is null or the array is full. -/
theorem entries_enqueue (q : Queue π) (p : π) :
    (q.enqueue (some p)).entries =
      if q.size < maxQueueSize then q.entries ++ [some p] else q.entries := by
  simp only [enqueue]
  split
  · next h =>
    have hold : (List.range q.size).map (Function.update q.proc q.size (some p)) = q.entries := by
      refine List.map_congr_left fun i hi => Function.update_of_ne ?_ _ _
      exact Nat.ne_of_lt (List.mem_range.mp hi)
    simp only [entries, List.range_succ, List.map_append, List.map_cons, List.map_nil,
      Function.update_self] at hold ⊢
    rw [hold]
  · rfl

/-- The shift loop, cell by cell. -/
theorem shift_apply (proc : Nat → Option π) (k m j : Nat) :
    shift proc k m j = if k ≤ j ∧ j < k + m then proc (j + 1) else proc j := by
  induction m generalizing j with
  | zero =>
      simp only [shift]
      rw [if_neg (by omega)]
  | succ m ih =>
      simp only [shift, Function.update_apply, ih]
      by_cases hj : j = k + m
      · subst hj
        rw [if_pos rfl, if_neg (by omega), if_pos (by omega)]
      · rw [if_neg hj]
        by_cases hin : k ≤ j ∧ j < k + m
        · rw [if_pos hin, if_pos (by omega)]
        · rw [if_neg hin, if_neg (by omega)]

/-- Closing the gap at an entry removes exactly that entry. -/
theorem entries_closeGap (q : Queue π) {k : Nat} (hk : k < q.size) :
    (q.closeGap k).entries = q.entries.eraseIdx k := by
  refine List.ext_getElem ?_ fun j hj _ => ?_
  · rw [length_entries, List.length_eraseIdx, length_entries, if_pos hk, size_closeGap]
  · have hsize : j < q.size - 1 := by simpa using hj
    rw [List.getElem_eraseIdx]
    simp only [entries, List.getElem_map, List.getElem_range, closeGap]
    rw [Function.update_of_ne (by omega), shift_apply]
    by_cases hjk : j < k
    · rw [if_neg (by omega), dif_pos hjk]
    · rw [if_pos (by omega), dif_neg hjk]

/-- An index past the end drops the last entry. -/
theorem entries_closeGap_of_le (q : Queue π) {k : Nat} (hk : q.size ≤ k) :
    (q.closeGap k).entries = q.entries.dropLast := by
  refine List.ext_getElem (by simp) fun j hj _ => ?_
  have hsize : j < q.size - 1 := by simpa using hj
  rw [List.getElem_dropLast]
  simp only [entries, List.getElem_map, List.getElem_range, closeGap]
  rw [Function.update_of_ne (by omega), shift_apply, if_neg (by omega)]

theorem getElem?_entries {q : Queue π} {k : Nat} (hk : k < q.size) :
    q.entries[k]? = some (q.proc k) := by
  simp [entries, hk]

/-! ## The priority search -/

/-- Every entry in use is a process of priority `l`. -/
def AllPrio (prio : π → Nat) (l : Nat) (q : Queue π) : Prop :=
  ∀ o ∈ q.entries, ∃ p, o = some p ∧ prio p = l

/-- In a queue of one priority below `MAX_PRIO` the search stops at the first entry: a later one is
never strictly better. -/
theorem highest_eq_zero {prio : π → Nat} {l : Nat} {q : Queue π} (hq : AllPrio prio l q)
    (hl : l < maxPrio) {i : Nat} (hi : i < q.size) : highest prio q (i + 1) = (l, some 0) := by
  have hproc : ∀ j < q.size, ∃ p, q.proc j = some p ∧ prio p = l := fun j hj =>
    hq _ (List.mem_iff_getElem?.mpr ⟨j, getElem?_entries hj⟩)
  induction i with
  | zero =>
      obtain ⟨p, hp, hprio⟩ := hproc 0 hi
      simp [highest, hp, hprio, hl]
  | succ i ih =>
      obtain ⟨p, hp, hprio⟩ := hproc (i + 1) hi
      rw [highest, ih (by omega)]
      simp [hp, hprio]

/-- In a queue of one priority `dequeue` takes the oldest entry and keeps the order of the rest. -/
theorem dequeue_head {prio : π → Nat} {l : Nat} {q : Queue π} {p : π} {rest : List (Option π)}
    (hq : AllPrio prio l q) (hl : l < maxPrio) (hentries : q.entries = some p :: rest) :
    ∃ q', q.dequeue prio = .ok (some p, q') ∧ q'.entries = rest := by
  have hsize : q.size = rest.length + 1 := by
    rw [← length_entries, hentries, List.length_cons]
  have hhead : q.proc 0 = some p := by
    have h0 := getElem?_entries (q := q) (k := 0) (by omega)
    rw [hentries] at h0
    simpa using h0.symm
  have hbest : highest prio q q.size = (l, some 0) := by
    rw [hsize]
    exact highest_eq_zero hq hl (by omega)
  refine ⟨q.closeGap 0, ?_, ?_⟩
  · unfold dequeue
    rw [if_neg (by omega), hbest]
    simp only [hhead]
  · rw [entries_closeGap q (by omega), hentries]
    rfl

end Queue

end Ossim
