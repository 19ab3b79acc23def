import Ossim.Library.Fifo
import Ossim.Library.Steps
import Ossim.Sched.Basic

/-!
# Every level is first in, first out

`dequeue` looks for the best priority in its array, and the array may lose an entry anywhere when
`killall` removes a process. But all processes of one level have the same priority, so the search
never finds a better one than the first, and closing a gap keeps the order. Over any sequence of
operations a level is therefore a bounded waiting line (`Fifo.Line`): whoever `get_proc` takes from
it has waited there longest.

The lines know nothing about slots or about the other levels. Which level `get_proc` serves is the
subject of `Ossim.Sched.SlotPolicy`.
-/

namespace Ossim

variable {π : Type}

/-- An operation on the levels, with what it returned. -/
inductive MlqEvent (π : Type) where
  | add (p : π)
  | put (p : π)
  | got (proc : Option π)
  /-- `killall` removes the entry at an index of a level. -/
  | removed (l : Level) (idx : Nat)

namespace Sched

/-- One operation. The loop of `killall` removes an entry only at an index below the size. -/
def MlqStep (prio : π → Nat) (s : Sched π) : MlqEvent π → Sched π → Prop
  | .add p, s' => s.addProc prio p = .ok s'
  | .put p, s' => s.putProc prio p = .ok s'
  | .got proc, s' => ∃ g, s.getMlqProc prio = .ok g ∧ g.proc = proc ∧ g.sched = s'
  | .removed l idx, s' => idx < (s.mlqReadyQueue l).size ∧
      ∃ q, (s.mlqReadyQueue l).removeFromQueue idx = .ok q ∧
        s' = { s with mlqReadyQueue := Function.update s.mlqReadyQueue l q }

end Sched

/-- The array of level `l`: the cells in use hold processes of the level, and there are no more than
the array has. -/
structure Queue.WellFormed (prio : π → Nat) (l : Level) (q : Queue π) : Prop where
  size_le : q.size ≤ maxQueueSize
  filled : ∀ i < q.size, ∃ p, q.proc i = some p ∧ prio p = l

/-- `dequeue` stops inside the array, takes the first process and keeps the order of the others. -/
structure Queue.TakesFirst (prio : π → Nat) (q : Queue π) (p : π) (rest : List (Option π)) :
    Prop where
  inBounds : ∃ k < q.size, (q.highest prio q.size).2 = some k
  result : ∃ q', q.dequeue prio = .ok (some p, q') ∧ q'.entries = rest

/-! ## The lines -/

/-- What an operation does to a waiting line for each level. -/
inductive FifoStep (prio : π → Nat) (lines : Level → Fifo.Line π) :
    MlqEvent π → (Level → Fifo.Line π) → Prop where
  | add {p : π} (h : prio p < maxPrio) :
      FifoStep prio lines (.add p)
        (Function.update lines ⟨prio p, h⟩ ((lines ⟨prio p, h⟩).arrive maxQueueSize p))
  | put {p : π} (h : prio p < maxPrio) :
      FifoStep prio lines (.put p)
        (Function.update lines ⟨prio p, h⟩ ((lines ⟨prio p, h⟩).arrive maxQueueSize p))
  | nobody : FifoStep prio lines (.got none) lines
  | served {l : Level} {p : π} {line : Fifo.Line π} (hprio : prio p = l)
      (hserved : (lines l).Served p line) :
      FifoStep prio lines (.got (some p)) (Function.update lines l line)
  | removed (l : Level) (idx : Nat) :
      FifoStep prio lines (.removed l idx) (Function.update lines l ((lines l).leave idx))

namespace Sched

/-- The arrays hold who stands in the lines. -/
def Represents (s : Sched π) (lines : Level → Fifo.Line π) : Prop :=
  ∀ l, s.waiting l = (lines l).who.map some

variable {prio : π → Nat} {s s' : Sched π} {lines : Level → Fifo.Line π}

theorem represents_initScheduler :
    (initScheduler : Sched π).Represents fun _ => Fifo.Line.nil := fun _ => rfl

/-- Replacing one level by an array that holds who stands in the new line of that level. -/
theorem Represents.update (h : s.Represents lines) {l : Level} {q : Queue π} {line : Fifo.Line π}
    (hq : q.entries = line.who.map some) (slot : Level → Int) :
    ({ s with mlqReadyQueue := Function.update s.mlqReadyQueue l q, slot := slot } :
      Sched π).Represents (Function.update lines l line) := by
  intro k
  have hk := h k
  unfold waiting at hk ⊢
  rcases eq_or_ne k l with rfl | hne
  · simpa only [Function.update_self] using hq
  · simpa only [Function.update_of_ne hne] using hk

/-- Entering a process is an arrival at its level. -/
theorem Represents.enqueueMlq {p : π} (h : s.Represents lines)
    (henq : Sched.enqueueMlq prio s p = .ok s') :
    ∃ hp : prio p < maxPrio, s'.Represents (Function.update lines ⟨prio p, hp⟩
      ((lines ⟨prio p, hp⟩).arrive maxQueueSize p)) := by
  obtain ⟨hp, rfl⟩ := enqueueMlq_cases henq
  refine ⟨hp, h.update ?_ s.slot⟩
  have hline := h ⟨prio p, hp⟩
  have hsize : (s.mlqReadyQueue ⟨prio p, hp⟩).size = (lines ⟨prio p, hp⟩).who.length := by
    have hlen := congrArg List.length hline
    rw [List.length_map] at hlen
    rw [← hlen]
    exact (Queue.length_entries _).symm
  unfold waiting at hline
  rw [Queue.entries_enqueue, Fifo.Line.who_arrive, hsize, hline]
  split
  · rw [List.map_append, List.map_singleton]
  · rfl

/-- Taking a process out is serving the line of its level. -/
theorem Represents.getMlqProc (hs : s.Sorted prio) (h : s.Represents lines) {g : Got π}
    (hget : GetOutcome s g) :
    ∃ lines', FifoStep prio lines (.got g.proc) lines' ∧ g.sched.Represents lines' := by
  cases hget with
  | idle => exact ⟨lines, .nobody, h⟩
  | replenish => exact ⟨lines, .nobody, h⟩
  | @dispatch l p rest q hhead hslot hfirst hq =>
      have hwho := h l
      rw [hhead] at hwho
      obtain ⟨a, who, hline, ha, hrest⟩ := List.map_eq_cons_iff.mp hwho.symm
      cases ha
      obtain ⟨line, hserved, hline'⟩ := Fifo.Line.served_of_who hline
      refine ⟨_, .served (hs.prio_head hhead) hserved, h.update ?_ _⟩
      rw [hq, hline', hrest]

/-- **One operation on the scheduler is one operation on the lines.** -/
theorem Represents.step {e : MlqEvent π} (hs : s.Sorted prio) (h : s.Represents lines)
    (hstep : MlqStep prio s e s') :
    ∃ lines', FifoStep prio lines e lines' ∧ s'.Sorted prio ∧ s'.Represents lines' := by
  cases e with
  | add p =>
      have hrunning : (s.addRunning p).Represents lines := h
      obtain ⟨hp, h'⟩ := hrunning.enqueueMlq hstep
      exact ⟨_, .add hp, Sorted.enqueueMlq (s := s.addRunning p) hs hstep, h'⟩
  | put p =>
      have hready : (s.putReady p).Represents lines := h
      obtain ⟨hp, h'⟩ := hready.enqueueMlq hstep
      exact ⟨_, .put hp, Sorted.enqueueMlq (s := s.putReady p) hs hstep, h'⟩
  | got proc =>
      obtain ⟨g, hg, rfl, rfl⟩ := hstep
      have hout := getMlqProc_cases hs hg
      obtain ⟨lines', hline, h'⟩ := h.getMlqProc hs hout
      exact ⟨lines', hline, hs.getMlqProc hout, h'⟩
  | removed l idx =>
      obtain ⟨hidx, q, hremove, rfl⟩ := hstep
      have hgap : q.entries = (s.waiting l).eraseIdx idx := by
        unfold Queue.removeFromQueue at hremove
        rw [if_neg (by omega)] at hremove
        cases hremove
        exact Queue.entries_closeGap _ hidx
      refine ⟨_, .removed l idx, ?_, h.update ?_ s.slot⟩
      · intro k o ho
        rcases eq_or_ne k l with rfl | hne
        · simp only [Function.update_self, hgap] at ho
          exact hs k o ((List.eraseIdx_sublist _ _).mem ho)
        · simp only [Function.update_of_ne hne] at ho
          exact hs k o ho
      · rw [hgap, h l, Fifo.Line.who_leave, List.eraseIdx_map]

/-- A level of a sorted scheduler is an array without gaps. -/
theorem Sorted.wellFormed (hs : s.Sorted prio) (l : Level) :
    (s.mlqReadyQueue l).WellFormed prio l where
  size_le := (s.mlqReadyQueue l).size_le
  filled _ hi := hs l _ (List.mem_iff_getElem?.mpr ⟨_, Queue.getElem?_entries hi⟩)

theorem Sorted.takesFirst (hs : s.Sorted prio) {l : Level} {p : π} {rest : List (Option π)}
    (h : s.waiting l = some p :: rest) : (s.mlqReadyQueue l).TakesFirst prio p rest := by
  have hsize : (s.mlqReadyQueue l).size = rest.length + 1 := by
    rw [← Queue.length_entries, ← List.length_cons (a := some p), ← h]
    rfl
  refine ⟨⟨0, by omega, ?_⟩, Queue.dequeue_head (hs l) l.isLt h⟩
  rw [hsize, Queue.highest_eq_zero (hs l) l.isLt (by omega)]

/-- **Every level is a bounded first in, first out queue.** After any sequence of operations from
`init_scheduler`, the operations have done to the levels what they do to waiting lines with room for
`MAX_QUEUE_SIZE`, each array holds the processes of its line and nothing else, and a `dequeue` from
it takes the first one. -/
theorem levels_fifo {es : List (MlqEvent π)} (hrun : Steps (MlqStep prio) initScheduler es s) :
    (∀ l, (s.mlqReadyQueue l).WellFormed prio l) ∧
      (∀ l, s.waiting l ≠ [] → ∃ p rest, s.waiting l = some p :: rest ∧
        (s.mlqReadyQueue l).TakesFirst prio p rest) ∧
      (∃ g, s.getMlqProc prio = .ok g) ∧
      ∃ lines, Steps (FifoStep prio) (fun _ => .nil) es lines ∧ s.Represents lines := by
  obtain ⟨lines, hlines, hs, hrep⟩ := hrun.simulate
    (fun s lines => s.Sorted prio ∧ s.Represents lines)
    ⟨sorted_initScheduler prio, represents_initScheduler⟩
    fun _ _ _ _ hrel hstep => hrel.2.step hrel.1 hstep
  refine ⟨hs.wellFormed, ?_, ?_, lines, hlines, hrep⟩
  · intro l hne
    obtain ⟨o, rest, hwait⟩ := List.exists_cons_of_ne_nil hne
    obtain ⟨p, rfl, -⟩ := hs l o (by
      rw [show (s.mlqReadyQueue l).entries = _ from hwait]
      exact List.mem_cons_self)
    exact ⟨p, rest, hwait, hs.takesFirst hwait⟩
  · obtain ⟨g, hg, -⟩ := getMlqProc_outcome hs
    exact ⟨g, hg⟩

/-- Three processes arrive at level 5, the second is killed, and the first is served. -/
theorem levels_fifo_three :
    ∃ s, Steps (MlqStep fun _ : Fin 3 => 5) initScheduler
        [.add 0, .add 1, .add 2, .removed ⟨5, by decide⟩ 1, .got (some 0)] s ∧
      s.waiting ⟨5, by decide⟩ = [some 2] ∧
      ∃ lines, Steps (FifoStep fun _ : Fin 3 => 5) (fun _ => .nil)
          [.add 0, .add 1, .add 2, .removed ⟨5, by decide⟩ 1, .got (some 0)] lines ∧
        s.Represents lines := by
  have hrun : Steps (MlqStep fun _ : Fin 3 => 5) initScheduler
      [.add 0, .add 1, .add 2, .removed ⟨5, by decide⟩ 1, .got (some 0)] _ :=
    .cons rfl (.cons rfl (.cons rfl (.cons ⟨by decide, _, rfl, rfl⟩
      (.cons ⟨_, rfl, rfl, rfl⟩ (.nil _)))))
  exact ⟨_, hrun, by decide, (levels_fifo hrun).2.2.2⟩

end Sched

end Ossim
