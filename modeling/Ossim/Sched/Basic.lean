import Mathlib.Data.List.FinRange
import Mathlib.Data.Fin.Basic
import Ossim.Sched.Queue

/-!
# The multi-level queue scheduler (`sched.c`)

One ready queue per priority level, and for each level a slot counter that starts at
`MAX_PRIO - prio` and pays for the dispatches from that level. `getMlqProc` takes the head of the
first level that is non-empty and still has slots; when no level qualifies it refills all counters
and returns `NULL`.

`put_proc` and `add_proc` are two critical sections each: the process goes to `ready_queue`
(respectively `running_list`) under the lock, the lock is dropped, and then the process goes to its
level. The sections are separate definitions, so that other code can run between them.

`GetOutcome` lists everything one `getMlqProc` can do. It is proved once, in `getMlqProc_outcome`,
and every invariant of the scheduler is derived from it.
-/

namespace Ossim

/-- A priority level. -/
abbrev Level := Fin maxPrio

variable {π : Type}

/-- The static variables of `sched.c`. -/
structure Sched (π : Type) where
  mlqReadyQueue : Level → Queue π
  slot : Level → Int
  readyQueue : Queue π
  runQueue : Queue π
  runningList : Queue π

/-- What `get_mlq_proc` produces. The source returns only `proc`; `replenished` records that the
loop resetting the slot array ran. -/
structure Got (π : Type) where
  proc : Option π
  replenished : Bool
  sched : Sched π

namespace Sched

/-- The slot array after `slot[i] = MAX_PRIO - i`. -/
def fullSlots : Level → Int := fun p => (maxPrio : Int) - (p : Nat)

/-- `init_scheduler`, on static storage. -/
def initScheduler : Sched π where
  mlqReadyQueue := fun _ => Queue.zero
  slot := fullSlots
  readyQueue := Queue.zero
  runQueue := Queue.zero
  runningList := Queue.zero

/-- `queue_empty`: `-1` when some level has a process, otherwise whether the two legacy queues are
empty. -/
def queueEmpty (s : Sched π) : Int :=
  if (List.finRange maxPrio).any fun p => !(s.mlqReadyQueue p).empty then -1
  else if s.readyQueue.empty && s.runQueue.empty then 1 else 0

/-- The level at which the dispatch loop of `get_mlq_proc` stops. -/
def firstReady (s : Sched π) : Option Level :=
  (List.finRange maxPrio).find? fun p => !(s.mlqReadyQueue p).empty && decide (0 < s.slot p)

/-- The dispatch loop of `get_mlq_proc`. -/
def dispatch (prio : π → Nat) (s : Sched π) : Exec (Option π × Sched π) :=
  match s.firstReady with
  | none => .ok (none, s)
  | some p => do
    let (proc, q) ← (s.mlqReadyQueue p).dequeue prio
    return (proc,
      { s with
        mlqReadyQueue := Function.update s.mlqReadyQueue p q
        slot := Function.update s.slot p (s.slot p - 1) })

/-- `get_mlq_proc`, and `get_proc`, which only calls it. -/
def getMlqProc (prio : π → Nat) (s : Sched π) : Exec (Got π) :=
  if s.queueEmpty ≠ -1 then .ok ⟨none, false, s⟩
  else do
    let (proc, s) ← s.dispatch prio
    match proc with
    | none => return ⟨none, true, { s with slot := fullSlots }⟩
    | some p => return ⟨some p, false, s⟩

/-- The critical section of `put_mlq_proc` and of `add_mlq_proc`. -/
def enqueueMlq (prio : π → Nat) (s : Sched π) (p : π) : Exec (Sched π) :=
  if h : prio p < maxPrio then
    .ok { s with
      mlqReadyQueue := Function.update s.mlqReadyQueue ⟨prio p, h⟩
        ((s.mlqReadyQueue ⟨prio p, h⟩).enqueue (some p)) }
  else .error .outOfBounds

/-- `put_mlq_proc`. -/
def putMlqProc (prio : π → Nat) (s : Sched π) (p : π) : Exec (Sched π) := enqueueMlq prio s p

/-- `add_mlq_proc`. -/
def addMlqProc (prio : π → Nat) (s : Sched π) (p : π) : Exec (Sched π) := enqueueMlq prio s p

/-- The first critical section of `put_proc`. -/
def putReady (s : Sched π) (p : π) : Sched π :=
  { s with readyQueue := s.readyQueue.enqueue (some p) }

/-- The first critical section of `add_proc`. -/
def addRunning (s : Sched π) (p : π) : Sched π :=
  { s with runningList := s.runningList.enqueue (some p) }

/-- `put_proc`. -/
def putProc (prio : π → Nat) (s : Sched π) (p : π) : Exec (Sched π) :=
  putMlqProc prio (putReady s p) p

/-- `add_proc`. -/
def addProc (prio : π → Nat) (s : Sched π) (p : π) : Exec (Sched π) :=
  addMlqProc prio (addRunning s p) p

/-! ## What one call can do -/

/-- The pointers waiting at a level, in queue order. -/
def waiting (s : Sched π) (p : Level) : List (Option π) := (s.mlqReadyQueue p).entries

/-- Every level holds processes of its own priority only. -/
def Sorted (prio : π → Nat) (s : Sched π) : Prop :=
  ∀ p : Level, (s.mlqReadyQueue p).AllPrio prio p

/-- Everything one `get_mlq_proc` can do to a scheduler state. -/
inductive GetOutcome (s : Sched π) : Got π → Prop where
  /-- Nobody waits anywhere. -/
  | idle (hnone : ∀ p, s.waiting p = []) : GetOutcome s ⟨none, false, s⟩
  /-- Somebody waits, but every level with a process is out of slots. -/
  | replenish (hsome : ∃ p, s.waiting p ≠ []) (hspent : ∀ p, s.waiting p ≠ [] → s.slot p ≤ 0) :
      GetOutcome s ⟨none, true, { s with slot := fullSlots }⟩
  /-- The oldest process of the first level with a process and a slot. -/
  | dispatch {p : Level} {x : π} {rest : List (Option π)} {q : Queue π}
      (hhead : s.waiting p = some x :: rest) (hslot : 0 < s.slot p)
      (hfirst : ∀ k < p, s.waiting k ≠ [] → s.slot k ≤ 0) (hq : q.entries = rest) :
      GetOutcome s ⟨some x, false,
        { s with
          mlqReadyQueue := Function.update s.mlqReadyQueue p q
          slot := Function.update s.slot p (s.slot p - 1) }⟩

theorem queueEmpty_eq_neg_one {s : Sched π} :
    s.queueEmpty = -1 ↔ ∃ p, s.waiting p ≠ [] := by
  have hany : ((List.finRange maxPrio).any fun p => !(s.mlqReadyQueue p).empty) = true ↔
      ∃ p, s.waiting p ≠ [] := by
    simp [waiting, List.any_eq_true, ← Queue.empty_eq_true]
  rw [← hany, queueEmpty]
  split
  · simp_all
  · split <;> simp_all

theorem firstReady_eq_none {s : Sched π} (h : s.firstReady = none) (p : Level)
    (hp : s.waiting p ≠ []) : s.slot p ≤ 0 := by
  have := List.find?_eq_none.mp h p (List.mem_finRange p)
  have hne : (s.mlqReadyQueue p).empty = false := by
    simpa [waiting, ← Queue.empty_eq_true] using hp
  simpa [hne] using this

theorem firstReady_eq_some {s : Sched π} {p : Level} (h : s.firstReady = some p) :
    s.waiting p ≠ [] ∧ 0 < s.slot p ∧ ∀ k < p, s.waiting k ≠ [] → s.slot k ≤ 0 := by
  obtain ⟨hp, i, hi, hpi, hbefore⟩ := List.find?_eq_some_iff_getElem.mp h
  have hp' : (s.mlqReadyQueue p).empty = false ∧ 0 < s.slot p := by simpa using hp
  refine ⟨fun hnil => ?_, hp'.2, fun k hk hne => ?_⟩
  · have := Queue.empty_eq_true.mpr hnil
    simp [this] at hp'
  · have hpv : (p : Nat) = i := by rw [← hpi]; simp
    have hkb := hbefore k (hpv ▸ hk)
    have hne' : (s.mlqReadyQueue k).empty = false := by
      simpa [waiting, ← Queue.empty_eq_true] using hne
    simpa [hne'] using hkb

/-- **`get_mlq_proc` never faults on a sorted scheduler, and does one of three things.** -/
theorem getMlqProc_outcome {prio : π → Nat} {s : Sched π} (hs : s.Sorted prio) :
    ∃ g, s.getMlqProc prio = .ok g ∧ GetOutcome s g := by
  unfold getMlqProc
  by_cases hsome : ∃ p, s.waiting p ≠ []
  · rw [if_neg (by simpa using queueEmpty_eq_neg_one.mpr hsome)]
    unfold dispatch
    cases hready : s.firstReady with
    | none => exact ⟨_, rfl, .replenish hsome (firstReady_eq_none hready)⟩
    | some p =>
        obtain ⟨hne, hslot, hfirst⟩ := firstReady_eq_some hready
        obtain ⟨o, rest, hentries⟩ := List.exists_cons_of_ne_nil hne
        obtain ⟨x, rfl, -⟩ := hs p o (by rw [show (s.mlqReadyQueue p).entries = _ from hentries]; simp)
        obtain ⟨q, hdeq, hq⟩ := Queue.dequeue_head (hs p) p.isLt hentries
        simp only [hdeq]
        exact ⟨_, rfl, .dispatch hentries hslot hfirst hq⟩
  · have hnone : ∀ p, s.waiting p = [] := fun p => by
      by_contra hp
      exact hsome ⟨p, hp⟩
    rw [if_pos (fun h => hsome (queueEmpty_eq_neg_one.mp h))]
    exact ⟨_, rfl, .idle hnone⟩

theorem getMlqProc_cases {prio : π → Nat} {s : Sched π} {g : Got π} (hs : s.Sorted prio)
    (h : s.getMlqProc prio = .ok g) : GetOutcome s g := by
  obtain ⟨g', hg', hout⟩ := getMlqProc_outcome hs
  rw [h] at hg'
  cases hg'
  exact hout

/-- What an enqueue at the process's level does to the levels. -/
theorem enqueueMlq_cases {prio : π → Nat} {s s' : Sched π} {p : π}
    (h : enqueueMlq prio s p = .ok s') :
    ∃ hp : prio p < maxPrio,
      s' = { s with
        mlqReadyQueue := Function.update s.mlqReadyQueue ⟨prio p, hp⟩
          ((s.mlqReadyQueue ⟨prio p, hp⟩).enqueue (some p)) } := by
  unfold enqueueMlq at h
  split at h
  · next hp => exact ⟨hp, by cases h; rfl⟩
  · cases h

/-! ## The levels stay sorted -/

theorem sorted_initScheduler (prio : π → Nat) : (initScheduler : Sched π).Sorted prio := by
  intro p o ho
  simp [initScheduler] at ho

theorem Sorted.enqueueMlq {prio : π → Nat} {s s' : Sched π} {p : π} (hs : s.Sorted prio)
    (h : enqueueMlq prio s p = .ok s') : s'.Sorted prio := by
  obtain ⟨hp, rfl⟩ := enqueueMlq_cases h
  intro k o ho
  rcases eq_or_ne k ⟨prio p, hp⟩ with rfl | hne
  · simp only [Function.update_self, Queue.entries_enqueue] at ho
    split at ho
    · rcases List.mem_append.mp ho with ho | ho
      · exact hs _ o ho
      · exact ⟨p, by simpa using ho, rfl⟩
    · exact hs _ o ho
  · simp only [Function.update_of_ne hne] at ho
    exact hs k o ho

theorem Sorted.getMlqProc {prio : π → Nat} {s : Sched π} {g : Got π} (hs : s.Sorted prio)
    (h : GetOutcome s g) : g.sched.Sorted prio := by
  cases h with
  | idle => exact hs
  | replenish => exact hs
  | @dispatch p x rest q hhead hslot hfirst hq =>
      intro k o ho
      rcases eq_or_ne k p with rfl | hne
      · simp only [Function.update_self, hq] at ho
        refine hs k o ?_
        rw [show (s.mlqReadyQueue k).entries = _ from hhead]
        exact List.mem_cons_of_mem _ ho
      · simp only [Function.update_of_ne hne] at ho
        exact hs k o ho

/-- The process `get_mlq_proc` hands out belongs to the level it was taken from. -/
theorem Sorted.prio_head {prio : π → Nat} {s : Sched π} {p : Level} {x : π}
    {rest : List (Option π)} (hs : s.Sorted prio) (h : s.waiting p = some x :: rest) :
    prio x = p := by
  obtain ⟨y, hy, hprio⟩ := hs p (some x)
    (by rw [show (s.mlqReadyQueue p).entries = _ from h]; simp)
  cases hy
  exact hprio

end Sched

end Ossim
