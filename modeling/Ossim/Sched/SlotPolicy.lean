import Ossim.Library.Steps
import Ossim.Sched.Basic

/-!
# The slot policy of the multi-level queue

A run of the scheduler is any sequence of `add_proc`, `put_proc` and `get_proc` from
`init_scheduler`. `Counted` pairs the scheduler with a history variable: how many processes each
level has handed out since the slot array was last filled. The counter looks only at what
`get_proc` returned, never at a slot.

The invariant `Balanced` says that a level's slot is its quota minus what the level was served, and
that the difference never goes below zero. Everything the policy promises follows from it and the
case list `Sched.GetOutcome`.
-/

namespace Ossim

variable {π : Type}

/-- An operation on the scheduler. -/
inductive SchedOp (π : Type) where
  | add (p : π)
  | put (p : π)
  | get

/-- A scheduler, and how often each level was served since the last replenishment. -/
structure Counted (π : Type) where
  sched : Sched π
  served : Level → Nat

namespace Counted

/-- The counter after a `get_proc`. -/
def serve (prio : π → Nat) (served : Level → Nat) (g : Got π) : Level → Nat :=
  if g.replenished then fun _ => 0
  else
    match g.proc with
    | some x => fun p => if (p : Nat) = prio x then served p + 1 else served p
    | none => served

/-- The state after `init_scheduler`. -/
def init : Counted π := ⟨Sched.initScheduler, fun _ => 0⟩

/-- One operation. -/
def step (prio : π → Nat) (c : Counted π) : SchedOp π → Exec (Counted π)
  | .add p => do return { c with sched := ← c.sched.addProc prio p }
  | .put p => do return { c with sched := ← c.sched.putProc prio p }
  | .get => do
    let g ← c.sched.getMlqProc prio
    return ⟨g.sched, serve prio c.served g⟩

/-- The step relation of the counted scheduler. -/
def Step (prio : π → Nat) (c : Counted π) (op : SchedOp π) (c' : Counted π) : Prop :=
  c.step prio op = .ok c'

/-- The invariant: levels sorted by priority, and every slot is the quota minus the services. -/
structure Balanced (prio : π → Nat) (c : Counted π) : Prop where
  sorted : c.sched.Sorted prio
  slot_eq : ∀ p : Level, c.sched.slot p = (maxPrio : Int) - (p : Nat) - c.served p
  slot_nonneg : ∀ p : Level, 0 ≤ c.sched.slot p

variable {prio : π → Nat} {c : Counted π}

theorem balanced_init (prio : π → Nat) : Balanced prio (init : Counted π) where
  sorted := Sched.sorted_initScheduler prio
  slot_eq p := by simp [init, Sched.initScheduler, Sched.fullSlots]
  slot_nonneg p := by
    have := p.isLt
    simp only [init, Sched.initScheduler, Sched.fullSlots]
    omega

/-- Entering a process at its level touches no slot. -/
theorem Balanced.enqueueMlq {s : Sched π} {p : π} (hc : Balanced prio c)
    (h : c.sched.enqueueMlq prio p = .ok s) : Balanced prio { c with sched := s } := by
  have hsorted := hc.sorted.enqueueMlq h
  obtain ⟨hp, rfl⟩ := Sched.enqueueMlq_cases h
  exact ⟨hsorted, hc.slot_eq, hc.slot_nonneg⟩

theorem Balanced.getMlqProc {g : Got π} (hc : Balanced prio c)
    (h : Sched.GetOutcome c.sched g) :
    Balanced prio ⟨g.sched, serve prio c.served g⟩ := by
  have hsorted := hc.sorted.getMlqProc h
  cases h with
  | idle => exact ⟨hsorted, hc.slot_eq, hc.slot_nonneg⟩
  | replenish =>
      refine ⟨hsorted, fun p => ?_, fun p => ?_⟩
      · simp [serve, Sched.fullSlots]
      · have := p.isLt
        simp only [Sched.fullSlots]
        omega
  | @dispatch p x rest q hhead hslot hfirst hq =>
      have hprio : prio x = p := hc.sorted.prio_head hhead
      refine ⟨hsorted, fun k => ?_, fun k => ?_⟩
      · rcases eq_or_ne k p with rfl | hne
        · have := hc.slot_eq k
          simp only [serve, Function.update_self, hprio, Bool.false_eq_true, if_false, if_true]
          omega
        · have hk : (k : Nat) ≠ p := fun h => hne (Fin.ext h)
          simpa [serve, Function.update_of_ne hne, hprio, hk] using hc.slot_eq k
      · rcases eq_or_ne k p with rfl | hne
        · simp only [Function.update_self]
          omega
        · simpa [Function.update_of_ne hne] using hc.slot_nonneg k

/-- **Every operation keeps the balance.** -/
theorem Balanced.step {c' : Counted π} {op : SchedOp π} (hc : Balanced prio c)
    (h : Step prio c op c') : Balanced prio c' := by
  unfold Step Counted.step at h
  cases op with
  | add p =>
      cases hadd : c.sched.addProc prio p with
      | error e => simp [hadd] at h
      | ok s =>
          simp only [hadd] at h
          cases h
          have hbase : Balanced prio { c with sched := c.sched.addRunning p } :=
            ⟨hc.sorted, hc.slot_eq, hc.slot_nonneg⟩
          exact hbase.enqueueMlq hadd
  | put p =>
      cases hput : c.sched.putProc prio p with
      | error e => simp [hput] at h
      | ok s =>
          simp only [hput] at h
          cases h
          have hbase : Balanced prio { c with sched := c.sched.putReady p } :=
            ⟨hc.sorted, hc.slot_eq, hc.slot_nonneg⟩
          exact hbase.enqueueMlq hput
  | get =>
      cases hget : c.sched.getMlqProc prio with
      | error e => simp [hget] at h
      | ok g =>
          simp only [hget] at h
          cases h
          exact hc.getMlqProc (Sched.getMlqProc_cases hc.sorted hget)

/-- A level without slots has been served its whole quota. -/
theorem Balanced.served_of_slot_nonpos (hc : Balanced prio c) {p : Level}
    (h : c.sched.slot p ≤ 0) : c.served p = maxPrio - p := by
  have h1 := hc.slot_eq p
  have h2 := hc.slot_nonneg p
  have := p.isLt
  omega

/-- **The slot policy.** After any sequence of operations the slot of a level is its quota minus
the dispatches from it since the last replenishment, and not negative. The next `get_proc` succeeds;
if it returns a process, every better level where somebody waits has used its whole quota; and it
replenishes only if somebody waits somewhere and every such level has used its whole quota. -/
theorem slot_policy {ops : List (SchedOp π)} (hrun : Steps (Step prio) init ops c) :
    (∀ p : Level, c.sched.slot p = (maxPrio : Int) - (p : Nat) - c.served p ∧
        0 ≤ c.sched.slot p) ∧
      ∃ g, c.sched.getMlqProc prio = .ok g ∧
        (∀ x, g.proc = some x → ∃ p : Level, (p : Nat) = prio x ∧
          (c.sched.waiting p).head? = some (some x) ∧
          ∀ k < p, c.sched.waiting k ≠ [] → c.served k = maxPrio - k) ∧
        (g.replenished = true → (∃ p, c.sched.waiting p ≠ []) ∧
          ∀ p, c.sched.waiting p ≠ [] → c.served p = maxPrio - p) := by
  have hc : Balanced prio c :=
    hrun.state_invariant (balanced_init prio) fun _ _ _ hb hs => hb.step hs
  refine ⟨fun p => ⟨hc.slot_eq p, hc.slot_nonneg p⟩, ?_⟩
  obtain ⟨g, hg, hout⟩ := Sched.getMlqProc_outcome hc.sorted
  refine ⟨g, hg, ?_⟩
  cases hout with
  | idle hnone => simp
  | replenish hsome hspent =>
      exact ⟨by simp, fun _ => ⟨hsome, fun p hp => hc.served_of_slot_nonpos (hspent p hp)⟩⟩
  | @dispatch p x rest q hhead hslot hfirst hq =>
      refine ⟨fun y hy => ?_, by simp⟩
      cases hy
      exact ⟨p, (hc.sorted.prio_head hhead).symm, by rw [hhead]; rfl,
        fun k hk hne => hc.served_of_slot_nonpos (hfirst k hk hne)⟩

/-- The policy on a run that spends the single slot of level 139: the next `get_proc` replenishes,
and the waiting level had its whole quota. -/
theorem slot_policy_spent_level :
    ∃ c, Steps (Step fun _ : Unit => 139) init [.add (), .get, .put ()] c ∧
      ∃ g, c.sched.getMlqProc (fun _ => 139) = .ok g ∧ g.replenished = true ∧
        (∃ p, c.sched.waiting p ≠ []) ∧
        ∀ p, c.sched.waiting p ≠ [] → c.served p = maxPrio - p := by
  have hrun : Steps (Step fun _ : Unit => 139) init [.add (), .get, .put ()] _ :=
    .cons rfl (.cons rfl (.cons rfl (.nil _)))
  obtain ⟨-, g, hg, -, hpolicy⟩ := slot_policy hrun
  have hrep : g.replenished = true := by
    cases hg
    rfl
  exact ⟨_, hrun, g, hg, hrep, hpolicy hrep⟩

end Counted

end Ossim
