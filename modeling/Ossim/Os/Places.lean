import Ossim.Library.Sum
import Ossim.Os.Step

/-!
# Where a process is

At any time a process is in exactly one of four situations: not yet handed to the scheduler, held by
a CPU, waiting in a level queue, or freed. `places s p` counts them, with every CPU and every cell
of every level counted separately. No action raises the count, and it drops only when a process is
refused by a full level (`places_cpuStep`, `places_ldStep`) or removed by `killall` (`places_killStep`).
That one fact carries three results: a process is never in two places (`Ossim.Os.Ownership`), none is
lost (`Ossim.Os.Conservation`), and none is left behind (`Ossim.Os.Completion`).
-/

namespace Ossim

/-- The process a CPU holds: from `get_proc` returning it until `put_mlq_proc` has enqueued it, or
it was freed. Afterwards `proc` still has the old value, until the next `get_proc`. -/
def Cpu.held (l : Cpu) : Option Nat :=
  match l.phase with
  | .getNext => none
  | _ => l.proc

namespace Os

variable {cfg : Config}

/-- How many CPUs hold the process. -/
def heldBy (s : Os cfg) (p : Nat) : Nat := ∑ c, if (s.cpu c).held = some p then 1 else 0

/-- How many cells of the level queues point to the process. -/
def queued (sched : Sched Nat) (p : Nat) : Nat := ∑ l : Level, (sched.waiting l).count (some p)

/-- The number of places the process is in; the loader has entered the processes below its
index `i` into their levels. -/
def places (s : Os cfg) (p : Nat) : Nat :=
  s.heldBy p + queued s.sched p + (if s.freed p then 1 else 0) +
    (if s.ld.i ≤ p then 1 else 0)

/-! ## Field lemmas -/

@[simp] theorem setCpu_sched (s : Os cfg) (c l) : (s.setCpu c l).sched = s.sched := rfl
@[simp] theorem setCpu_ld (s : Os cfg) (c l) : (s.setCpu c l).ld = s.ld := rfl
@[simp] theorem setCpu_done (s : Os cfg) (c l) : (s.setCpu c l).done = s.done := rfl
@[simp] theorem setCpu_pc (s : Os cfg) (c l) : (s.setCpu c l).pc = s.pc := rfl
@[simp] theorem setCpu_executed (s : Os cfg) (c l) : (s.setCpu c l).executed = s.executed := rfl
@[simp] theorem setCpu_freed (s : Os cfg) (c l) : (s.setCpu c l).freed = s.freed := rfl
@[simp] theorem setCpu_refused (s : Os cfg) (c l) : (s.setCpu c l).refused = s.refused := rfl

@[simp] theorem setCpu_cpu (s : Os cfg) (c l) :
    (s.setCpu c l).cpu = Function.update s.cpu c l := rfl

/-! ## Counting the processes in the levels -/

/-- Replacing the queue of one level exchanges that level's count. -/
theorem queued_update (sched : Sched Nat) (l : Level) (q : Queue Nat) (slot : Level → Int)
    (p : Nat) :
    queued { sched with mlqReadyQueue := Function.update sched.mlqReadyQueue l q, slot := slot } p +
        (sched.waiting l).count (some p) =
      queued sched p + q.entries.count (some p) :=
  FamilySum.sum_update_add (fun _ (q : Queue Nat) => q.entries.count (some p)) sched.mlqReadyQueue l q

/-- `get_proc` moves the process it returns out of its level and leaves everybody else. -/
theorem queued_getMlqProc {sched : Sched Nat} {g : Got Nat} (h : Sched.GetOutcome sched g)
    (p : Nat) : queued g.sched p + (if g.proc = some p then 1 else 0) = queued sched p := by
  cases h with
  | idle => simp
  | replenish => simp [queued, Sched.waiting]
  | @dispatch l x rest q hhead hslot hfirst hq =>
      have hupd := queued_update sched l q (Function.update sched.slot l (sched.slot l - 1)) p
      rw [hhead, hq, List.count_cons] at hupd
      simp only [beq_iff_eq] at hupd
      simp only at hupd ⊢
      omega

/-- Entering a process adds it once to its level, unless the level is full. -/
theorem queued_enqueueLevel {s t : Os cfg} {p : Nat} (h : s.enqueueLevel p = some t) (r : Nat) :
    queued t.sched r =
      queued s.sched r + (if p = r ∧ s.levelFull p = false then 1 else 0) := by
  obtain ⟨sched, hok, rfl⟩ := enqueueLevel_cases h
  obtain ⟨hp, rfl⟩ := Sched.enqueueMlq_cases hok
  have hupd := queued_update s.sched ⟨cfg.prio p, hp⟩
    ((s.sched.mlqReadyQueue ⟨cfg.prio p, hp⟩).enqueue (some p)) s.sched.slot r
  rw [Queue.entries_enqueue] at hupd
  simp only [Sched.waiting] at hupd
  by_cases hlt : (s.sched.mlqReadyQueue ⟨cfg.prio p, hp⟩).size < maxQueueSize
  · have hfull : s.levelFull p = false := by simp [levelFull, hp, hlt]
    rw [if_pos hlt, List.count_append, List.count_singleton] at hupd
    simp only [hfull, and_true, beq_iff_eq, Option.some.injEq] at hupd ⊢
    omega
  · have hfull : s.levelFull p = true := by simpa [levelFull, hp] using hlt
    rw [if_neg hlt] at hupd
    simp only [hfull, Bool.true_eq_false, and_false, if_false]
    omega

/-- Removing an entry, or the last one, never raises a count. -/
theorem count_removeFromQueue {q q' : Queue Nat} {idx : Nat} (h : q.removeFromQueue idx = .ok q')
    (o : Option Nat) : q'.entries.count o ≤ q.entries.count o := by
  unfold Queue.removeFromQueue at h
  split at h
  · cases h
  · cases h
    rcases Nat.lt_or_ge idx q.size with hlt | hge
    · rw [Queue.entries_closeGap q hlt]
      exact (List.eraseIdx_sublist q.entries idx).count_le o
    · rw [Queue.entries_closeGap_of_le q hge]
      exact (List.dropLast_sublist q.entries).count_le o

/-! ## Counting the CPUs that hold a process -/

/-- Replacing the local variables of one CPU exchanges what it holds. -/
theorem heldBy_setCpu (s : Os cfg) (c : Fin cfg.numCpus) (l : Cpu) (p : Nat) :
    (s.setCpu c l).heldBy p + (if (s.cpu c).held = some p then 1 else 0) =
      s.heldBy p + (if l.held = some p then 1 else 0) :=
  FamilySum.sum_update_add (fun _ (l : Cpu) => if l.held = some p then 1 else 0) s.cpu c l

theorem one_le_heldBy {s : Os cfg} {c : Fin cfg.numCpus} {p : Nat}
    (h : (s.cpu c).held = some p) : 1 ≤ s.heldBy p := by
  have := FamilySum.le_sum (fun c => if (s.cpu c).held = some p then 1 else 0) c
  simpa [heldBy, h] using this

/-- Two CPUs that hold a process make the count two. -/
theorem two_le_heldBy {s : Os cfg} {c d : Fin cfg.numCpus} {p : Nat} (hne : c ≠ d)
    (hc : (s.cpu c).held = some p) (hd : (s.cpu d).held = some p) : 2 ≤ s.heldBy p := by
  have := FamilySum.add_le_sum (fun c => if (s.cpu c).held = some p then 1 else 0) hne
  simpa [heldBy, hc, hd] using this

/-! ## The count along a step -/

/-- `setCpu` changes the count only by what the CPU held and holds. -/
theorem places_setCpu (t : Os cfg) {c : Fin cfg.numCpus} {l : Cpu} {old new : Option Nat}
    (hold : (t.cpu c).held = old) (hnew : l.held = new) (p : Nat) :
    (t.setCpu c l).places p + (if old = some p then 1 else 0) =
      t.places p + (if new = some p then 1 else 0) := by
  subst hold hnew
  have := heldBy_setCpu t c l p
  show (t.setCpu c l).heldBy p + queued t.sched p + (if t.freed p then 1 else 0) +
    (if t.ld.i ≤ p then 1 else 0) + _ = _
  unfold places
  omega

theorem places_setCpu_of_held (t : Os cfg) {c : Fin cfg.numCpus} {l : Cpu}
    (h : l.held = (t.cpu c).held) (p : Nat) : (t.setCpu c l).places p = t.places p := by
  have := places_setCpu t (c := c) rfl h p
  omega

theorem places_getMlqProc {s : Os cfg} {g : Got Nat} (h : Sched.GetOutcome s.sched g) (p : Nat) :
    ({ s with sched := g.sched } : Os cfg).places p + (if g.proc = some p then 1 else 0) =
      s.places p := by
  have := queued_getMlqProc h p
  simp only [places, heldBy] at this ⊢
  omega

theorem places_enqueueLevel {s t : Os cfg} {p : Nat} (h : s.enqueueLevel p = some t) (r : Nat) :
    t.places r = s.places r + (if p = r ∧ s.levelFull p = false then 1 else 0) := by
  have hq := queued_enqueueLevel h r
  obtain ⟨sched, -, rfl⟩ := enqueueLevel_cases h
  simp only [places, heldBy] at hq ⊢
  omega

/-- A held process has not been freed, as long as nobody is in two places. -/
theorem freed_of_held {s : Os cfg} {c : Fin cfg.numCpus} {p : Nat} (hone : s.places p ≤ 1)
    (h : (s.cpu c).held = some p) : s.freed p = false := by
  have h1 := one_le_heldBy h
  cases hf : s.freed p with
  | false => rfl
  | true =>
      simp only [places, hf, if_true] at hone
      omega

/-- A CPU action keeps the count, except that a process refused by its level is in no place. -/
theorem places_cpuStep {s s' : Os cfg} {c : Fin cfg.numCpus} (hs : s.sched.Sorted cfg.prio)
    (hone : ∀ p, s.places p ≤ 1) (h : CpuStep s c s') (p : Nat) :
    s'.places p ≤ s.places p ∧ (s'.refused p = false → s'.places p = s.places p) := by
  -- only `put_proc` can lose a process, and then it marks it as refused
  suffices hquiet : s'.places p = s.places p ∨
      (s'.places p ≤ s.places p ∧ s'.refused p = true) by
    rcases hquiet with heq | ⟨hle, href⟩
    · exact ⟨heq.le, fun _ => heq⟩
    · exact ⟨hle, fun hf => by rw [href] at hf; cases hf⟩
  cases h with
  | @idleGet g hphase hproc hget =>
      left
      have hold : (s.cpu c).held = none := by simp [Cpu.held, hphase, hproc]
      have hnew : Cpu.held ⟨if g.proc.isNone then .slot else .recheck, g.proc,
          (s.cpu c).timeLeft⟩ = g.proc := by
        cases hg : g.proc <;> simp [Cpu.held]
      have hset := places_setCpu { s with sched := g.sched } hold hnew p
      have hgot := places_getMlqProc (Sched.getMlqProc_cases hs hget) p
      simp only [reduceCtorEq, if_false] at hset
      omega
  | @finish r hphase hproc hpc =>
      left
      have hold : (s.cpu c).held = some r := by simp [Cpu.held, hphase, hproc]
      have hset := places_setCpu { s with freed := Function.update s.freed r true } hold
        (l := ⟨.getNext, (s.cpu c).proc, 0⟩) (show Cpu.held _ = none from rfl) p
      -- `r` passes from the CPU to the freed ones, where it was not counted yet
      have hfreed := freed_of_held (hone r) hold
      have hplaces : ({ s with freed := Function.update s.freed r true } : Os cfg).places p =
          s.places p + (if r = p then 1 else 0) := by
        rcases eq_or_ne r p with rfl | hne
        · simp [places, heldBy, hfreed]
          omega
        · simp [places, heldBy, Function.update_of_ne hne.symm, hne]
      simp only [Option.some.injEq, reduceCtorEq, if_false] at hset
      omega
  | @putMlq r t hphase hproc henq =>
      have hold : (s.cpu c).held = some r := by simp [Cpu.held, hphase, hproc]
      have hput := places_enqueueLevel henq p
      obtain ⟨sched, -, rfl⟩ := enqueueLevel_cases henq
      have hset := places_setCpu { s with
        sched := sched
        refused := Function.update s.refused r (s.refused r || s.levelFull r) } hold
        (l := ⟨.getNext, (s.cpu c).proc, (s.cpu c).timeLeft⟩) (show Cpu.held _ = none from rfl) p
      simp only [Option.some.injEq, reduceCtorEq, if_false] at hset
      rcases eq_or_ne r p with rfl | hne
      · cases hfull : s.levelFull r with
        | false =>
            left
            simp only [hfull, and_self, if_true] at hput hset ⊢
            omega
        | true =>
            right
            simp only [hfull, Bool.true_eq_false, and_false, if_false, if_true] at hput hset ⊢
            exact ⟨by omega, by simp⟩
      · left
        simp only [hne, false_and, if_false] at hput hset
        omega
  | @nextGet g hphase hget =>
      left
      have hold : (s.cpu c).held = none := by simp [Cpu.held, hphase]
      have hset := places_setCpu { s with sched := g.sched } hold
        (l := ⟨.recheck, g.proc, (s.cpu c).timeLeft⟩) (show Cpu.held _ = g.proc from rfl) p
      have hgot := places_getMlqProc (Sched.getMlqProc_cases hs hget) p
      simp only [reduceCtorEq, if_false] at hset
      omega
  | putReady hphase hproc => exact .inl (places_setCpu_of_held _ (by simp [Cpu.held, hphase]) p)
  | exec hphase hproc => exact .inl (places_setCpu_of_held _ (by simp [Cpu.held, hphase]) p)
  | expire hphase | resume hphase | exit hphase | skip hphase | dispatch hphase
  | runNothing hphase | fetch hphase | slot hphase | detach hphase =>
      exact .inl (places_setCpu_of_held s (by simp [Cpu.held, hphase]) p)

/-- A loader action keeps the count in the same sense. -/
theorem places_ldStep {s s' : Os cfg} (h : LdStep s s') (p : Nat) :
    s'.places p ≤ s.places p ∧ (s'.refused p = false → s'.places p = s.places p) := by
  cases h with
  | @addMlq t hphase henq =>
      have hput := places_enqueueLevel henq p
      obtain ⟨sched, -, rfl⟩ := enqueueLevel_cases henq
      rcases eq_or_ne s.ld.i p with rfl | hne
      -- `i++` takes the process from the ones still to come
      · simp only [places, heldBy] at hput ⊢
        rw [if_neg (Nat.not_succ_le_self _)]
        rw [if_pos (Nat.le_refl _)] at hput ⊢
        cases hfull : s.levelFull s.ld.i with
        | false =>
            simp only [hfull, and_self, if_true] at hput ⊢
            exact ⟨by omega, fun _ => by omega⟩
        | true =>
            simp only [hfull, Bool.true_eq_false, and_false, if_false] at hput ⊢
            exact ⟨by omega, by simp⟩
      · have hi : (s.ld.i + 1 ≤ p) = (s.ld.i ≤ p) := by
          apply propext
          omega
        simp only [places, heldBy, hne, false_and, if_false, hi] at hput ⊢
        exact ⟨by omega, fun _ => by omega⟩
  | early | start | setDone | addRunning | slot | detach => exact ⟨le_refl _, fun _ => rfl⟩

/-- Passing to the next slot moves nobody. -/
theorem held_releaseCpu (l : Cpu) : (releaseCpu l).held = l.held := by
  unfold releaseCpu
  split
  · next hphase => simp [Cpu.held, hphase]
  · rfl

theorem places_tick {s s' : Os cfg} (h : s.tick = some s') (p : Nat) :
    s'.places p = s.places p := by
  obtain ⟨-, -, rfl⟩ := tick_cases h
  simp only [places, heldBy, held_releaseCpu, releaseLd_i]

theorem places_killStep {s s' : Os cfg} (h : KillStep s s') (p : Nat) :
    s'.places p ≤ s.places p := by
  cases h with
  | @ready idx q hq =>
      have hupd := queued_update s.sched levelZero q s.sched.slot p
      have hle := count_removeFromQueue hq (some p)
      simp only [Sched.waiting] at hupd
      simp only [places, heldBy]
      omega
  | running => exact le_refl _

end Os

end Ossim
