import Ossim.Os.Completion

/-!
# CPUs that never stop

Only one of the two tests for an idle CPU looks at `done`. After a finished or a returned process
`cpu_routine` reaches "Recheck process status after loading new process" and leaves the loop if
nothing came and the loader is through. But a CPU that comes round without a process takes the first
branch of the loop, "First load failed. skip dummy load": it asks once more, gets `NULL`, waits for
the next slot and comes round again, whatever `done` says. Once it has been idle for one slot at the
end of the work, it stays in the loop for ever.

`WorkOver` says that the loader has set `done` and that nobody is running or waiting; nothing can start
again from there (`Resting.step`). Which CPUs leave, and which go round, is decided by where they stand
(`leaves_iff`).
-/

namespace Ossim

/-- Where a CPU without a process can stand. -/
inductive Cpu.Idle : Cpu → Prop
  | getNext {proc : Option Nat} {timeLeft : Int} : Idle ⟨.getNext, proc, timeLeft⟩
  | check {timeLeft : Int} : Idle ⟨.check, none, timeLeft⟩
  | recheck {timeLeft : Int} : Idle ⟨.recheck, none, timeLeft⟩
  | slot {timeLeft : Int} : Idle ⟨.slot, none, timeLeft⟩
  | waiting {timeLeft : Int} : Idle ⟨.waiting, none, timeLeft⟩
  | stopped {timeLeft : Int} : Idle ⟨.stopped, none, timeLeft⟩
  | detached {timeLeft : Int} : Idle ⟨.detached, none, timeLeft⟩

/-- The next place of a CPU without a process, when there is nothing to do and `done` is set. -/
def CpuPhase.idleNext : CpuPhase → CpuPhase
  | .check => .slot
  | .slot => .waiting
  | .getNext => .recheck
  | .recheck => .stopped
  | .stopped => .detached
  | phase => phase

namespace Os

variable {cfg : Config} {s s' : Os cfg} {c : Fin cfg.numCpus}

/-- The work is over: the loader is through, nobody waits, and no CPU holds a process. -/
structure WorkOver (s : Os cfg) : Prop where
  done : s.done = true
  empty : ∀ l, s.sched.waiting l = []
  unheld : ∀ c, (s.cpu c).held = none

/-- A CPU leaves the loop in its next iteration: whatever happens, it does not go through `next_slot`
again, its next action is always possible, and after two of them it is out. -/
structure LeavesNext (s : Os cfg) (c : Fin cfg.numCpus) : Prop where
  noSlot : ∀ as t t', Steps Step s as t → Step t (.cpu c) t' → (t'.cpu c).phase ≠ .slot
  enabled : ∀ as t, Steps Step s as t → ¬ (t.cpu c).Left → ∃ t', Step t (.cpu c) t'
  leaves : ∀ as t, Steps Step s as t → 2 ≤ as.count (.cpu c) → (t.cpu c).Left

/-! ## Nothing starts again -/

/-- A state in which the work is over and every thread is where that can find it. -/
structure Resting (s : Os cfg) : Prop where
  done : s.done = true
  empty : ∀ l, s.sched.waiting l = []
  idle : ∀ c, (s.cpu c).Idle
  finished : s.LdFinished

/-- In the middle of a process a CPU has one. -/
def Busy (l : Cpu) : Prop :=
  l.phase = .putReady ∨ l.phase = .putMlq ∨ l.phase = .run ∨ ∃ ins, l.phase = .exec ins

/-- What the threads of any run have in common. -/
structure Threads (s : Os cfg) : Prop where
  busy : ∀ c, Busy (s.cpu c) → (s.cpu c).proc ≠ none
  finished : s.done = true → s.LdFinished

theorem busy_cpuStep (h : CpuStep s c s') (hbusy : Busy (s'.cpu c)) : (s'.cpu c).proc ≠ none := by
  cases h with
  | idleGet hphase hproc hget =>
      simp only [setCpu_cpu, Function.update_self, Busy] at hbusy
      split at hbusy <;> simp at hbusy
  | putMlq hphase hproc henq => simp [Busy] at hbusy
  | expire hphase hproc => simp [hproc]
  | putReady hphase hproc => simp [hproc]
  | dispatch hphase hproc => simp [hproc]
  | fetch hphase hproc => simp [hproc]
  | finish | resume | nextGet | exit | skip | runNothing | exec | slot | detach =>
      simp [Busy] at hbusy

theorem Threads.step {a : Act cfg} (hs : Threads s) (h : Step s a s') : Threads s' := by
  rcases step_cases h with ⟨c, rfl, hc⟩ | ⟨rfl, hl⟩ | ⟨-, ht⟩ | ⟨-, hk⟩
  · obtain ⟨hld, hdone⟩ := ld_cpuStep hc
    refine ⟨?_, ?_⟩
    · intro d hbusy
      rcases eq_or_ne d c with rfl | hne
      · exact busy_cpuStep hc hbusy
      · rw [cpu_cpuStep_of_ne hc hne] at hbusy ⊢
        exact hs.busy d hbusy
    · intro hdone'
      unfold LdFinished
      rw [hld]
      exact hs.finished (hdone ▸ hdone')
  · have hcpu := (frame_ldStep hl).1
    refine ⟨by rw [hcpu]; exact hs.busy, ?_⟩
    cases hl with
    | setDone => exact fun _ => .inl rfl
    | detach => exact fun _ => .inr rfl
    | addMlq hphase henq =>
        intro hdone'
        obtain ⟨sched, -, rfl⟩ := enqueueLevel_cases henq
        have hfin := hs.finished hdone'
        simp [LdFinished, hphase] at hfin
    | early hphase | start hphase | addRunning hphase | slot hphase =>
        intro hdone'
        have hfin := hs.finished hdone'
        simp [LdFinished, hphase] at hfin
  · obtain ⟨-, -, rfl⟩ := tick_cases ht
    refine ⟨?_, ?_⟩
    · intro d hbusy
      simp only [releaseCpu] at hbusy ⊢
      split at hbusy
      · simp [Busy] at hbusy
      · next hphase =>
        rw [if_neg hphase]
        exact hs.busy d hbusy
    · intro hdone'
      rcases hs.finished hdone' with hphase | hphase
      · exact .inl (by simp [releaseLd, hphase])
      · exact .inr (by simp [releaseLd, hphase])
  · cases hk with
    | ready => exact ⟨hs.busy, hs.finished⟩
    | running => exact ⟨hs.busy, hs.finished⟩

theorem threads_of_steps {as : List (Act cfg)} (hrun : Steps Step (init cfg) as s) : Threads s := by
  refine hrun.state_invariant ⟨?_, ?_⟩ fun _ _ _ hs h => hs.step h
  · intro c hbusy
    simp [init, Busy] at hbusy
  · intro hdone
    cases hdone

theorem idle_of_unheld {l : Cpu} (hbusy : Busy l → l.proc ≠ none) (hheld : l.held = none) :
    l.Idle := by
  obtain ⟨phase, proc, timeLeft⟩ := l
  cases phase with
  | getNext => exact .getNext
  | putReady => exact absurd hheld (hbusy (.inl rfl))
  | putMlq => exact absurd hheld (hbusy (.inr (.inl rfl)))
  | run => exact absurd hheld (hbusy (.inr (.inr (.inl rfl))))
  | exec ins => exact absurd hheld (hbusy (.inr (.inr (.inr ⟨ins, rfl⟩))))
  | check | recheck | slot | waiting | stopped | detached =>
      obtain rfl : proc = none := hheld
      constructor

theorem WorkOver.resting {as : List (Act cfg)} (hover : WorkOver s)
    (hrun : Steps Step (init cfg) as s) : Resting s where
  done := hover.done
  empty := hover.empty
  idle c := idle_of_unheld ((threads_of_steps hrun).busy c) (hover.unheld c)
  finished := (threads_of_steps hrun).finished hover.done

/-- With nobody waiting, `get_proc` returns `NULL` and changes nothing. -/
theorem getMlqProc_of_empty (prio : Nat → Nat) {sched : Sched Nat}
    (hempty : ∀ l, sched.waiting l = []) : sched.getMlqProc prio = .ok ⟨none, false, sched⟩ := by
  have hsorted : sched.Sorted prio := by
    intro l o ho
    rw [show (sched.mlqReadyQueue l).entries = [] from hempty l] at ho
    cases ho
  obtain ⟨g, hg, hout⟩ := Sched.getMlqProc_outcome hsorted
  cases hout with
  | idle => exact hg
  | replenish hsome =>
      obtain ⟨l, hl⟩ := hsome
      exact absurd (hempty l) hl
  | dispatch hhead =>
      rw [hempty] at hhead
      cases hhead

/-- What a CPU does when the work is over. -/
theorem Resting.cpu_next (hs : Resting s) (h : CpuStep s c s') :
    s'.sched = s.sched ∧ (s'.cpu c).phase = (s.cpu c).phase.idleNext ∧ (s'.cpu c).Idle := by
  have hget := getMlqProc_of_empty cfg.prio hs.empty
  have hidle := hs.idle c
  generalize hl : s.cpu c = l at *
  cases h with
  | @idleGet g hphase hproc hg =>
      rw [hget] at hg
      cases hg
      rw [hl] at hphase
      refine ⟨rfl, ?_, ?_⟩
      · simp [hphase, CpuPhase.idleNext]
      · simp only [setCpu_cpu, Function.update_self]
        exact .slot
  | @nextGet g hphase hg =>
      rw [hget] at hg
      cases hg
      rw [hl] at hphase
      refine ⟨rfl, ?_, ?_⟩
      · simp [hphase, CpuPhase.idleNext]
      · simp only [setCpu_cpu, Function.update_self]
        exact .recheck
  | skip hphase hproc hdone => cases hs.done.symm.trans hdone
  | exit hphase hproc hdone =>
      rw [hl] at hphase hproc
      refine ⟨rfl, by simp [hphase, CpuPhase.idleNext], ?_⟩
      simp only [setCpu_cpu, Function.update_self, hl, hproc]
      exact .stopped
  | slot hphase =>
      rw [hl] at hphase
      refine ⟨rfl, by simp [hphase, CpuPhase.idleNext], ?_⟩
      cases hidle <;> cases hphase
      simp only [setCpu_cpu, Function.update_self, hl]
      exact .waiting
  | detach hphase =>
      rw [hl] at hphase
      refine ⟨rfl, by simp [hphase, CpuPhase.idleNext], ?_⟩
      cases hidle <;> cases hphase
      simp only [setCpu_cpu, Function.update_self, hl]
      exact .detached
  | finish hphase hproc | expire hphase hproc | resume hphase hproc | putReady hphase hproc
  | putMlq hphase hproc | dispatch hphase hproc | runNothing hphase hproc | fetch hphase hproc
  | exec hphase hproc =>
      rw [hl] at hphase hproc
      cases hidle <;> cases hphase <;> cases hproc

/-- **When the work is over, it stays over.** -/
theorem Resting.step {a : Act cfg} (hs : Resting s) (h : Step s a s') : Resting s' := by
  rcases step_cases h with ⟨c, rfl, hc⟩ | ⟨rfl, hl⟩ | ⟨-, ht⟩ | ⟨-, hk⟩
  · obtain ⟨hsched, -, hidle⟩ := hs.cpu_next hc
    obtain ⟨hld, hdone⟩ := ld_cpuStep hc
    refine ⟨hdone.trans hs.done, by rw [hsched]; exact hs.empty, ?_, ?_⟩
    · intro d
      rcases eq_or_ne d c with rfl | hne
      · exact hidle
      · rw [cpu_cpuStep_of_ne hc hne]
        exact hs.idle d
    · unfold LdFinished
      rw [hld]
      exact hs.finished
  · have hfin := hs.finished
    cases hl with
    | detach => exact ⟨hs.done, hs.empty, hs.idle, .inr rfl⟩
    | early hphase | start hphase | setDone hphase | addRunning hphase | addMlq hphase
    | slot hphase => simp [LdFinished, hphase] at hfin
  · obtain ⟨-, -, rfl⟩ := tick_cases ht
    refine ⟨hs.done, hs.empty, ?_, ?_⟩
    · intro d
      have hidle := hs.idle d
      simp only
      generalize s.cpu d = l at hidle ⊢
      cases hidle <;> constructor
    · rcases hs.finished with hphase | hphase
      · exact .inl (by simp [releaseLd, hphase])
      · exact .inr (by simp [releaseLd, hphase])
  · cases hk with
    | @ready idx q hq =>
        -- level 0 is empty, so there is nothing to remove
        have hsize : (s.sched.mlqReadyQueue levelZero).size = 0 := by
          rw [← Queue.length_entries]
          exact congrArg List.length (hs.empty levelZero)
        simp [Queue.removeFromQueue, hsize] at hq
    | running => exact ⟨hs.done, hs.empty, hs.idle, hs.finished⟩

theorem Resting.steps {as : List (Act cfg)} (hs : Resting s) (hrun : Steps Step s as s') :
    Resting s' := hrun.state_invariant hs fun _ _ _ ht h => ht.step h

/-- A CPU that does not wait for the timer can go on. -/
theorem Resting.enabled (hs : Resting s) (hready : cpuReady (s.cpu c) = false) :
    ∃ s', Step s (.cpu c) s' ∧ (s'.cpu c).phase = (s.cpu c).phase.idleNext := by
  have hsome : ∃ s', s.cpuStep c = some s' := by
    have hget := getMlqProc_of_empty cfg.prio hs.empty
    have hidle := hs.idle c
    unfold cpuStep
    generalize s.cpu c = l at hidle hready ⊢
    cases hidle with
    | getNext => exact ⟨_, by simp only [hget]; rfl⟩
    | check => exact ⟨_, by simp only [hget]; rfl⟩
    | recheck => exact ⟨_, by simp only [hs.done]; rfl⟩
    | slot => exact ⟨_, rfl⟩
    | stopped => exact ⟨_, rfl⟩
    | waiting | detached => simp [cpuReady] at hready
  obtain ⟨s', hstep⟩ := hsome
  exact ⟨s', hstep, (hs.cpu_next (cpuStep_cases hstep)).2.1⟩

/-! ## The CPUs that leave -/

/-- The CPU has passed `get_proc` for the last time. -/
def Leaving (l : Cpu) : Prop :=
  l.phase = .getNext ∨ l.phase = .recheck ∨ l.Left

/-- The number of actions it still needs. -/
def toLeave (l : Cpu) : Nat :=
  match l.phase with
  | .getNext => 2
  | .recheck => 1
  | _ => 0

theorem leaving_iff {l : Cpu} : Leaving l ↔
    l.phase = .getNext ∨ l.phase = .recheck ∨ l.phase = .stopped ∨ l.phase = .detached := Iff.rfl

theorem left_of_leaving {l : Cpu} (h : Leaving l) (hzero : toLeave l = 0) : l.Left := by
  rcases h with hphase | hphase | hleft
  · simp [toLeave, hphase] at hzero
  · simp [toLeave, hphase] at hzero
  · exact hleft

/-- Leaving takes one action of its own after another, and nothing that others do delays it. -/
theorem Resting.leaving_step {a : Act cfg} (hs : Resting s) (hleave : Leaving (s.cpu c))
    (h : Step s a s') : Leaving (s'.cpu c) ∧ (a = .cpu c → (s'.cpu c).phase ≠ .slot) ∧
      toLeave (s'.cpu c) = toLeave (s.cpu c) - (if a = .cpu c then 1 else 0) := by
  have hsame : s'.cpu c = s.cpu c → a ≠ .cpu c →
      Leaving (s'.cpu c) ∧ (a = .cpu c → (s'.cpu c).phase ≠ .slot) ∧
        toLeave (s'.cpu c) = toLeave (s.cpu c) - (if a = .cpu c then 1 else 0) := by
    intro hcpu hne
    rw [hcpu, if_neg hne]
    exact ⟨hleave, fun he => absurd he hne, rfl⟩
  rcases step_cases h with ⟨d, rfl, hd⟩ | ⟨rfl, hl⟩ | ⟨rfl, ht⟩ | ⟨⟨idx, hact⟩, hk⟩
  · rcases eq_or_ne c d with rfl | hne
    · have hphase := (hs.cpu_next hd).2.1
      rw [if_pos rfl]
      rcases leaving_iff.mp hleave with hp | hp | hp | hp <;>
        simp [leaving_iff, toLeave, hphase, hp, CpuPhase.idleNext]
    · refine hsame (cpu_cpuStep_of_ne hd hne) ?_
      simp [hne.symm]
  · exact hsame (by rw [(frame_ldStep hl).1]) (by simp)
  · obtain ⟨-, -, rfl⟩ := tick_cases ht
    refine hsame ?_ (by simp)
    have hphase : (s.cpu c).phase ≠ .waiting := by
      rcases leaving_iff.mp hleave with hp | hp | hp | hp <;> simp [hp]
    simp [releaseCpu, hphase]
  · refine hsame (by rw [(frame_killStep hk).1]) ?_
    rcases hact with rfl | rfl <;> simp

/-- A CPU at its last `get_proc`, or behind it, leaves in this iteration. -/
theorem Resting.leavesNext (hs : Resting s)
    (hphase : (s.cpu c).phase = .getNext ∨ (s.cpu c).phase = .recheck) : LeavesNext s c := by
  have hleave : Leaving (s.cpu c) := by
    rcases hphase with hp | hp
    · exact .inl hp
    · exact .inr (.inl hp)
  have htwo : toLeave (s.cpu c) ≤ 2 := by
    rcases hphase with hp | hp <;> simp [toLeave, hp]
  -- along the run, the CPU needs fewer actions with every one it takes
  have hrest : ∀ as t, Steps Step s as t →
      Resting t ∧ Leaving (t.cpu c) ∧ toLeave (t.cpu c) ≤ 2 - as.count (.cpu c) := by
    intro as t hrun
    refine hrun.invariant (motive := fun as t => Resting t ∧ Leaving (t.cpu c) ∧
      toLeave (t.cpu c) ≤ 2 - as.count (.cpu c)) ⟨hs, hleave, htwo⟩ ?_
    rintro as t a u ⟨ht, hlt, hle⟩ hstep
    obtain ⟨hlu, -, hcount⟩ := ht.leaving_step hlt hstep
    refine ⟨ht.step hstep, hlu, ?_⟩
    rw [hcount, List.count_append, List.count_singleton]
    simp only [beq_iff_eq]
    split <;> omega
  refine ⟨?_, ?_, ?_⟩
  · intro as t t' hrun hstep
    obtain ⟨ht, hlt, -⟩ := hrest as t hrun
    exact (ht.leaving_step hlt hstep).2.1 rfl
  · intro as t hrun hnot
    obtain ⟨ht, hlt, -⟩ := hrest as t hrun
    have hready : cpuReady (t.cpu c) = false := by
      rcases leaving_iff.mp hlt with hp | hp | hp | hp
      · simp [cpuReady, hp]
      · simp [cpuReady, hp]
      · exact absurd (.inl hp) hnot
      · exact absurd (.inr hp) hnot
    obtain ⟨t', hstep, -⟩ := ht.enabled hready
    exact ⟨t', hstep⟩
  · intro as t hrun hcount
    obtain ⟨-, hlt, hle⟩ := hrest as t hrun
    exact left_of_leaving hlt (by omega)

/-! ## The CPUs that go round -/

/-- How far a CPU is from the timer. -/
def toReady : CpuPhase → Nat
  | .getNext => 3
  | .check | .recheck => 2
  | .slot | .stopped => 1
  | _ => 0

/-- A CPU can go on alone until the timer does not wait for it any more. -/
theorem Resting.drive (hs : Resting s) (c : Fin cfg.numCpus) :
    ∃ as t, Steps Step s as t ∧ cpuReady (t.cpu c) = true ∧ t.ld = s.ld ∧
      ∀ d, cpuReady (s.cpu d) = true → t.cpu d = s.cpu d := by
  induction hn : toReady (s.cpu c).phase using Nat.strongRecOn generalizing s with
  | _ n ih =>
      cases hready : cpuReady (s.cpu c) with
      | true => exact ⟨[], s, .nil s, hready, rfl, fun _ _ => rfl⟩
      | false =>
          obtain ⟨s₁, hstep, hphase⟩ := hs.enabled hready
          have hs₁ := hs.step hstep
          have hcpu := cpuStep_cases hstep
          have hcloser : toReady (s₁.cpu c).phase < n := by
            have hidle := hs.idle c
            rw [hphase, ← hn]
            generalize s.cpu c = l at hidle hready
            cases hidle <;> simp [toReady, CpuPhase.idleNext, cpuReady] at hready ⊢
          obtain ⟨as, t, hrun, hcready, hld, hothers⟩ := ih _ hcloser hs₁ rfl
          refine ⟨_, t, .cons hstep hrun, hcready, hld.trans (ld_cpuStep hcpu).1, ?_⟩
          intro d hd
          have hne : d ≠ c := by
            rintro rfl
            rw [hready] at hd
            cases hd
          have hsame := cpu_cpuStep_of_ne hcpu hne
          rw [hothers d (by rw [hsame]; exact hd), hsame]

/-- And so can all of them, one after another. -/
theorem Resting.drive_all (hs : Resting s) (cs : List (Fin cfg.numCpus)) :
    ∃ as t, Steps Step s as t ∧ (∀ c ∈ cs, cpuReady (t.cpu c) = true) ∧ t.ld = s.ld ∧
      ∀ d, cpuReady (s.cpu d) = true → t.cpu d = s.cpu d := by
  induction cs generalizing s with
  | nil => exact ⟨[], s, .nil s, by simp, rfl, fun _ _ => rfl⟩
  | cons c cs ih =>
      obtain ⟨as, t, hrun, hc, hld, hothers⟩ := hs.drive c
      obtain ⟨bs, u, hrun', hcs, hld', hothers'⟩ := ih (hs.steps hrun)
      refine ⟨as ++ bs, u, hrun.append hrun', ?_, hld'.trans hld, ?_⟩
      · intro d hd
        rcases List.mem_cons.mp hd with rfl | hmem
        · rw [hothers' d hc]
          exact hc
        · exact hcs d hmem
      · intro d hd
        rw [hothers' d (by rw [hothers d hd]; exact hd), hothers d hd]

/-- The timer comes to pass to the next slot, and a waiting CPU to the head of the loop. -/
theorem Resting.next_slot (hs : Resting s) (hphase : (s.cpu c).phase = .waiting) :
    ∃ as t, Steps Step s as t ∧ (t.cpu c).phase = .check := by
  obtain ⟨as, t, hrun, hall, hld, hothers⟩ := hs.drive_all (List.finRange cfg.numCpus)
  have ht := hs.steps hrun
  have hwait : (t.cpu c).phase = .waiting := by
    rw [hothers c (by simp [cpuReady, hphase]), hphase]
  -- the loader may still have to detach
  obtain ⟨bs, u, hrun', hcpu, hldu⟩ : ∃ bs u, Steps Step t bs u ∧ u.cpu = t.cpu ∧
      u.ld.phase = .detached := by
    rcases ht.finished with hfin | hfin
    · have hstep : Step t .loader { t with ld := { t.ld with phase := .detached } } := by
        show t.ldStep = _
        simp [ldStep, hfin]
      exact ⟨_, _, .cons hstep (.nil _), rfl, rfl⟩
    · exact ⟨[], t, .nil t, rfl, hfin⟩
  have htick : Step u .tick { u with
      time := u.time + 1
      cpu := fun c => releaseCpu (u.cpu c)
      ld := releaseLd u.ld } := by
    have hready : (∀ c, cpuReady (u.cpu c) = true) ∧ ldReady u.ld = true := by
      refine ⟨?_, by simp [ldReady, hldu]⟩
      intro d
      rw [hcpu]
      exact hall d (List.mem_finRange d)
    show u.tick = _
    simp only [tick, if_pos hready]
  refine ⟨_, _, (hrun.append hrun').snoc htick, ?_⟩
  simp [releaseCpu, hcpu, hwait]

/-- A CPU that comes to the head of the loop without a process goes round again. -/
theorem Resting.not_leavesNext (hs : Resting s) (hphase : (s.cpu c).phase = .check ∨
    (s.cpu c).phase = .slot ∨ (s.cpu c).phase = .waiting) : ¬ LeavesNext s c := by
  -- it is enough to find a run to the head of the loop
  have hround : ∀ as t, Steps Step s as t → (t.cpu c).phase = .check → ¬ LeavesNext s c := by
    intro as t hrun hcheck hleaves
    obtain ⟨t', hstep, hnext⟩ := (hs.steps hrun).enabled (c := c) (by simp [cpuReady, hcheck])
    exact hleaves.noSlot as t t' hrun hstep (by rw [hnext, hcheck]; rfl)
  have hwaiting : ∀ as t, Steps Step s as t → (t.cpu c).phase = .waiting → ¬ LeavesNext s c := by
    intro as t hrun hwait
    obtain ⟨bs, u, hrun', hcheck⟩ := (hs.steps hrun).next_slot hwait
    exact hround _ u (hrun.append hrun') hcheck
  rcases hphase with hcheck | hslot | hwait
  · exact hround [] s (.nil s) hcheck
  · obtain ⟨t, hstep, hnext⟩ := hs.enabled (c := c) (by simp [cpuReady, hslot])
    exact hwaiting _ t (.cons hstep (.nil t)) (by rw [hnext, hslot]; rfl)
  · exact hwaiting [] s (.nil s) hwait

/-- **Which CPUs leave.** In any reachable state in which the work is over, a CPU that has not
stopped leaves in its next iteration exactly if it stands at the `get_proc` that follows a finished or
returned process, or at the exit test behind it. -/
theorem leaves_iff {as : List (Act cfg)} (hrun : Steps Step (init cfg) as s) (hover : WorkOver s)
    (hleft : ¬ (s.cpu c).Left) :
    LeavesNext s c ↔ (s.cpu c).phase = .getNext ∨ (s.cpu c).phase = .recheck := by
  have hs := hover.resting hrun
  refine ⟨?_, hs.leavesNext⟩
  intro hleaves
  have hidle := hs.idle c
  have hgo := hs.not_leavesNext (c := c)
  generalize s.cpu c = l at hidle hleft hgo ⊢
  cases hidle with
  | getNext => exact .inl rfl
  | recheck => exact .inr rfl
  | check => exact absurd hleaves (hgo (.inl rfl))
  | slot => exact absurd hleaves (hgo (.inr (.inl rfl)))
  | waiting => exact absurd hleaves (hgo (.inr (.inr rfl)))
  | stopped => exact absurd (.inl rfl) hleft
  | detached => exact absurd (.inr rfl) hleft

/-- Two CPUs and one process: CPU 1 finds nothing, CPU 0 runs the process and frees it in the next
slot, when the loader has ended. -/
def oneOfTwoIdle : List (Act oneProcess) :=
  [.cpu 1, .cpu 1, .loader, .loader, .loader, .loader, .cpu 0, .cpu 0, .cpu 0, .cpu 0, .cpu 0, .tick,
    .loader, .cpu 0]

theorem oneOfTwoIdle_reaches :
    ∃ s, Steps Step (init oneProcess) oneOfTwoIdle s ∧ WorkOver s ∧ (s.cpu 0).phase = .getNext ∧
      (s.cpu 1).phase = .check := by
  have hcheck : (Steps.exec (fun s a => Os.step s a) (init oneProcess) oneOfTwoIdle).any (fun s =>
      decide (s.done = true ∧ (∀ l, s.sched.waiting l = []) ∧ (∀ c, (s.cpu c).held = none) ∧
        (s.cpu 0).phase = .getNext ∧ (s.cpu 1).phase = .check)) = true := by
    decide +kernel
  obtain ⟨s, hs, hfacts⟩ := (Option.any_eq_true _ _).mp hcheck
  obtain ⟨hdone, hempty, hheld, hphase⟩ := of_decide_eq_true hfacts
  exact ⟨s, Steps.of_exec hs, ⟨hdone, hempty, hheld⟩, hphase⟩

/-- There, CPU 0 leaves. -/
theorem leaves_iff_one_of_two :
    ∃ s, Steps Step (init oneProcess) oneOfTwoIdle s ∧ WorkOver s ∧ ¬ (s.cpu 0).Left ∧
      LeavesNext s 0 := by
  obtain ⟨s, hrun, hover, hzero, -⟩ := oneOfTwoIdle_reaches
  have hleft : ¬ (s.cpu 0).Left := by simp [Cpu.Left, hzero]
  exact ⟨s, hrun, hover, hleft, (leaves_iff hrun hover hleft).mpr (.inl hzero)⟩

/-- And CPU 1 goes round. -/
theorem idle_cpu_goes_round :
    ∃ s, Steps Step (init oneProcess) oneOfTwoIdle s ∧ WorkOver s ∧ ¬ (s.cpu 1).Left ∧
      ¬ LeavesNext s 1 := by
  obtain ⟨s, hrun, hover, -, hone⟩ := oneOfTwoIdle_reaches
  exact ⟨s, hrun, hover, by simp [Cpu.Left, hone],
    (hover.resting hrun).not_leavesNext (.inl hone)⟩

end Os

end Ossim
