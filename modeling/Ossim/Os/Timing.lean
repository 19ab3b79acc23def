import Ossim.Os.Completion

/-!
# When a process is loaded, and how soon it can finish

The loader adds the processes one by one, in the order of the configuration file and at most one in a
slot. So the start times fix the slot of each of them, `loadTime`, whatever the CPUs do
(`load_schedule`): a process that has to start at once waits for the ones before it in the file.

From then on its code takes one slot for each instruction at least, on any number of CPUs
(`not_before`): a CPU is in `run` once in a slot, and a process goes from one CPU to another only in the
slot after. Nor does a CPU free it in the slot in which it was run (`NotFreedIn`).
-/

namespace Ossim

/-- The slot in which `ld_routine` adds a process. -/
def Config.loadTime (cfg : Config) : Nat → Nat
  | 0 => cfg.startTime 0
  | p + 1 => max (cfg.startTime (p + 1)) (cfg.loadTime p + 1)

namespace Os

variable {cfg : Config} {s s' : Os cfg} {c : Fin cfg.numCpus}

theorem startTime_le_loadTime (cfg : Config) (p : Nat) : cfg.startTime p ≤ cfg.loadTime p := by
  cases p with
  | zero => exact Nat.le_refl _
  | succ p => exact Nat.le_max_left _ _

theorem loadTime_lt_succ (cfg : Config) (p : Nat) : cfg.loadTime p < cfg.loadTime (p + 1) :=
  Nat.lt_of_lt_of_le (Nat.lt_succ_self _) (Nat.le_max_right _ _)

/-! ## The loader -/

/-- Only the timer changes the time. -/
theorem time_cpuStep (h : CpuStep s c s') : s'.time = s.time := by
  cases h with
  | putMlq hphase hproc henq =>
      obtain ⟨sched, -, rfl⟩ := enqueueLevel_cases henq
      rfl
  | idleGet | nextGet | finish | expire | resume | putReady | exit | skip | dispatch | runNothing
  | fetch | exec | slot | detach => rfl

theorem time_ldStep (h : LdStep s s') : s'.time = s.time := by
  cases h with
  | addMlq hphase henq =>
      obtain ⟨sched, -, rfl⟩ := enqueueLevel_cases henq
      rfl
  | early | start | setDone | addRunning | slot | detach => rfl

/-- Where the loader is in its schedule. -/
structure OnSchedule (s : Os cfg) : Prop where
  /-- At the head of the loop it has nothing to catch up with. -/
  head : s.ld.phase = .head ∨ s.ld.phase = .addRunning ∨ s.ld.phase = .addMlq →
    (∀ p < s.ld.i, cfg.loadTime p < s.time) ∧ s.time ≤ cfg.loadTime s.ld.i
  /-- In `add_proc` it is in the slot of the process. -/
  adding : s.ld.phase = .addRunning ∨ s.ld.phase = .addMlq → s.time = cfg.loadTime s.ld.i
  /-- Until the end of the slot the next process has time. -/
  slot : s.ld.phase = .slot ∨ s.ld.phase = .waiting →
    (∀ p < s.ld.i, cfg.loadTime p ≤ s.time) ∧ s.time < cfg.loadTime s.ld.i
  finished : s.ld.phase = .finished ∨ s.ld.phase = .detached →
    (∀ p < s.ld.i, cfg.loadTime p ≤ s.time) ∧ cfg.numProcesses ≤ s.ld.i

theorem onSchedule_init (cfg : Config) : OnSchedule (init cfg) where
  head _ := ⟨fun p hp => absurd hp (Nat.not_lt_zero p), Nat.zero_le _⟩
  adding h := by simp [init] at h
  slot h := by simp [init] at h
  finished h := by simp [init] at h

theorem OnSchedule.ldStep (hs : OnSchedule s) (h : LdStep s s') : OnSchedule s' := by
  cases h with
  | early hphase hi htime =>
      obtain ⟨hpast, -⟩ := hs.head (.inl hphase)
      refine ⟨by simp, by simp, fun _ => ⟨fun p hp => (hpast p hp).le, ?_⟩, by simp⟩
      exact Nat.lt_of_lt_of_le htime (startTime_le_loadTime cfg _)
  | start hphase hi htime =>
      obtain ⟨hpast, hle⟩ := hs.head (.inl hphase)
      refine ⟨fun _ => ⟨hpast, hle⟩, fun _ => Nat.le_antisymm hle ?_, by simp, by simp⟩
      -- the process before it was added in an earlier slot
      show cfg.loadTime s.ld.i ≤ s.time
      cases hidx : s.ld.i with
      | zero =>
          rw [hidx] at htime
          exact htime
      | succ p =>
          rw [hidx] at htime hpast
          exact Nat.max_le.mpr ⟨htime, hpast p (Nat.lt_succ_self p)⟩
  | setDone hphase hi =>
      obtain ⟨hpast, -⟩ := hs.head (.inl hphase)
      exact ⟨by simp, by simp, by simp, fun _ => ⟨fun p hp => (hpast p hp).le, hi⟩⟩
  | addRunning hphase =>
      exact ⟨fun _ => hs.head (.inr (.inl hphase)), fun _ => hs.adding (.inl hphase), by simp, by simp⟩
  | addMlq hphase henq =>
      obtain ⟨sched, -, rfl⟩ := enqueueLevel_cases henq
      obtain ⟨hpast, -⟩ := hs.head (.inr (.inr hphase))
      have htime := hs.adding (.inr hphase)
      refine ⟨by simp, by simp, fun _ => ⟨fun p hp => ?_, ?_⟩, by simp⟩
      · rcases Nat.lt_succ_iff_lt_or_eq.mp hp with hlt | rfl
        · exact (hpast p hlt).le
        · exact htime.ge
      · show s.time < cfg.loadTime (s.ld.i + 1)
        rw [htime]
        exact loadTime_lt_succ cfg s.ld.i
  | slot hphase => exact ⟨by simp, by simp, fun _ => hs.slot (.inl hphase), by simp⟩
  | detach hphase => exact ⟨by simp, by simp, by simp, fun _ => hs.finished (.inl hphase)⟩

theorem OnSchedule.tick (hs : OnSchedule s) (h : s.tick = some s') : OnSchedule s' := by
  obtain ⟨-, hready, rfl⟩ := tick_cases h
  have hphase : s.ld.phase = .waiting ∨ s.ld.phase = .detached := by simpa [ldReady] using hready
  rcases hphase with hwait | hend
  · obtain ⟨hpast, hnext⟩ := hs.slot (.inr hwait)
    have hrelease : releaseLd s.ld = ⟨.head, s.ld.i⟩ := by simp [releaseLd, hwait]
    simp only [hrelease]
    exact ⟨fun _ => ⟨fun p hp => Nat.lt_succ_of_le (hpast p hp), hnext⟩, by simp, by simp, by simp⟩
  · obtain ⟨hpast, hall⟩ := hs.finished (.inr hend)
    have hrelease : releaseLd s.ld = s.ld := by simp [releaseLd, hend]
    simp only [hrelease]
    exact ⟨by simp [hend], by simp [hend], by simp [hend],
      fun _ => ⟨fun p hp => (hpast p hp).trans (Nat.le_succ _), hall⟩⟩

theorem OnSchedule.cpuStep (hs : OnSchedule s) (h : CpuStep s c s') : OnSchedule s' := by
  obtain ⟨hld, -⟩ := ld_cpuStep h
  have htime := time_cpuStep h
  refine ⟨?_, ?_, ?_, ?_⟩
  · rw [hld, htime]
    exact hs.head
  · rw [hld, htime]
    exact hs.adding
  · rw [hld, htime]
    exact hs.slot
  · rw [hld, htime]
    exact hs.finished

theorem OnSchedule.step {a : Act cfg} (hs : OnSchedule s) (h : Step s a s') : OnSchedule s' := by
  rcases step_cases h with ⟨c, -, hc⟩ | ⟨-, hl⟩ | ⟨-, ht⟩ | ⟨-, hk⟩
  · exact hs.cpuStep hc
  · exact hs.ldStep hl
  · exact hs.tick ht
  · cases hk with
    | ready => exact ⟨hs.head, hs.adding, hs.slot, hs.finished⟩
    | running => exact ⟨hs.head, hs.adding, hs.slot, hs.finished⟩

theorem onSchedule_of_steps {as : List (Act cfg)} (hrun : Steps Step (init cfg) as s) : OnSchedule s :=
  hrun.state_invariant (onSchedule_init cfg) fun _ _ _ hs h => hs.step h

theorem loadTime_mono (cfg : Config) {p q : Nat} (h : p ≤ q) : cfg.loadTime p ≤ cfg.loadTime q := by
  induction h with
  | refl => exact Nat.le_refl _
  | step _ ih => exact Nat.le_trans ih (loadTime_lt_succ cfg _).le

/-- At any time the loader has added the processes whose slots are over, and none whose slot is to come. -/
theorem OnSchedule.now (hs : OnSchedule s) :
    (∀ r < s.ld.i, cfg.loadTime r ≤ s.time) ∧
      (s.ld.i < cfg.numProcesses → s.time ≤ cfg.loadTime s.ld.i) := by
  have hhead : s.ld.phase = .head ∨ s.ld.phase = .addRunning ∨ s.ld.phase = .addMlq →
      (∀ r < s.ld.i, cfg.loadTime r ≤ s.time) ∧
        (s.ld.i < cfg.numProcesses → s.time ≤ cfg.loadTime s.ld.i) := fun h =>
    ⟨fun r hr => ((hs.head h).1 r hr).le, fun _ => (hs.head h).2⟩
  have hslot : s.ld.phase = .slot ∨ s.ld.phase = .waiting →
      (∀ r < s.ld.i, cfg.loadTime r ≤ s.time) ∧
        (s.ld.i < cfg.numProcesses → s.time ≤ cfg.loadTime s.ld.i) := fun h =>
    ⟨(hs.slot h).1, fun _ => (hs.slot h).2.le⟩
  have hend : s.ld.phase = .finished ∨ s.ld.phase = .detached →
      (∀ r < s.ld.i, cfg.loadTime r ≤ s.time) ∧
        (s.ld.i < cfg.numProcesses → s.time ≤ cfg.loadTime s.ld.i) := fun h =>
    ⟨(hs.finished h).1, fun hi => absurd (hs.finished h).2 (Nat.not_le.mpr hi)⟩
  cases hphase : s.ld.phase with
  | head => exact hhead (.inl hphase)
  | addRunning => exact hhead (.inr (.inl hphase))
  | addMlq => exact hhead (.inr (.inr hphase))
  | slot => exact hslot (.inl hphase)
  | waiting => exact hslot (.inr hphase)
  | finished => exact hend (.inl hphase)
  | detached => exact hend (.inr hphase)

/-- **The start times fix the slot in which each process is loaded.** In every run, whatever the CPUs and
`killall` do: before the slot `loadTime p` process `p` has not been added, and after it it has. -/
theorem load_schedule {as : List (Act cfg)} (hrun : Steps Step (init cfg) as s) {p : Nat}
    (hp : p < cfg.numProcesses) :
    (p < s.ld.i → cfg.loadTime p ≤ s.time) ∧ (cfg.loadTime p < s.time → p < s.ld.i) := by
  obtain ⟨hpast, hnext⟩ := (onSchedule_of_steps hrun).now
  refine ⟨hpast p, fun hlate => ?_⟩
  by_contra hge
  have hle := hnext (Nat.lt_of_le_of_lt (Nat.not_lt.mp hge) hp)
  have := loadTime_mono cfg (Nat.not_lt.mp hge)
  omega

/-- The first process in the file starts later than the second one. -/
abbrev lateFirst : Config where
  timeSlot := 1
  numCpus := 1
  numProcesses := 2
  startTime := fun p => 1 - p
  prio := fun _ => 70
  code := fun _ => [⟨.calc, 0, 0, 0, 0⟩]

/-- The second process is added in slot 2. -/
theorem load_schedule_late_first :
    ∃ s, Steps Step (init lateFirst) [.loader, .loader, .cpu 0, .cpu 0, .tick, .loader, .loader, .loader,
        .loader, .cpu 0, .cpu 0, .cpu 0, .cpu 0, .cpu 0, .tick, .loader, .loader, .loader] s ∧
      s.time = 2 ∧ s.ld.i = 2 ∧ (1 < s.ld.i → 2 ≤ s.time) ∧ (2 < s.time → 1 < s.ld.i) := by
  have hcheck : (Steps.exec (fun s a => Os.step s a) (init lateFirst) [.loader, .loader, .cpu 0, .cpu 0,
      .tick, .loader, .loader, .loader, .loader, .cpu 0, .cpu 0, .cpu 0, .cpu 0, .cpu 0, .tick, .loader,
      .loader, .loader]).any (fun s => decide (s.time = 2 ∧ s.ld.i = 2)) = true := by
    decide +kernel
  obtain ⟨s, hs, hfacts⟩ := (Option.any_eq_true _ _).mp hcheck
  obtain ⟨htime, hi⟩ := of_decide_eq_true hfacts
  exact ⟨s, Steps.of_exec hs, htime, hi, load_schedule (Steps.of_exec hs) (p := 1) (by decide)⟩

/-! ## The CPUs -/

/-- In this slot a CPU has run the process. -/
def Ran (s : Os cfg) (p : Nat) : Prop :=
  ∃ c, (s.cpu c).held = some p ∧ ((s.cpu c).phase = .slot ∨ (s.cpu c).phase = .waiting)

/-- How far a process can be at this time. -/
structure Paced (s : Os cfg) : Prop where
  owned : Owned s
  onSchedule : OnSchedule s
  fresh : ∀ p, s.ld.i ≤ p → s.pc p = 0
  pace : ∀ p < s.ld.i, cfg.loadTime p + s.pc p ≤ s.time ∨
    s.Ran p ∧ cfg.loadTime p + s.pc p ≤ s.time + 1
  /-- At the head of the loop a CPU has its process from an earlier slot. -/
  earlier : ∀ c p, (s.cpu c).held = some p → (s.cpu c).phase = .check → cfg.loadTime p < s.time
  freed : ∀ p, s.freed p = true → cfg.loadTime p + max 1 (cfg.code p).length ≤ s.time

theorem paced_init (cfg : Config) : Paced (init cfg) where
  owned := owned_init cfg
  onSchedule := onSchedule_init cfg
  fresh _ _ := rfl
  pace p hp := absurd hp (Nat.not_lt_zero p)
  earlier c p h := by simp [init, Cpu.held] at h
  freed p h := by simp [init] at h

/-- A CPU that has run a process does not come back to it in the slot. -/
theorem Ran.cpuStep {p : Nat} (hran : s.Ran p) (h : CpuStep s c s') : s'.Ran p := by
  obtain ⟨d, hheld, hphase⟩ := hran
  rcases eq_or_ne d c with rfl | hne
  · cases h with
    | slot hslot =>
        refine ⟨d, ?_, .inr (by simp)⟩
        simpa [Cpu.held, hslot] using hheld
    | idleGet h | nextGet h | finish h | expire h | resume h | putReady h | putMlq h | exit h | skip h
    | dispatch h | runNothing h | fetch h | exec h | detach h => simp [h] at hphase
  · exact ⟨d, by rw [cpu_cpuStep_of_ne h hne]; exact hheld, by rw [cpu_cpuStep_of_ne h hne]; exact hphase⟩

/-- A process that a CPU is about to run or to free has not been run in this slot. -/
theorem not_ran {p : Nat} (hs : Owned s) (hheld : (s.cpu c).held = some p)
    (hphase : ¬ ((s.cpu c).phase = .slot ∨ (s.cpu c).phase = .waiting)) : ¬ s.Ran p := by
  rintro ⟨d, hd, hran⟩
  rcases eq_or_ne c d with rfl | hne
  · exact hphase hran
  · have htwo := two_le_heldBy hne hheld hd
    have hone := hs.one p
    unfold places at hone
    omega

/-- What a CPU frees it has from an earlier slot, at the end of its code. -/
theorem finish_cpuStep (h : CpuStep s c s') {p : Nat} (hfreed : s'.freed p = true) :
    s.freed p = true ∨ ((s.cpu c).phase = .check ∧ (s.cpu c).held = some p ∧
      s.pc p = (cfg.code p).length) := by
  cases h with
  | @finish r hphase hproc hpc =>
      rcases eq_or_ne p r with rfl | hne
      · exact .inr ⟨hphase, by simp [Cpu.held, hphase, hproc], hpc⟩
      · exact .inl (by simpa [Function.update_of_ne hne] using hfreed)
  | putMlq hphase hproc henq =>
      obtain ⟨sched, -, rfl⟩ := enqueueLevel_cases henq
      exact .inl hfreed
  | idleGet | nextGet | expire | resume | putReady | exit | skip | dispatch | runNothing | fetch
  | exec | slot | detach => exact .inl hfreed

/-- No action of a CPU brings it to the head of the loop. -/
theorem not_check_cpuStep (h : CpuStep s c s') : (s'.cpu c).phase ≠ .check := by
  cases h with
  | @idleGet g hphase hproc hget => cases hg : g.proc <;> simp
  | nextGet | finish | expire | resume | putReady | putMlq | exit | skip | dispatch | runNothing | fetch
  | exec | slot | detach => simp

/-- After an instruction the CPU still holds the process. -/
theorem held_exec_cpuStep (h : CpuStep s c s') {ins : Inst} (hphase : (s.cpu c).phase = .exec ins) :
    (s'.cpu c).held = (s.cpu c).held := by
  cases h with
  | exec hexec hproc => simp [Cpu.held, hexec]
  | idleGet h | nextGet h | finish h | expire h | resume h | putReady h | putMlq h | exit h | skip h
  | dispatch h | runNothing h | fetch h | slot h | detach h => simp [h] at hphase

theorem Paced.cpuStep (hs : Paced s) (h : CpuStep s c s') : Paced s' := by
  obtain ⟨hld, -⟩ := ld_cpuStep h
  have htime := time_cpuStep h
  have hran : ∀ p, s.Ran p → s'.Ran p := fun p hp => hp.cpuStep h
  have hearlier : ∀ d p, (s'.cpu d).held = some p → (s'.cpu d).phase = .check →
      cfg.loadTime p < s.time := fun d p hheld hphase => by
    have hne : d ≠ c := by
      rintro rfl
      exact not_check_cpuStep h hphase
    rw [cpu_cpuStep_of_ne h hne] at hheld hphase
    exact hs.earlier d p hheld hphase
  have hfreed : ∀ p, s'.freed p = true → cfg.loadTime p + max 1 (cfg.code p).length ≤ s.time :=
      fun p hp => by
    rcases finish_cpuStep h hp with hold | ⟨hphase, hheld, hpc⟩
    · exact hs.freed p hold
    · have hload := hs.earlier c p hheld hphase
      rcases hs.pace p (lt_index_of_held hs.owned hheld) with hpace | ⟨hp', -⟩
      · rw [hpc] at hpace
        omega
      · exact absurd hp' (not_ran hs.owned hheld (by simp [hphase]))
  rcases history_cpuStep h with ⟨hpc, -⟩ | ⟨p, ins, hphase, hproc, hpc, -, hslot, -⟩
  · -- nothing was executed
    refine ⟨hs.owned.cpuStep h, hs.onSchedule.cpuStep h, ?_, ?_, ?_, ?_⟩
    · rw [hld, hpc]
      exact hs.fresh
    · rw [hld, hpc, htime]
      exact fun r hr => (hs.pace r hr).imp_right (And.imp_left (hran r))
    · rw [htime]
      exact hearlier
    · rw [htime]
      exact hfreed
  · -- an instruction of `p`, the first one in this slot
    have hheld := held_of_exec hphase hproc
    have hadded := lt_index_of_held hs.owned hheld
    refine ⟨hs.owned.cpuStep h, hs.onSchedule.cpuStep h, fun r hr => ?_, fun r hr => ?_, ?_, ?_⟩
    · rw [hld] at hr
      rw [hpc, Function.update_of_ne (by omega)]
      exact hs.fresh r hr
    · rw [hld] at hr
      rw [htime, hpc]
      rcases eq_or_ne r p with rfl | hne
      · right
        refine ⟨⟨c, ?_, .inl hslot⟩, ?_⟩
        · rw [held_exec_cpuStep h hphase]
          exact hheld
        · rw [Function.update_self]
          rcases hs.pace r hr with hpace | ⟨hp', -⟩
          · omega
          · exact absurd hp' (not_ran hs.owned hheld (by simp [hphase]))
      · rw [Function.update_of_ne hne]
        exact (hs.pace r hr).imp_right (And.imp_left (hran r))
    · rw [htime]
      exact hearlier
    · rw [htime]
      exact hfreed

theorem Paced.ldStep (hs : Paced s) (howned : Owned s') (h : LdStep s s') : Paced s' := by
  have hsched := hs.onSchedule.ldStep h
  cases h with
  | addMlq hphase henq =>
      have htime := hs.onSchedule.adding (.inr hphase)
      have hfresh := hs.fresh s.ld.i (Nat.le_refl _)
      obtain ⟨sched, -, rfl⟩ := enqueueLevel_cases henq
      refine ⟨howned, hsched, fun p hp => ?_, fun p hp => ?_, hs.earlier, hs.freed⟩
      · exact hs.fresh p (Nat.le_of_succ_le hp)
      · rcases Nat.lt_succ_iff_lt_or_eq.mp hp with hlt | rfl
        · exact hs.pace p hlt
        · left
          show cfg.loadTime s.ld.i + s.pc s.ld.i ≤ s.time
          omega
  | early | start | addRunning | setDone | slot | detach =>
      exact ⟨howned, hsched, hs.fresh, hs.pace, hs.earlier, hs.freed⟩

theorem Paced.tick (hs : Paced s) (h : s.tick = some s') : Paced s' := by
  have howned := hs.owned.tick h
  have hsched := hs.onSchedule.tick h
  obtain ⟨hready, -, rfl⟩ := tick_cases h
  refine ⟨howned, hsched, ?_, fun p hp => .inl ?_, fun c p hheld _ => ?_, fun p hp => ?_⟩
  · simpa using hs.fresh
  · show cfg.loadTime p + s.pc p ≤ s.time + 1
    rcases hs.pace p (by simpa using hp) with hpace | ⟨-, hpace⟩
    · omega
    · exact hpace
  · show cfg.loadTime p < s.time + 1
    rw [held_releaseCpu] at hheld
    exact Nat.lt_succ_of_le (hs.onSchedule.now.1 p (lt_index_of_held hs.owned hheld))
  · exact (hs.freed p hp).trans (Nat.le_succ _)

theorem Paced.step {a : Act cfg} (hs : Paced s) (h : Step s a s') : Paced s' := by
  have howned := hs.owned.step h
  rcases step_cases h with ⟨c, -, hc⟩ | ⟨-, hl⟩ | ⟨-, ht⟩ | ⟨-, hk⟩
  · exact hs.cpuStep hc
  · exact hs.ldStep howned hl
  · exact hs.tick ht
  · have hsched := hs.onSchedule.step h
    cases hk with
    | ready => exact ⟨howned, hsched, hs.fresh, hs.pace, hs.earlier, hs.freed⟩
    | running => exact ⟨howned, hsched, hs.fresh, hs.pace, hs.earlier, hs.freed⟩

theorem paced_of_steps {as : List (Act cfg)} (hrun : Steps Step (init cfg) as s) : Paced s :=
  hrun.state_invariant (paced_init cfg) fun _ _ _ hs h => hs.step h

/-! ## The slot of the last instruction -/

/-- In slot `k` an instruction of the process is executed, somewhere in the run. -/
def ExecutedIn (as : List (Act cfg)) (s : Os cfg) (p k : Nat) : Prop :=
  ∃ bs a cs t u, as = bs ++ a :: cs ∧ Steps Step (init cfg) bs t ∧ Step t a u ∧ Steps Step u cs s ∧
    u.executed p ≠ t.executed p ∧ t.time = k

/-- Slot `k`, in which the process was run, is over, or it has not been freed in it. -/
def NotFreedIn (p k : Nat) (s : Os cfg) : Prop :=
  k < s.time ∨ s.time = k ∧ s.Ran p ∧ s.freed p = false

/-- Only a CPU executes an instruction: of the process that it holds, which has not been freed. -/
theorem notFreedIn_of_executed {a : Act cfg} {p : Nat} (hs : Owned s) (h : Step s a s')
    (hne : s'.executed p ≠ s.executed p) : NotFreedIn p s.time s' := by
  rcases step_cases h with ⟨c, -, hc⟩ | ⟨-, hl⟩ | ⟨-, ht⟩ | ⟨-, hk⟩
  · rcases history_cpuStep hc with ⟨-, hsame⟩ | ⟨r, ins, hphase, hproc, -, hexecuted, hslot, hfreed⟩
    · exact absurd (congrFun hsame p) hne
    · obtain rfl : p = r := by
        by_contra hother
        exact hne (by rw [hexecuted, Function.update_of_ne hother])
      have hheld := held_of_exec hphase hproc
      refine .inr ⟨time_cpuStep hc, ⟨c, ?_, .inl hslot⟩, ?_⟩
      · rw [held_exec_cpuStep hc hphase]
        exact hheld
      · -- `pc` is at the instruction, and of a freed process it is at the end
        obtain ⟨q, hq, hins⟩ := hs.fetched c ins hphase
        cases hproc.symm.trans hq
        rw [hfreed, Bool.eq_false_iff]
        intro hend
        rw [hs.freed_pc p hend, List.getElem?_eq_none (Nat.le_refl _)] at hins
        cases hins
  · exact absurd (congrFun (frame_ldStep hl).2.2.1 p) hne
  · obtain ⟨-, -, rfl⟩ := tick_cases ht
    exact absurd rfl hne
  · exact absurd (congrFun (frame_killStep hk).2.2.1 p) hne

theorem NotFreedIn.step {a : Act cfg} {p k : Nat} (hs : Owned s) (hran : NotFreedIn p k s)
    (h : Step s a s') : NotFreedIn p k s' := by
  unfold NotFreedIn at hran ⊢
  rcases step_cases h with ⟨c, -, hc⟩ | ⟨-, hl⟩ | ⟨-, ht⟩ | ⟨-, hk⟩
  · rw [time_cpuStep hc]
    refine hran.imp_right fun ⟨htime, hp, hlive⟩ => ⟨htime, hp.cpuStep hc, ?_⟩
    -- a CPU frees what it has from an earlier slot
    rw [Bool.eq_false_iff]
    intro hfreed
    rcases finish_cpuStep hc hfreed with hold | ⟨hphase, hheld, -⟩
    · rw [hlive] at hold
      cases hold
    · exact not_ran hs hheld (by simp [hphase]) hp
  · obtain ⟨hcpu, -, -, hfreed⟩ := frame_ldStep hl
    rw [time_ldStep hl, hfreed]
    refine hran.imp_right fun ⟨htime, ⟨c, hheld, hphase⟩, hlive⟩ => ⟨htime, ⟨c, ?_, ?_⟩, hlive⟩
    · rw [hcpu]
      exact hheld
    · rw [hcpu]
      exact hphase
  · obtain ⟨-, -, rfl⟩ := tick_cases ht
    left
    show k < s.time + 1
    rcases hran with hlt | ⟨htime, -⟩
    · omega
    · omega
  · cases hk with
    | ready => exact hran
    | running => exact hran

/-- **A process takes a slot for each of its instructions, on however many CPUs.** In every run, with
`killall` or without, the instructions executed for a loaded process are at most as many as the slots from
`loadTime` up to this one; a process that has finished, be its code empty, has done so one slot later at
the earliest, and in a later slot than the one of its last instruction. -/
theorem not_before {as : List (Act cfg)} (hrun : Steps Step (init cfg) as s) {p : Nat} :
    (p < s.ld.i → cfg.loadTime p + (s.executed p).length ≤ s.time + 1) ∧
      (s.freed p = true → cfg.loadTime p + max 1 (cfg.code p).length ≤ s.time) ∧
      (s.freed p = true → ∀ k, ExecutedIn as s p k → k < s.time) := by
  have hs := paced_of_steps hrun
  refine ⟨fun hp => ?_, hs.freed p, ?_⟩
  · rw [hs.owned.executed_eq, List.length_take_of_le (hs.owned.pc_le p)]
    rcases hs.pace p hp with hpace | ⟨-, hpace⟩
    · omega
    · exact hpace
  · rintro hfreed k ⟨bs, a, cs, t, u, -, hbs, hstep, hcs, hne, rfl⟩
    have ht := owned_of_steps hbs
    obtain ⟨-, hend⟩ := hcs.state_invariant (motive := fun v => Owned v ∧ NotFreedIn p t.time v)
      ⟨ht.step hstep, notFreedIn_of_executed ht hstep hne⟩ fun v b w hv h =>
        ⟨hv.1.step h, hv.2.step hv.1 h⟩
    rcases hend with hlt | ⟨-, -, hlive⟩
    · exact hlt
    · rw [hfreed] at hlive
      cases hlive

/-- A process of one instruction has finished in the second slot, and not in the first one, in which the
instruction is executed. -/
theorem not_before_lone_instruction :
    ∃ s, Steps Step (init loneInstruction) (loadSlot loneInstruction 0 ++ endSlot loneInstruction 0 1) s ∧
      s.freed 0 = true ∧ loneInstruction.loadTime 0 + 1 ≤ s.time ∧
      ExecutedIn (loadSlot loneInstruction 0 ++ endSlot loneInstruction 0 1) s 0 0 ∧ 0 < s.time := by
  have hcheck : (Steps.exec (fun s a => Os.step s a) (init loneInstruction)
      [.loader, .loader, .loader, .cpu 0, .cpu 0, .cpu 0]).any (fun t =>
        decide (t.time = 0) && (t.step (.cpu 0)).any fun u =>
          decide (u.executed 0 ≠ t.executed 0) && (Steps.exec (fun s a => Os.step s a) u
            ([.cpu 0, .loader, .tick] ++ endSlot loneInstruction 0 1)).any fun s =>
              decide (s.freed 0 = true)) = true := by
    decide +kernel
  obtain ⟨t, ht, hrest⟩ := (Option.any_eq_true _ _).mp hcheck
  obtain ⟨htime, hrest⟩ := Bool.and_eq_true_iff.mp hrest
  obtain ⟨u, hu, hrest⟩ := (Option.any_eq_true _ _).mp hrest
  obtain ⟨hne, hrest⟩ := Bool.and_eq_true_iff.mp hrest
  obtain ⟨s, hs, hfreed⟩ := (Option.any_eq_true _ _).mp hrest
  have hrun : Steps Step (init loneInstruction)
      (loadSlot loneInstruction 0 ++ endSlot loneInstruction 0 1) s :=
    (Steps.of_exec ht).append (.cons hu (Steps.of_exec hs))
  have hexecuted : ExecutedIn (loadSlot loneInstruction 0 ++ endSlot loneInstruction 0 1) s 0 0 :=
    ⟨[.loader, .loader, .loader, .cpu 0, .cpu 0, .cpu 0], .cpu 0,
      [.cpu 0, .loader, .tick] ++ endSlot loneInstruction 0 1, t, u, rfl, Steps.of_exec ht, hu,
      Steps.of_exec hs, of_decide_eq_true hne, of_decide_eq_true htime⟩
  obtain ⟨-, hlate, hlater⟩ := not_before hrun (p := 0)
  have hend := of_decide_eq_true hfreed
  exact ⟨s, hrun, hend, hlate hend, hexecuted, hlater hend 0 hexecuted⟩

end Os

end Ossim
