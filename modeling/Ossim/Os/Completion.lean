import Ossim.Os.Conservation

/-!
# No unfinished process is abandoned

A CPU leaves `cpu_routine` when the `get_proc` that follows a finished or a returned process gives
`NULL` and `done` is set. `NULL` should mean that nobody waits; but `get_mlq_proc` also returns
`NULL` in the call that refills the slots, when every level with a process is out of them. If that
happens to the last CPU after the loader's last `next_slot`, the waiting processes are never run
(`process_abandoned`).

Outside of these calls, `MissesWaiting`, nobody is abandoned. The invariant `Attended` says why: as
long as somebody waits, either some CPU is neither out of the loop nor about to leave it, or the
loader still has a time slot to wait for before it sets `done`.
-/

namespace Ossim

/-- The CPU has left the loop of `cpu_routine`. -/
def Cpu.Left (l : Cpu) : Prop := l.phase = .stopped ∨ l.phase = .detached

/-- The CPU is in the loop, and not at the exit test without a process. -/
def Cpu.Alive (l : Cpu) : Prop := ¬ l.Left ∧ ¬ (l.phase = .recheck ∧ l.proc = none)

instance (l : Cpu) : Decidable l.Alive :=
  inferInstanceAs (Decidable (¬ (l.phase = .stopped ∨ l.phase = .detached) ∧
    ¬ (l.phase = .recheck ∧ l.proc = none)))

namespace Os

variable {cfg : Config}

/-- The loader has left `ld_routine`'s loop and set `done`. -/
def LdFinished (s : Os cfg) : Prop := s.ld.phase = .finished ∨ s.ld.phase = .detached

/-- The loader has a `next_slot` before it when it comes to `done = 1`. -/
def LdPending (s : Os cfg) : Prop :=
  s.done = false ∧ ¬ (s.ld.phase = .head ∧ cfg.numProcesses ≤ s.ld.i)

instance (s : Os cfg) : Decidable s.LdPending :=
  inferInstanceAs (Decidable (s.done = false ∧ ¬ (s.ld.phase = .head ∧ cfg.numProcesses ≤ s.ld.i)))

/-- The action is a `get_proc`, after a finished or returned process, that finds somebody waiting
but every such level out of slots, when no other CPU is alive and the loader has no time slot to
wait for any more. -/
def MissesWaiting (s : Os cfg) (a : Act cfg) : Prop :=
  (∃ c, a = .cpu c ∧ (s.cpu c).phase = .getNext ∧ ∀ d, d ≠ c → ¬ (s.cpu d).Alive) ∧
    (∃ l, s.sched.waiting l ≠ []) ∧ (∀ l, s.sched.waiting l ≠ [] → s.sched.slot l ≤ 0) ∧
    ¬ s.LdPending

/-- The actions of the result below. -/
def NoMiss (s : Os cfg) (a : Act cfg) : Prop := a.isKill = false ∧ ¬ s.MissesWaiting a

instance (s : Os cfg) (a : Act cfg) : Decidable (NoMiss s a) :=
  inferInstanceAs (Decidable (a.isKill = false ∧
    ¬ ((∃ c, a = .cpu c ∧ (s.cpu c).phase = .getNext ∧ ∀ d, d ≠ c → ¬ (s.cpu d).Alive) ∧
      (∃ l, s.sched.waiting l ≠ []) ∧ (∀ l, s.sched.waiting l ≠ [] → s.sched.slot l ≤ 0) ∧
      ¬ s.LdPending)))

/-- Whoever waits is attended to. -/
structure Attended (s : Os cfg) : Prop where
  conserved : Conserved s
  /-- A CPU leaves only after `done` was set, and holds nobody. -/
  left : ∀ c, (s.cpu c).Left → s.done = true ∧ (s.cpu c).proc = none
  attended : (∃ l, s.sched.waiting l ≠ []) → (∃ c, (s.cpu c).Alive) ∨ s.LdPending

theorem attended_init (cfg : Config) : Attended (init cfg) where
  conserved := conserved_init cfg
  left c h := by simp [init, Cpu.Left] at h
  attended h := by
    obtain ⟨l, hl⟩ := h
    exact absurd rfl hl

/-- A CPU is alive after every action but three: leaving, detaching, and a `get_proc` without result
after a finished or returned process. -/
theorem alive_cpuStep {s s' : Os cfg} {c : Fin cfg.numCpus} (hs : s.sched.Sorted cfg.prio)
    (h : CpuStep s c s') :
    (s'.cpu c).Alive ∨ (¬ (s.cpu c).Alive ∧ s'.sched = s.sched) ∨
      ((s.cpu c).phase = .getNext ∧
        ∃ sched, s.sched.getMlqProc cfg.prio = .ok ⟨none, true, sched⟩) ∨
      ((s.cpu c).phase = .getNext ∧ s'.sched = s.sched ∧ ∀ l, s.sched.waiting l = []) := by
  cases h with
  | @nextGet g hphase hget =>
      cases Sched.getMlqProc_cases hs hget with
      | idle hnone => exact .inr (.inr (.inr ⟨hphase, rfl, hnone⟩))
      | replenish => exact .inr (.inr (.inl ⟨hphase, _, hget⟩))
      | dispatch => exact .inl (by simp [Cpu.Alive, Cpu.Left])
  | exit hphase hproc hdone =>
      exact .inr (.inl ⟨fun halive => halive.2 ⟨hphase, hproc⟩, rfl⟩)
  | detach hphase => exact .inr (.inl ⟨fun halive => halive.1 (.inl hphase), rfl⟩)
  | @idleGet g hphase hproc hget =>
      left
      cases hg : g.proc <;> simp [Cpu.Alive, Cpu.Left]
  | resume hphase hproc => exact .inl (by simp [Cpu.Alive, Cpu.Left, hproc])
  | finish | expire | putReady | putMlq | skip | dispatch | runNothing | fetch | exec | slot =>
      exact .inl (by simp [Cpu.Alive, Cpu.Left])

theorem left_cpuStep {s s' : Os cfg} {c : Fin cfg.numCpus} (h : CpuStep s c s')
    (hleft : (s'.cpu c).Left) :
    (s.cpu c).Left ∧ (s'.cpu c).proc = (s.cpu c).proc ∨
      (s.done = true ∧ (s'.cpu c).proc = none) := by
  cases h with
  | exit hphase hproc hdone => exact .inr ⟨hdone, by simpa using hproc⟩
  | detach hphase => exact .inl ⟨.inl hphase, by simp⟩
  | @idleGet g hphase hproc hget => cases hg : g.proc <;> simp [Cpu.Left, hg] at hleft
  | nextGet | finish | expire | resume | putReady | putMlq | skip | dispatch | runNothing | fetch
  | exec | slot => simp [Cpu.Left] at hleft

theorem Attended.cpuStep {s s' : Os cfg} {c : Fin cfg.numCpus} (hs : Attended s)
    (hmiss : ¬ s.MissesWaiting (.cpu c)) (h : CpuStep s c s') : Attended s' := by
  obtain ⟨hld, hdone⟩ := ld_cpuStep h
  refine ⟨hs.conserved.cpuStep h, fun d hd => ?_, fun hwait => ?_⟩
  · rw [hdone]
    rcases eq_or_ne d c with rfl | hne
    · rcases left_cpuStep h hd with ⟨hold, hproc⟩ | hnew
      · rw [hproc]
        exact hs.left d hold
      · exact hnew
    · rw [cpu_cpuStep_of_ne h hne] at hd ⊢
      exact hs.left d hd
  · have hpend : s'.LdPending ↔ s.LdPending := by simp only [LdPending, hld, hdone]
    have hsorted := hs.conserved.owned.sorted
    rw [hpend]
    rcases alive_cpuStep hsorted h with
      halive | ⟨hdead, hsched⟩ | ⟨hphase, sched, hget⟩ | ⟨hphase, hsched, hnone⟩
    · exact .inl ⟨c, halive⟩
    · -- the CPU was not the one that attends, so another one is
      rw [hsched] at hwait
      rcases hs.attended hwait with ⟨d, hd⟩ | hp
      · have hne : d ≠ c := by
          rintro rfl
          exact hdead hd
        exact .inl ⟨d, by rw [cpu_cpuStep_of_ne h hne]; exact hd⟩
      · exact .inr hp
    · -- the slots were refilled: without anybody else to attend, what the side condition excludes
      by_contra hnobody
      obtain ⟨hdead, hp⟩ := not_or.mp hnobody
      have hothers : ∀ d, d ≠ c → ¬ (s.cpu d).Alive := fun d hne hd =>
        hdead ⟨d, by rw [cpu_cpuStep_of_ne h hne]; exact hd⟩
      cases Sched.getMlqProc_cases hsorted hget with
      | replenish hsome hspent => exact hmiss ⟨⟨c, rfl, hphase, hothers⟩, hsome, hspent, hp⟩
    · -- nobody waits
      obtain ⟨l, hl⟩ := hwait
      rw [hsched] at hl
      exact absurd (hnone l) hl

theorem Attended.ldStep {s s' : Os cfg} (hs : Attended s) (hstep : Step s .loader s')
    (h : LdStep s s') : Attended s' := by
  have hcons := hs.conserved.ldStep hstep h
  have hdone := hs.conserved.done_iff
  cases h with
  | addMlq hphase henq =>
      have hfalse : s.done = false := by simpa [hphase] using hdone
      obtain ⟨sched, -, rfl⟩ := enqueueLevel_cases henq
      exact ⟨hcons, hs.left, fun _ => .inr ⟨hfalse, by simp⟩⟩
  | setDone hphase hi =>
      refine ⟨hcons, fun c hc => ⟨rfl, (hs.left c hc).2⟩, fun hwait => ?_⟩
      exact (hs.attended hwait).imp_right fun hp => absurd ⟨hphase, hi⟩ hp.2
  | detach hphase =>
      refine ⟨hcons, hs.left, fun hwait => ?_⟩
      exact (hs.attended hwait).imp_right fun hp => ⟨hp.1, by simp⟩
  | early | start | addRunning | slot =>
      refine ⟨hcons, hs.left, fun hwait => ?_⟩
      exact (hs.attended hwait).imp_right fun hp => ⟨hp.1, by simp⟩

theorem Attended.tick {s s' : Os cfg} (hs : Attended s) (hcpus : 1 ≤ cfg.numCpus)
    (h : s.tick = some s') : Attended s' := by
  have hcons := hs.conserved.tick h
  obtain ⟨hready, -, rfl⟩ := tick_cases h
  -- a waiting CPU is alive after the tick
  have hrelease : ∀ c, ¬ (s.cpu c).Left → (releaseCpu (s.cpu c)).Alive := fun c hc => by
    have hphase : (s.cpu c).phase = .waiting := by
      have := hready c
      simp only [cpuReady, Bool.or_eq_true, decide_eq_true_eq] at this
      exact this.resolve_right fun hd => hc (.inr hd)
    simp [releaseCpu, hphase, Cpu.Alive, Cpu.Left]
  refine ⟨hcons, fun c hc => ?_, fun hwait => ?_⟩
  · have hold : (s.cpu c).Left := by
      by_contra hn
      exact (hrelease c hn).1 hc
    have hphase : (s.cpu c).phase ≠ .waiting := by
      rcases hold with hp | hp <;> simp [hp]
    simpa [releaseCpu, hphase] using hs.left c hold
  · left
    rcases hs.attended hwait with ⟨c, hc⟩ | hp
    · exact ⟨c, hrelease c hc.1⟩
    · refine ⟨⟨0, hcpus⟩, hrelease _ fun hleft => ?_⟩
      have := (hs.left _ hleft).1
      rw [hp.1] at this
      cases this

theorem Attended.step {s s' : Os cfg} {a : Act cfg} (hs : Attended s) (hcpus : 1 ≤ cfg.numCpus)
    (hmiss : NoMiss s a) (h : Step s a s') : Attended s' := by
  rcases step_cases h with ⟨c, rfl, hc⟩ | ⟨rfl, hl⟩ | ⟨-, ht⟩ | ⟨⟨idx, rfl | rfl⟩, -⟩
  · exact hs.cpuStep hmiss.2 hc
  · exact hs.ldStep h hl
  · exact hs.tick hcpus ht
  · cases hmiss.1
  · cases hmiss.1

/-- With at most `MAX_QUEUE_SIZE` processes no level is ever short of room. -/
theorem sharing_le (cfg : Config) (hnum : cfg.numProcesses ≤ maxQueueSize) (l : Level) :
    cfg.sharing l ≤ maxQueueSize := by
  refine le_trans ?_ hnum
  simpa [Config.sharing] using
    List.countP_le_length (p := fun p => decide (cfg.prio p = l)) (l := List.range cfg.numProcesses)

/-- **Nobody is abandoned, unless a CPU mistakes spent slots for empty queues.** In a run with at
least one CPU, at most `MAX_QUEUE_SIZE` processes and no `killall`, in which the last CPU alive does
not refill the slots in the `get_proc` after a finished or returned process once the loader has
passed its last `next_slot`, there is no state where the loader has finished, all CPUs have left
their loop, and some loaded process is not at the end of its code. -/
theorem no_process_abandoned (hcpus : 1 ≤ cfg.numCpus) (hnum : cfg.numProcesses ≤ maxQueueSize)
    {s : Os cfg} {as : List (Act cfg)} (hrun : Steps (Steps.Meeting NoMiss Step) (init cfg) as s) :
    ¬ (s.LdFinished ∧ (∀ c, (s.cpu c).Left) ∧
        ∃ p < cfg.numProcesses, s.pc p < (cfg.code p).length) := by
  rintro ⟨hfin, hleft, p, hp, hpc⟩
  have hs : Attended s :=
    hrun.state_invariant (attended_init cfg) fun _ _ _ ht hR => ht.step hcpus hR.1 hR.2
  have hnokill : Steps (Steps.Meeting NoKill Step) (init cfg) as s :=
    hrun.mono fun _ _ _ hR => ⟨hR.1.1, hR.2⟩
  have href := (conserved_of_steps hnokill).2 (sharing_le cfg hnum) p
  have hdone : s.done = true := hs.conserved.done_iff.mpr hfin
  have hlive : s.freed p = false := by
    cases hfreed : s.freed p with
    | false => rfl
    | true =>
        have := hs.conserved.owned.freed_pc p hfreed
        omega
  have hadded : p < s.ld.i := lt_of_lt_of_le hp (hs.conserved.index_end hdone)
  rcases held_or_atLevel hs.conserved.owned (hs.conserved.placed p href) hadded hlive with
    ⟨c, hc⟩ | ⟨hprio, hmem⟩
  · -- a CPU that has left holds nobody
    have hnone := (hs.left c (hleft c)).2
    rcases hleft c with hph | hph <;> simp [Cpu.held, hph, hnone] at hc
  · -- somebody waits, but nobody is left to attend
    rcases hs.attended ⟨_, List.ne_nil_of_mem hmem⟩ with ⟨c, hc⟩ | hpend
    · exact hc.1 (hleft c)
    · cases hdone.symm.trans hpend.1

/-- One CPU, and one process of one instruction. -/
abbrev loneInstruction : Config where
  timeSlot := 1
  numCpus := 1
  numProcesses := 1
  startTime := fun _ => 0
  prio := fun _ => 70
  code := fun _ => [⟨.calc, 0, 0, 0, 0⟩]

/-- The slot after the last process was added: the loader ends, and CPU `c` acts `k` times. -/
def endSlot (cfg : Config) (c : Fin cfg.numCpus) (k : Nat) : List (Act cfg) :=
  [.loader, .loader] ++ List.replicate k (.cpu c)

/-- A whole run of it: the CPU finishes the process, finds nobody waiting and leaves. -/
theorem no_process_abandoned_lone_instruction :
    ∃ s, Steps (Steps.Meeting NoMiss Step) (init loneInstruction)
        (loadSlot loneInstruction 0 ++ endSlot loneInstruction 0 4) s ∧
      s.LdFinished ∧ (∀ c, (s.cpu c).Left) ∧
      ¬ ∃ p < loneInstruction.numProcesses, s.pc p < (loneInstruction.code p).length := by
  have hcheck : (Steps.exec (Steps.checked NoMiss Os.step) (init loneInstruction)
      (loadSlot loneInstruction 0 ++ endSlot loneInstruction 0 4)).any (fun s => decide
        (s.ld.phase = .detached ∧ ∀ c, (s.cpu c).phase = .detached)) = true := by
    decide +kernel
  obtain ⟨s, hs, hfacts⟩ := (Option.any_eq_true _ _).mp hcheck
  obtain ⟨hld, hcpu⟩ := of_decide_eq_true hfacts
  have hrun : Steps (Steps.Meeting NoMiss Step) (init loneInstruction)
      (loadSlot loneInstruction 0 ++ endSlot loneInstruction 0 4) s :=
    Steps.of_exec_checked hs
  have hleft : ∀ c, (s.cpu c).Left := fun c => .inr (hcpu c)
  exact ⟨s, hrun, .inr hld, hleft, fun hunfinished =>
    no_process_abandoned (by decide) (by decide) hrun ⟨.inr hld, hleft, hunfinished⟩⟩

/-- One CPU with a quantum of one instruction, and one process of two instructions at the last
level, which has a single slot. -/
abbrev lastLevel : Config where
  timeSlot := 1
  numCpus := 1
  numProcesses := 1
  startTime := fun _ => 0
  prio := fun _ => 139
  code := fun _ => [⟨.calc, 0, 0, 0, 0⟩, ⟨.calc, 0, 0, 0, 0⟩]

/-- In the second time slot the CPU puts the process back and looks for the next one. The level's
only slot is spent, so it gets `NULL` and leaves, with the process waiting after one of its two
instructions. -/
theorem process_abandoned :
    ∃ s : Os lastLevel,
      Steps Step (init lastLevel) (loadSlot lastLevel 0 ++ endSlot lastLevel 0 6) s ∧
      (∀ a ∈ loadSlot lastLevel 0 ++ endSlot lastLevel 0 6, a.isKill = false) ∧
      s.LdFinished ∧ (∀ c, (s.cpu c).Left) ∧
      ∃ p < lastLevel.numProcesses, s.pc p < (lastLevel.code p).length := by
  have hcheck : (Steps.exec (fun s a => Os.step s a) (init lastLevel)
      (loadSlot lastLevel 0 ++ endSlot lastLevel 0 6)).any (fun s => decide
        (s.ld.phase = .detached ∧ (∀ c, (s.cpu c).phase = .detached) ∧ s.pc 0 = 1)) = true := by
    decide +kernel
  obtain ⟨s, hs, hfacts⟩ := (Option.any_eq_true _ _).mp hcheck
  obtain ⟨hld, hcpu, hpc⟩ := of_decide_eq_true hfacts
  exact ⟨s, Steps.of_exec hs, by decide, .inr hld, fun c => .inr (hcpu c), 0, by decide,
    by rw [hpc]; decide⟩

end Os

end Ossim
