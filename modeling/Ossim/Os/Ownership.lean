import Ossim.Library.Steps
import Ossim.Os.Places

/-!
# A process is never on two CPUs

`Owned` collects what is true of every state the simulator reaches, under every interleaving of the
CPUs, the loader, the timer and the removals of `killall`: the levels are sorted by priority, nobody
is in two places, and what was executed for a process is exactly the prefix of its code up to `pc`.
The last fact needs the second: between the fetch of an instruction and the increment of `pc`
another CPU could interfere, if it held the same process.
-/

namespace Ossim.Os

variable {cfg : Config}

/-- The invariant of every run. -/
structure Owned (s : Os cfg) : Prop where
  sorted : s.sched.Sorted cfg.prio
  one : ∀ p, s.places p ≤ 1
  /-- The history of a process is the prefix of its code that `pc` has passed. -/
  executed_eq : ∀ p, s.executed p = (cfg.code p).take (s.pc p)
  pc_le : ∀ p, s.pc p ≤ (cfg.code p).length
  /-- A fetched instruction is still the one at `pc`. -/
  fetched : ∀ c ins, (s.cpu c).phase = .exec ins →
    ∃ p, (s.cpu c).proc = some p ∧ (cfg.code p)[s.pc p]? = some ins
  /-- Only a process at the end of its code is freed. -/
  freed_pc : ∀ p, s.freed p = true → s.pc p = (cfg.code p).length

theorem owned_init (cfg : Config) : Owned (init cfg) where
  sorted := Sched.sorted_initScheduler cfg.prio
  one p := by simp [places, heldBy, queued, init, Cpu.held, Sched.initScheduler, Sched.waiting]
  executed_eq p := by simp [init]
  pc_le p := by simp [init]
  fetched c ins h := by simp [init] at h
  freed_pc p h := by simp [init] at h

/-! ## The levels stay sorted -/

theorem sorted_enqueueLevel {s t : Os cfg} {p : Nat} (hs : s.sched.Sorted cfg.prio)
    (h : s.enqueueLevel p = some t) : t.sched.Sorted cfg.prio := by
  obtain ⟨sched, hok, rfl⟩ := enqueueLevel_cases h
  exact hs.enqueueMlq hok

theorem sorted_cpuStep {s s' : Os cfg} {c : Fin cfg.numCpus} (hs : s.sched.Sorted cfg.prio)
    (h : CpuStep s c s') : s'.sched.Sorted cfg.prio := by
  cases h with
  | idleGet hphase hproc hget => exact hs.getMlqProc (Sched.getMlqProc_cases hs hget)
  | nextGet hphase hget => exact hs.getMlqProc (Sched.getMlqProc_cases hs hget)
  | putMlq hphase hproc henq =>
      have ht := sorted_enqueueLevel hs henq
      exact ht
  | finish | expire | resume | putReady | exit | skip | dispatch | runNothing | fetch | exec | slot
  | detach => exact hs

theorem sorted_ldStep {s s' : Os cfg} (hs : s.sched.Sorted cfg.prio) (h : LdStep s s') :
    s'.sched.Sorted cfg.prio := by
  cases h with
  | addMlq hphase henq =>
      have ht := sorted_enqueueLevel hs henq
      exact ht
  | early | start | setDone | addRunning | slot | detach => exact hs

theorem sorted_killStep {s s' : Os cfg} (hs : s.sched.Sorted cfg.prio) (h : KillStep s s') :
    s'.sched.Sorted cfg.prio := by
  cases h with
  | @ready idx q hq =>
      intro l o ho
      rcases eq_or_ne l levelZero with rfl | hne
      · simp only [Function.update_self] at ho
        have hcount := count_removeFromQueue hq o
        exact hs levelZero o (List.count_pos_iff.mp
          (lt_of_lt_of_le (List.count_pos_iff.mpr ho) hcount))
      · simp only [Function.update_of_ne hne] at ho
        exact hs l o ho
  | running => exact hs

/-! ## Frame facts -/

/-- A CPU action leaves the other CPUs alone. -/
theorem cpu_cpuStep_of_ne {s s' : Os cfg} {c d : Fin cfg.numCpus} (h : CpuStep s c s')
    (hne : d ≠ c) : s'.cpu d = s.cpu d := by
  cases h with
  | putMlq hphase hproc henq =>
      obtain ⟨sched, -, rfl⟩ := enqueueLevel_cases henq
      exact Function.update_of_ne hne _ _
  | idleGet | nextGet | finish | expire | resume | putReady | exit | skip | dispatch | runNothing
  | fetch | exec | slot | detach => exact Function.update_of_ne hne _ _

/-- What a CPU action does to the history of the processes. -/
theorem history_cpuStep {s s' : Os cfg} {c : Fin cfg.numCpus} (h : CpuStep s c s') :
    (s'.pc = s.pc ∧ s'.executed = s.executed) ∨
      ∃ p ins, (s.cpu c).phase = .exec ins ∧ (s.cpu c).proc = some p ∧
        s'.pc = Function.update s.pc p (s.pc p + 1) ∧
        s'.executed = Function.update s.executed p (s.executed p ++ [ins]) ∧
        (s'.cpu c).phase = .slot ∧ s'.freed = s.freed := by
  cases h with
  | exec hphase hproc =>
      exact .inr ⟨_, _, hphase, hproc, rfl, rfl, by simp, rfl⟩
  | putMlq hphase hproc henq =>
      obtain ⟨sched, -, rfl⟩ := enqueueLevel_cases henq
      exact .inl ⟨rfl, rfl⟩
  | idleGet | nextGet | finish | expire | resume | putReady | exit | skip | dispatch | runNothing
  | fetch | slot | detach => exact .inl ⟨rfl, rfl⟩

/-- The only way into the middle of `run` is a fetch. -/
theorem fetched_cpuStep {s s' : Os cfg} {c : Fin cfg.numCpus} (h : CpuStep s c s') {ins : Inst}
    (hexec : (s'.cpu c).phase = .exec ins) :
    ∃ p, (s'.cpu c).proc = some p ∧ (cfg.code p)[s.pc p]? = some ins := by
  cases h with
  | @fetch p ins' hphase hproc hpc =>
      simp only [setCpu_cpu, Function.update_self, CpuPhase.exec.injEq] at hexec ⊢
      subst hexec
      exact ⟨p, hproc, hpc⟩
  | @idleGet g hphase hproc hget =>
      simp only [setCpu_cpu, Function.update_self] at hexec
      split at hexec <;> cases hexec
  | nextGet | finish | expire | resume | putReady | putMlq | exit | skip | dispatch | runNothing
  | exec | slot | detach => simp at hexec

/-- A CPU action frees only a process at the end of its code. -/
theorem freed_cpuStep {s s' : Os cfg} {c : Fin cfg.numCpus} (h : CpuStep s c s') {p : Nat}
    (hfreed : s'.freed p = true) : s.freed p = true ∨ s.pc p = (cfg.code p).length := by
  cases h with
  | @finish r hphase hproc hpc =>
      rcases eq_or_ne p r with rfl | hne
      · exact .inr hpc
      · exact .inl (by simpa [Function.update_of_ne hne] using hfreed)
  | putMlq hphase hproc henq =>
      obtain ⟨sched, -, rfl⟩ := enqueueLevel_cases henq
      exact .inl hfreed
  | idleGet | nextGet | expire | resume | putReady | exit | skip | dispatch | runNothing | fetch
  | exec | slot | detach => exact .inl hfreed

/-! ## The invariant is kept -/

/-- A process that a CPU is running is held by it. -/
theorem held_of_exec {s : Os cfg} {c : Fin cfg.numCpus} {ins : Inst} {p : Nat}
    (hphase : (s.cpu c).phase = .exec ins) (hproc : (s.cpu c).proc = some p) :
    (s.cpu c).held = some p := by
  simp [Cpu.held, hphase, hproc]

theorem Owned.cpuStep {s s' : Os cfg} {c : Fin cfg.numCpus} (hs : Owned s) (h : CpuStep s c s') :
    Owned s' := by
  have hone : ∀ p, s'.places p ≤ 1 := fun p =>
    le_trans (places_cpuStep hs.sorted hs.one h p).1 (hs.one p)
  have hsorted := sorted_cpuStep hs.sorted h
  rcases history_cpuStep h with ⟨hpc, hexecuted⟩ | ⟨p, ins, hphase, hproc, hpc, hexecuted, hslot, hfr⟩
  · -- nothing was executed: `pc` is as before
    refine ⟨hsorted, hone, by rw [hpc, hexecuted]; exact hs.executed_eq,
      by rw [hpc]; exact hs.pc_le, fun d ins hd => ?_, fun p hp => ?_⟩
    · rw [hpc]
      rcases eq_or_ne d c with rfl | hne
      · exact fetched_cpuStep h hd
      · rw [cpu_cpuStep_of_ne h hne] at hd ⊢
        exact hs.fetched d ins hd
    · rw [hpc]
      rcases freed_cpuStep h hp with hold | hend
      · exact hs.freed_pc p hold
      · exact hend
  · -- the CPU finished an instruction of `p`, which nobody else holds
    obtain ⟨r, hr, hget⟩ := hs.fetched c ins hphase
    rw [hproc] at hr
    cases hr
    have hheld := held_of_exec hphase hproc
    have hlt : s.pc p < (cfg.code p).length := (List.getElem?_eq_some_iff.mp hget).1
    refine ⟨hsorted, hone, fun r => ?_, fun r => ?_, fun d ins' hd => ?_, fun r hr => ?_⟩
    · rcases eq_or_ne r p with rfl | hne
      · rw [hexecuted, hpc, Function.update_self, Function.update_self, hs.executed_eq,
          List.take_add_one, hget]
        rfl
      · rw [hexecuted, hpc, Function.update_of_ne hne, Function.update_of_ne hne]
        exact hs.executed_eq r
    · rcases eq_or_ne r p with rfl | hne
      · rw [hpc, Function.update_self]
        exact hlt
      · rw [hpc, Function.update_of_ne hne]
        exact hs.pc_le r
    · rcases eq_or_ne d c with rfl | hne
      · rw [hslot] at hd
        cases hd
      · rw [cpu_cpuStep_of_ne h hne] at hd ⊢
        obtain ⟨r, hr, hget'⟩ := hs.fetched d ins' hd
        have hrp : r ≠ p := by
          rintro rfl
          have htwo := two_le_heldBy hne (held_of_exec hd hr) hheld
          have := hs.one r
          unfold places at this
          omega
        exact ⟨r, hr, by rw [hpc, Function.update_of_ne hrp]; exact hget'⟩
    · rw [hfr] at hr
      have hrp : r ≠ p := by
        rintro rfl
        rw [freed_of_held (hs.one r) hheld] at hr
        cases hr
      rw [hpc, Function.update_of_ne hrp]
      exact hs.freed_pc r hr

/-- The loader touches neither the CPUs nor the processes. -/
theorem frame_ldStep {s s' : Os cfg} (h : LdStep s s') :
    s'.cpu = s.cpu ∧ s'.pc = s.pc ∧ s'.executed = s.executed ∧ s'.freed = s.freed := by
  cases h with
  | addMlq hphase henq =>
      obtain ⟨sched, -, rfl⟩ := enqueueLevel_cases henq
      exact ⟨rfl, rfl, rfl, rfl⟩
  | early | start | setDone | addRunning | slot | detach => exact ⟨rfl, rfl, rfl, rfl⟩

theorem frame_killStep {s s' : Os cfg} (h : KillStep s s') :
    s'.cpu = s.cpu ∧ s'.pc = s.pc ∧ s'.executed = s.executed ∧ s'.freed = s.freed := by
  cases h <;> exact ⟨rfl, rfl, rfl, rfl⟩

/-- An action that keeps the CPUs and the processes keeps the invariant, once it keeps the levels
sorted and raises no count. -/
theorem Owned.of_frame {s s' : Os cfg} (hs : Owned s) (hsorted : s'.sched.Sorted cfg.prio)
    (hone : ∀ p, s'.places p ≤ s.places p)
    (hframe : s'.cpu = s.cpu ∧ s'.pc = s.pc ∧ s'.executed = s.executed ∧ s'.freed = s.freed) :
    Owned s' := by
  obtain ⟨hcpu, hpc, hexecuted, hfreed⟩ := hframe
  refine ⟨hsorted, fun p => le_trans (hone p) (hs.one p), ?_, ?_, ?_, ?_⟩
  · rw [hexecuted, hpc]
    exact hs.executed_eq
  · rw [hpc]
    exact hs.pc_le
  · rw [hcpu, hpc]
    exact hs.fetched
  · rw [hfreed, hpc]
    exact hs.freed_pc

theorem Owned.tick {s s' : Os cfg} (hs : Owned s) (h : s.tick = some s') : Owned s' := by
  have hone := places_tick h
  obtain ⟨hcpu, -, rfl⟩ := tick_cases h
  refine ⟨hs.sorted, fun p => by rw [hone]; exact hs.one p, hs.executed_eq, hs.pc_le,
    fun c ins hc => ?_, hs.freed_pc⟩
  simp only [releaseCpu] at hc
  split at hc
  · cases hc
  · next hphase =>
    have := hcpu c
    simp only [cpuReady, hc] at this
    cases this

/-- **Every action of every thread keeps the invariant.** -/
theorem Owned.step {s s' : Os cfg} {a : Act cfg} (hs : Owned s) (h : Step s a s') : Owned s' := by
  rcases step_cases h with ⟨c, -, hc⟩ | ⟨-, hl⟩ | ⟨-, ht⟩ | ⟨-, hk⟩
  · exact hs.cpuStep hc
  · exact hs.of_frame (sorted_ldStep hs.sorted hl) (fun p => (places_ldStep hl p).1) (frame_ldStep hl)
  · exact hs.tick ht
  · exact hs.of_frame (sorted_killStep hs.sorted hk) (places_killStep hk) (frame_killStep hk)

theorem owned_of_steps {s : Os cfg} {as : List (Act cfg)} (hrun : Steps Step (init cfg) as s) :
    Owned s :=
  hrun.state_invariant (owned_init cfg) fun _ _ _ hs h => hs.step h

/-- **A process is never on two CPUs, and its code runs once and in order.** In every state reached
by any number of CPUs, under any interleaving, a process occurs at most once among the processes
held by CPUs and the entries of all levels together, and the instructions executed for it are
exactly `text[0], ..., text[pc - 1]`. -/
theorem exclusive_execution {s : Os cfg} {as : List (Act cfg)}
    (hrun : Steps Step (init cfg) as s) (p : Nat) :
    s.heldBy p + queued s.sched p ≤ 1 ∧
      s.executed p = (cfg.code p).take (s.pc p) ∧ s.pc p ≤ (cfg.code p).length := by
  have hs := owned_of_steps hrun
  refine ⟨?_, hs.executed_eq p, hs.pc_le p⟩
  have := hs.one p
  unfold places at this
  omega

/-- A process of one instruction, at the middle level. -/
abbrev oneProcess : Config where
  timeSlot := 2
  numCpus := 2
  numProcesses := 1
  startTime := fun _ => 0
  prio := fun _ => 70
  code := fun _ => [⟨.calc, 0, 0, 0, 0⟩]

/-- The second of two CPUs takes the only process and executes its instruction. -/
theorem exclusive_execution_one_process :
    ∃ s, Steps Step (init oneProcess)
        [.loader, .loader, .loader, .cpu 1, .cpu 1, .cpu 0, .cpu 1, .cpu 1] s ∧
      s.heldBy 0 + queued s.sched 0 ≤ 1 ∧ s.executed 0 = [⟨.calc, 0, 0, 0, 0⟩] := by
  have hrun : Steps Step (init oneProcess)
      [.loader, .loader, .loader, .cpu 1, .cpu 1, .cpu 0, .cpu 1, .cpu 1] _ :=
    .cons rfl (.cons rfl (.cons rfl (.cons rfl (.cons rfl (.cons rfl (.cons rfl (.cons rfl
      (.nil _))))))))
  obtain ⟨hplaces, hexecuted, -⟩ := exclusive_execution hrun 0
  exact ⟨_, hrun, hplaces, hexecuted⟩

end Ossim.Os
