import Ossim.Os.Deadline
import Ossim.Timer.Progress

/-!
# Everybody finishes

The three results about the whole simulator together: the threads under the timer are the threads of `Os`
(`Ossim.Timer.Threads`), a slot takes a bounded number of their actions (`Ossim.Timer.Progress`), and in
`Os` everybody has finished by a deadline (`Ossim.Os.Deadline`). So a run that goes on has run every
process to its end after a number of actions that the configuration fixes, in whatever order they are
taken.

There is no `killall` in `Clocked`, and it is needed that there is none: a process that waits at level 0
when another one kills it is neither run nor freed.
-/

namespace Ossim.Clocked

variable {cfg : Config} {f f' : Clocked cfg} {c : Fin cfg.numCpus}

/-- The action does not make the last CPU miss the processes that wait. -/
def NoMiss (f : Clocked cfg) : ClockedAct cfg → Prop
  | .cpu c => ¬ f.abs.MissesWaiting (.cpu c)
  | _ => True

/-- An action of somebody else leaves the variables of a CPU as they are. -/
theorem cpu_step_of_ne {a : ClockedAct cfg} (h : Step f a f') (hne : a ≠ .cpu c) :
    f'.os.cpu c = f.os.cpu c := by
  cases a with
  | cpu d =>
      have hcd : c ≠ d := by
        rintro rfl
        exact hne rfl
      have hos : ∀ {os : Os cfg}, f.threads.cpuStep d = some os → os.cpu c = f.os.cpu c := fun hd =>
        Os.cpu_cpuStep_of_ne (s := f.threads) (Os.cpuStep_cases hd) hcd
      cases cpuStep_cases h with
      | raise hphase hd => exact hos hd
      | pass hphase => exact Function.update_of_ne hcd _ _
      | detach hphase hd => exact hos hd
      | work hslot hwaiting hstopped hd => exact hos hd
  | loader =>
      have hos : ∀ {os : Os cfg}, f.threads.ldStep = some os → os.cpu c = f.os.cpu c := fun hl =>
        congrFun (Os.frame_ldStep (s := f.threads) (Os.ldStep_cases hl)).1 c
      cases ldStep_cases h with
      | raise hphase hl => exact hos hl
      | pass hphase => rfl
      | detach hphase hl => exact hos hl
      | work hslot hwaiting hfinished hl => exact hos hl
  | timer =>
      obtain ⟨hos, -⟩ := both_eq_some.mp h
      rw [Option.some.inj hos]
  | stop =>
      simp only [Step, Clocked.step] at h
      split at h
      · obtain ⟨hos, -⟩ := both_eq_some.mp h
        rw [Option.some.inj hos]
      · cases h

/-- The timer changes what `Os` sees of a CPU only by bringing it to the head of the loop. -/
theorem phase_of_abs {phase : CpuPhase} (h : (f.abs.cpu c).phase = phase) (hne : phase ≠ .check) :
    (f.os.cpu c).phase = phase := by
  change (absCpu f.timer c (f.os.cpu c)).phase = phase at h
  unfold absCpu Os.releaseCpu at h
  split at h
  · split at h
    · exact absurd h.symm hne
    · exact h
  · exact h

/-- After `get_proc` a CPU checks what it got. -/
theorem phase_of_getNext {s s' : Os cfg} (h : Os.CpuStep s c s') (hphase : (s.cpu c).phase = .getNext) :
    (s'.cpu c).phase = .recheck := by
  cases h with
  | nextGet => simp
  | idleGet h | finish h | expire h | resume h | putReady h | putMlq h | exit h | skip h | dispatch h
  | runNothing h | fetch h | exec h | slot h | detach h => cases hphase.symm.trans h

/-- A `get_proc` in `Os` is one of the CPU itself. -/
theorem noMiss_abs {a : ClockedAct cfg} {b : Act cfg} (h : Step f a f') (hmiss : NoMiss f a)
    (hb : Os.Step f.abs b f'.abs) : ¬ f.abs.MissesWaiting b := by
  intro hmissed
  have hkeep := hmissed
  obtain ⟨⟨c, rfl, hphase, -⟩, -⟩ := hmissed
  by_cases hact : a = .cpu c
  · subst hact
    exact hmiss hkeep
  · -- the CPU would have gone on without an action of its own
    have hphase' : (f'.os.cpu c).phase = .getNext := by
      rw [cpu_step_of_ne h hact]
      exact phase_of_abs hphase (by simp)
    have hnext := phase_of_getNext (Os.cpuStep_cases hb) hphase
    cases (phase_of_abs hnext (by simp)).symm.trans hphase'

/-- The run, for `Os`. -/
theorem noMiss_of_run {as : List (ClockedAct cfg)} (hrun : Steps (Steps.Meeting NoMiss Step) (init cfg) as f) :
    Coupled f ∧ (f.timer.ticks < 2 ^ 64 →
      ∃ bs, Steps (Steps.Meeting Os.NoMiss Os.Step) (Os.init cfg) bs f.abs) := by
  refine hrun.state_invariant
    (motive := fun f => Coupled f ∧ (f.timer.ticks < 2 ^ 64 →
      ∃ bs, Steps (Steps.Meeting Os.NoMiss Os.Step) (Os.init cfg) bs f.abs))
    ⟨coupled_init cfg, fun _ => ⟨[], by rw [abs_init]; exact .nil _⟩⟩ ?_
  rintro f a f' ⟨hs, hos⟩ ⟨hmiss, hstep⟩
  obtain ⟨hcoupled, hticks, hshows⟩ := hs.step hstep
  refine ⟨hcoupled, fun hlt => ?_⟩
  obtain ⟨bs, hbs⟩ := hos (by omega)
  rcases hshows (by omega) with hsame | ⟨b, hkill, hb⟩
  · exact ⟨bs, by rwa [hsame]⟩
  · exact ⟨bs ++ [b], hbs.snoc ⟨⟨hkill, noMiss_abs hstep hmiss hb⟩, hb⟩⟩

/-- **Everybody finishes.** However the CPUs, the loader and the timer take turns, with at least one CPU,
at most `MAX_QUEUE_SIZE` processes of a priority and no `killall`: a run of so many actions that the slots
up to the deadline cannot hold them, in which no `get_proc` that refills the slots makes the last CPU
leave, has executed every process to the end of its code and freed it, unless the 64-bit time has
wrapped. -/
theorem everybody_finishes (hcpus : 1 ≤ cfg.numCpus) (hshare : ∀ l, cfg.sharing l ≤ maxQueueSize) {m : Nat}
    (hstart : ∀ p < cfg.numProcesses, cfg.startTime p ≤ m) {as : List (ClockedAct cfg)}
    (hrun : Steps (Steps.Meeting NoMiss Step) (init cfg) as f) (htime : f.timer.ticks < 2 ^ 64)
    (hlong : 11 * (cfg.numCpus + 1) *
        (m + ∑ p ∈ Finset.range cfg.numProcesses, (2 * max 1 (cfg.code p).length + 2)) <
      as.countP fun a => !a.isStop)
    {p : Nat} (hp : p < cfg.numProcesses) : f.os.freed p = true ∧ f.os.executed p = cfg.code p := by
  obtain ⟨bs, hbs⟩ := (noMiss_of_run hrun).2 htime
  have hactions := countP_add_left_le (hrun.mono fun _ _ _ h => h.2)
  have hfreed : f.abs.freed p = true := by
    cases hlive : f.abs.freed p with
    | true => rfl
    | false =>
        exfalso
        have hticks : f.timer.ticks + 1 ≤ _ := Os.time_lt_deadline hcpus hshare hstart hbs hp hlive
        have hmul := Nat.mul_le_mul_left (11 * (cfg.numCpus + 1)) hticks
        omega
  have howned := Os.owned_of_steps (hbs.mono fun _ _ _ h => h.2)
  exact ⟨hfreed, howned.executed_of_freed hfreed⟩

instance (f : Clocked cfg) (a : ClockedAct cfg) : Decidable (NoMiss f a) :=
  match a with
  | .cpu c => inferInstanceAs (Decidable ¬ ((∃ d, Act.cpu c = .cpu d ∧ (f.abs.cpu d).phase = .getNext ∧
      ∀ e, e ≠ d → ¬ (f.abs.cpu e).Alive) ∧ (∃ l, f.abs.sched.waiting l ≠ []) ∧
      (∀ l, f.abs.sched.waiting l ≠ [] → f.abs.sched.slot l ≤ 0) ∧ ¬ f.abs.LdPending))
  | .loader | .timer | .stop => inferInstanceAs (Decidable True)

/-- A CPU runs a process of one instruction, frees it, and waits for six slots. -/
def eightSlots (cfg : Config) (c : Fin cfg.numCpus) : List (ClockedAct cfg) :=
  List.replicate 4 .loader ++ List.replicate 5 (.cpu c) ++ List.replicate 8 .timer ++
    List.replicate 5 (.cpu c) ++ List.replicate 3 .loader ++ List.replicate 8 .timer ++
    (List.replicate 6 (List.replicate 3 (.cpu c) ++ List.replicate 8 .timer)).flatten

theorem everybody_finishes_lone_instruction :
    ∃ f, Steps (Steps.Meeting NoMiss Step) (init Os.loneInstruction) (eightSlots Os.loneInstruction 0) f ∧
      f.os.freed 0 = true ∧ f.os.executed 0 = [⟨.calc, 0, 0, 0, 0⟩] := by
  have hcheck : (Steps.exec (Steps.checked NoMiss Clocked.step) (init Os.loneInstruction)
      (eightSlots Os.loneInstruction 0)).any (fun f => decide (f.timer.ticks < 2 ^ 64)) = true := by
    decide +kernel
  obtain ⟨f, hf, htime⟩ := (Option.any_eq_true _ _).mp hcheck
  have hrun : Steps (Steps.Meeting NoMiss Step) (init Os.loneInstruction) (eightSlots Os.loneInstruction 0) f :=
    Steps.of_exec_checked hf
  exact ⟨f, hrun, everybody_finishes (by decide) (by decide) (m := 0) (by decide) hrun
    (of_decide_eq_true htime) (by decide +kernel) (by decide)⟩

end Ossim.Clocked
