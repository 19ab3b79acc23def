import Ossim.Os.Idle
import Ossim.Timer.Threads

/-!
# Nobody waits for ever (`timer.c`, `os.c`)

The timer waits for every device, and every device waits for the timer. Two things could go wrong: all of
them wait at once, or the threads go on without the timer ever coming to `_time++`.

Neither happens. Where the timer stands before a device, that device's thread can act
(`never_stuck`): it works, and nothing it does in a slot can block for good, or it has been released and
can leave the wait. And `left` counts what the threads and the timer can still do before the time is
incremented, so that a slot costs a fixed number of actions (`slot_bounded`).
-/

namespace Ossim

namespace Os

variable {cfg : Config} {s : Os cfg} {c : Fin cfg.numCpus}

theorem enqueueLevel_isSome {p : Nat} (hprio : cfg.prio p < maxPrio) : ∃ t, s.enqueueLevel p = some t := by
  unfold enqueueLevel Sched.enqueueMlq
  rw [dif_pos hprio]
  exact ⟨_, rfl⟩

/-- Between the calls of `next_slot` a CPU can always go on. -/
theorem cpuStep_isSome (hs : Conserved s) (hbusy : Busy (s.cpu c) → (s.cpu c).proc ≠ none)
    (hprio : ∀ p < cfg.numProcesses, cfg.prio p < maxPrio) (hready : cpuReady (s.cpu c) = false) :
    ∃ s', s.cpuStep c = some s' := by
  obtain ⟨g, hget, -⟩ := Sched.getMlqProc_outcome hs.owned.sorted
  have hheld : ∀ p, (s.cpu c).held = some p → ∃ t, s.enqueueLevel p = some t := fun p hp => by
    have hlt := lt_index_of_held hs.owned hp
    exact enqueueLevel_isSome (hprio p (by have := hs.index_le; omega))
  unfold cpuStep
  generalize s.cpu c = l at hbusy hready hheld ⊢
  obtain ⟨phase, proc, timeLeft⟩ := l
  cases phase with
  | check =>
      cases proc with
      | none => exact ⟨_, by simp only [hget]; rfl⟩
      | some p =>
          by_cases hpc : s.pc p = (cfg.code p).length
          · exact ⟨_, by simp only [hpc]; rfl⟩
          · by_cases htime : timeLeft = 0
            · exact ⟨_, by simp only [hpc, htime]; rfl⟩
            · exact ⟨_, by simp only [hpc, htime]; rfl⟩
  | getNext => exact ⟨_, by simp only [hget]; rfl⟩
  | recheck =>
      cases proc with
      | none => cases hdone : s.done <;> exact ⟨_, rfl⟩
      | some p => exact ⟨_, rfl⟩
  | putReady =>
      cases proc with
      | none => exact absurd rfl (hbusy (.inl rfl))
      | some p => exact ⟨_, rfl⟩
  | putMlq =>
      cases proc with
      | none => exact absurd rfl (hbusy (.inr (.inl rfl)))
      | some p =>
          obtain ⟨t, ht⟩ := hheld p rfl
          exact ⟨_, by simp only [ht]; rfl⟩
  | run =>
      cases proc with
      | none => exact absurd rfl (hbusy (.inr (.inr (.inl rfl))))
      | some p =>
          cases hins : (cfg.code p)[s.pc p]? with
          | none => exact ⟨_, by simp only [hins]; rfl⟩
          | some ins => exact ⟨_, by simp only [hins]; rfl⟩
  | exec ins =>
      cases proc with
      | none => exact absurd rfl (hbusy (.inr (.inr (.inr ⟨ins, rfl⟩))))
      | some p => exact ⟨_, rfl⟩
  | slot | stopped => exact ⟨_, rfl⟩
  | waiting | detached => simp [cpuReady] at hready

/-- So can the loader. -/
theorem ldStep_isSome (hs : Conserved s) (hprio : ∀ p < cfg.numProcesses, cfg.prio p < maxPrio)
    (hready : ldReady s.ld = false) : ∃ s', s.ldStep = some s' := by
  have hlt := hs.index_lt s.ld.i
  unfold InAdd at hlt
  unfold ldStep
  generalize s.ld = l at hready hlt ⊢
  obtain ⟨phase, i⟩ := l
  cases phase with
  | head =>
      by_cases hi : i < cfg.numProcesses
      · by_cases htime : s.time < cfg.startTime i
        · exact ⟨_, by simp only [hi, htime]; rfl⟩
        · exact ⟨_, by simp only [hi, htime]; rfl⟩
      · exact ⟨_, by simp only [hi]; rfl⟩
  | addMlq =>
      obtain ⟨t, ht⟩ := enqueueLevel_isSome (s := s) (hprio i (hlt ⟨rfl, .inr rfl⟩))
      exact ⟨_, by simp only [ht]; rfl⟩
  | addRunning | slot | finished => exact ⟨_, rfl⟩
  | waiting | detached => simp [ldReady] at hready

end Os

namespace Timer

variable {n : Nat} {t t' : State n}

/-- The two counters of `timer_routine`: if as many devices had detached as there were, all of them have.
The timer ends its loop for that reason, or because it was stopped. -/
def Counted (t : State n) : Prop :=
  match t.timer with
  | .head => True
  | .collect i fsh event =>
    event = i ∧ i ≤ n ∧ fsh ≤ event ∧ (fsh = event → ∀ d : Fin n, (d : Nat) < i → (t.dev d).fsh = true)
  | .advance fsh event | .release _ fsh event => fsh = event → ∀ d, (t.dev d).fsh = true
  | .exited => ∀ d, (t.dev d).fsh = true

/-- Other actions than the timer's, which never lower `fsh`. -/
theorem Counted.mono (h : Counted t) (htimer : t'.timer = t.timer)
    (hfsh : ∀ d, (t.dev d).fsh = true → (t'.dev d).fsh = true) : Counted t' := by
  unfold Counted at h ⊢
  rw [htimer]
  cases hphase : t.timer with
  | head => trivial
  | collect i fsh event =>
      simp only [hphase] at h ⊢
      exact ⟨h.1, h.2.1, h.2.2.1, fun heq d hd => hfsh d (h.2.2.2 heq d hd)⟩
  | advance fsh event =>
      simp only [hphase] at h ⊢
      exact fun heq d => hfsh d (h heq d)
  | release i fsh event =>
      simp only [hphase] at h ⊢
      exact fun heq d => hfsh d (h heq d)
  | exited =>
      simp only [hphase] at h ⊢
      exact fun d => hfsh d (h d)

/-- The timer does not touch `fsh`, and nobody but `main` touches `timer_stop`. -/
theorem fsh_timerRoutine (h : step t .timer = some t') :
    t'.timerStop = t.timerStop ∧ ∀ d, (t'.dev d).fsh = (t.dev d).fsh := by
  have hfsh : ∀ (i : Fin n) (x : Device), x.fsh = (t.dev i).fsh →
      ∀ d, (Function.update t.dev i x d).fsh = (t.dev d).fsh := fun i x hx d => by
    rcases eq_or_ne d i with rfl | hne
    · rw [Function.update_self, hx]
    · rw [Function.update_of_ne hne]
  simp only [step, Timer.timerRoutine] at h
  split at h
  · split at h <;> cases h <;> exact ⟨rfl, fun _ => rfl⟩
  · split at h
    · split at h
      · cases h
        exact ⟨rfl, hfsh _ _ rfl⟩
      · cases h
    · cases h
      exact ⟨rfl, fun _ => rfl⟩
  · cases h
    exact ⟨rfl, fun _ => rfl⟩
  · split at h
    · cases h
      exact ⟨rfl, hfsh _ _ rfl⟩
    · split at h <;> cases h <;> exact ⟨rfl, fun _ => rfl⟩
  · cases h

theorem Counted.timerRoutine (h : Counted t) (hstop : t.timerStop = true → ∀ d, (t.dev d).fsh = true)
    (hstep : step t .timer = some t') : Counted t' := by
  have hfsh := (fsh_timerRoutine hstep).2
  unfold Counted at h
  simp only [step, Timer.timerRoutine] at hstep
  split at hstep
  · split at hstep
    · next hstopped =>
      cases hstep
      exact hstop hstopped
    · cases hstep
      exact ⟨rfl, Nat.zero_le _, le_rfl, fun _ d hd => absurd hd (Nat.not_lt_zero _)⟩
  · next i fsh event htimer =>
    simp only [htimer] at h
    obtain ⟨hevent, hle, hcount, hall⟩ := h
    split at hstep
    · next hi =>
      split at hstep
      · cases hstep
        refine ⟨by omega, hi, ?_, fun heq d hd => (hfsh d).trans ?_⟩
        · split <;> omega
        · -- the counters are equal only if this device was counted, and so were all before it
          have hcounted : (t.dev ⟨i, hi⟩).fsh = true := by
            by_contra hnot
            rw [if_neg hnot] at heq
            omega
          rw [if_pos hcounted] at heq
          rcases Nat.lt_or_ge d i with hlt | hge
          · exact hall (by omega) d hlt
          · rwa [show d = ⟨i, hi⟩ from Fin.ext (by simp only; omega)]
      · cases hstep
    · next hi =>
      cases hstep
      exact fun heq d => hall heq d (by have := d.isLt; omega)
  · next fsh event htimer =>
    simp only [htimer] at h
    cases hstep
    exact h
  · next i fsh event htimer =>
    simp only [htimer] at h
    split at hstep
    · cases hstep
      exact fun heq d => (hfsh d).trans (h heq d)
    · split at hstep
      · next heq =>
        cases hstep
        exact h heq
      · cases hstep
        trivial
  · cases hstep

/-- A thread leaves the timer alone, and never lowers `fsh`. -/
theorem fsh_thread {a : Act n} (hother : a ≠ .timer) (hstop : a ≠ .stop) (h : step t a = some t') :
    t'.timer = t.timer ∧ t'.timerStop = t.timerStop ∧
      ∀ d, (t.dev d).fsh = true → (t'.dev d).fsh = true := by
  have hfsh : ∀ (i : Fin n) (x : Device), ((t.dev i).fsh = true → x.fsh = true) →
      ∀ d, (t.dev d).fsh = true → (Function.update t.dev i x d).fsh = true := fun i x hx d hd => by
    rcases eq_or_ne d i with rfl | hne
    · rw [Function.update_self]
      exact hx hd
    · rwa [Function.update_of_ne hne]
  cases a with
  | timer => exact absurd rfl hother
  | stop => exact absurd rfl hstop
  | raise d =>
      obtain ⟨-, rfl⟩ := Clocked.raise_cases h
      exact ⟨rfl, rfl, hfsh _ _ id⟩
  | pass d =>
      obtain ⟨-, rfl⟩ := Clocked.pass_cases h
      exact ⟨rfl, rfl, hfsh _ _ id⟩
  | detach d =>
      obtain rfl := Clocked.detach_cases h
      exact ⟨rfl, rfl, hfsh _ _ fun _ => rfl⟩

/-- The timer blocks only at a device that has raised neither flag. -/
theorem blocked_cases (h : step t .timer = none) :
    t.timer = .exited ∨ ∃ i fsh event, ∃ hi : i < n, t.timer = .collect i fsh event ∧
      (t.dev ⟨i, hi⟩).done = false ∧ (t.dev ⟨i, hi⟩).fsh = false := by
  simp only [step, Timer.timerRoutine] at h
  split at h
  · split at h <;> cases h
  · next i fsh event htimer =>
    split at h
    · next hi =>
      split at h
      · cases h
      · next hflags => exact .inr ⟨i, fsh, event, hi, htimer, by simpa using hflags⟩
    · cases h
  · cases h
  · split at h
    · cases h
    · split at h <;> cases h
  · next htimer => exact .inl htimer

/-- The device it waits for can act. -/
theorem Good.awaited (ht : Good t) {i fsh event : Nat} (hi : i < n)
    (htimer : t.timer = .collect i fsh event) (hdone : (t.dev ⟨i, hi⟩).done = false)
    (hfsh : (t.dev ⟨i, hi⟩).fsh = false) :
    (t.dev ⟨i, hi⟩).phase = .working ∨ (t.dev ⟨i, hi⟩).phase = .waiting := by
  have hfits := ht.fits ⟨i, hi⟩ hfsh
  rw [htimer] at hfits
  obtain ⟨-, ⟨hwork, -⟩ | ⟨hwait, -⟩ | ⟨hwait, -⟩⟩ := hfits.current (.inr hdone)
  · exact .inl hwork
  · exact .inr hwait
  · exact .inr hwait

end Timer

/-- What `main` does at the end. -/
def ClockedAct.isStop {cfg : Config} : ClockedAct cfg → Bool
  | .stop => true
  | _ => false

namespace Clocked

variable {cfg : Config} {f f' : Clocked cfg} {c : Fin cfg.numCpus}

/-! ## Some action is possible -/

theorem dev_cases (d : Fin (cfg.numCpus + 1)) : d = ldDev ∨ ∃ c : Fin cfg.numCpus, d = cpuDev c := by
  cases d using Fin.cases with
  | zero => exact .inl rfl
  | succ i => exact .inr ⟨Fin.rev i, by rw [cpuDev, Fin.rev_rev]⟩

/-- All devices have detached when all threads have. -/
theorem Coupled.fsh_iff (hs : Coupled f) : (∀ d, (f.timer.dev d).fsh = true) ↔
    f.os.ld.phase = .detached ∧ ∀ c, (f.os.cpu c).phase = .detached := by
  constructor
  · intro hall
    exact ⟨detached_of_gone_ld (hs.ld.symm.trans ((hs.good.gone_iff _).mpr (hall _))),
      fun c => detached_of_gone ((hs.cpu c).symm.trans ((hs.good.gone_iff _).mpr (hall _)))⟩
  · rintro ⟨hld, hcpu⟩ d
    refine (hs.good.gone_iff d).mp ?_
    rcases dev_cases d with rfl | ⟨c, rfl⟩
    · rw [hs.ld, hld]
      rfl
    · rw [hs.cpu c, hcpu c]
      rfl

/-- The timer goes by the flags of the devices, and ends when all have detached. -/
structure Watched (f : Clocked cfg) : Prop where
  coupled : Coupled f
  counted : Timer.Counted f.timer
  stopped : f.timer.timerStop = true → ∀ d, (f.timer.dev d).fsh = true

theorem Watched.of_thread (hs : Watched f) (hcoupled : Coupled f')
    (hkeeps : f'.timer.timer = f.timer.timer ∧ f'.timer.timerStop = f.timer.timerStop ∧
      ∀ d, (f.timer.dev d).fsh = true → (f'.timer.dev d).fsh = true) : Watched f' := by
  obtain ⟨htimer, hstop, hfsh⟩ := hkeeps
  exact ⟨hcoupled, hs.counted.mono htimer hfsh,
    fun hstopped d => hfsh d (hs.stopped (hstop ▸ hstopped) d)⟩

theorem keeps_cpuStep (h : CpuStep f c f') :
    f'.timer.timer = f.timer.timer ∧ f'.timer.timerStop = f.timer.timerStop ∧
      ∀ d, (f.timer.dev d).fsh = true → (f'.timer.dev d).fsh = true := by
  cases h with
  | raise hphase hos htimer => exact Timer.fsh_thread (by simp) (by simp) htimer
  | pass hphase htimer => exact Timer.fsh_thread (by simp) (by simp) htimer
  | detach hphase hos htimer => exact Timer.fsh_thread (by simp) (by simp) htimer
  | work => exact ⟨rfl, rfl, fun _ => id⟩

theorem keeps_ldStep (h : LdStep f f') :
    f'.timer.timer = f.timer.timer ∧ f'.timer.timerStop = f.timer.timerStop ∧
      ∀ d, (f.timer.dev d).fsh = true → (f'.timer.dev d).fsh = true := by
  cases h with
  | raise hphase hos htimer => exact Timer.fsh_thread (by simp) (by simp) htimer
  | pass hphase htimer => exact Timer.fsh_thread (by simp) (by simp) htimer
  | detach hphase hos htimer => exact Timer.fsh_thread (by simp) (by simp) htimer
  | work => exact ⟨rfl, rfl, fun _ => id⟩

theorem Watched.step {a : ClockedAct cfg} (hs : Watched f) (h : Step f a f') : Watched f' := by
  have hcoupled := (hs.coupled.step h).1
  cases a with
  | cpu c => exact hs.of_thread hcoupled (keeps_cpuStep (cpuStep_cases h))
  | loader => exact hs.of_thread hcoupled (keeps_ldStep (ldStep_cases h))
  | timer =>
      obtain ⟨-, htimer⟩ := both_eq_some.mp h
      obtain ⟨hstop, hfsh⟩ := Timer.fsh_timerRoutine htimer
      exact ⟨hcoupled, hs.counted.timerRoutine hs.stopped htimer,
        fun hstopped d => (hfsh d).trans (hs.stopped (hstop ▸ hstopped) d)⟩
  | stop =>
      simp only [Step, Clocked.step] at h
      split at h
      · next hdetached =>
        obtain ⟨-, htimer⟩ := both_eq_some.mp h
        obtain ⟨os, t⟩ := f'
        cases htimer
        exact ⟨hcoupled, hs.counted, fun _ => hs.coupled.fsh_iff.mpr hdetached.symm⟩
      · cases h

theorem watched_of_run {as : List (ClockedAct cfg)} (hrun : Steps Step (init cfg) as f) :
    Watched f := by
  refine hrun.state_invariant ⟨coupled_init cfg, trivial, fun hstop => ?_⟩ fun _ _ _ hs h => hs.step h
  cases hstop

theorem not_ready_of_working {l : Cpu} (h : devOfCpu l.phase = .working) : Os.cpuReady l = false := by
  obtain ⟨phase, proc, timeLeft⟩ := l
  cases phase <;> first | rfl | cases h

theorem not_ready_of_working_ld {l : Loader} (h : devOfLd l.phase = .working) :
    Os.ldReady l = false := by
  obtain ⟨phase, i⟩ := l
  cases phase <;> first | rfl | cases h

/-- A CPU thread can act, unless it waits for the timer or has detached. -/
theorem cpuStep_isSome (hs : Coupled f) (hcons : Os.Conserved f.abs) (hthreads : Os.Threads f.abs)
    (hprio : ∀ p < cfg.numProcesses, cfg.prio p < maxPrio)
    (hact : (f.timer.dev (cpuDev c)).phase = .working ∨
      (f.timer.dev (cpuDev c)).phase = .waiting ∧ (f.timer.dev (cpuDev c)).done = false) :
    ∃ f', f.cpuStep c = some f' := by
  rcases hact with hwork | ⟨hwait, hdone⟩
  · have hphase : devOfCpu (f.os.cpu c).phase = .working := (hs.cpu c).symm.trans hwork
    have hview : f.abs.cpu c = f.os.cpu c := absCpu_of_ne (ne_waiting_of_working hphase)
    have hready : Os.cpuReady (f.abs.cpu c) = false := by rw [hview, not_ready_of_working hphase]
    obtain ⟨s', hs'⟩ := Os.cpuStep_isSome hcons (hthreads.busy c) hprio hready
    have hstep := Os.cpuStep_reframe f.threads c hview f.abs.ld f.abs.time
    rw [show f.threads.reframe f.abs.cpu f.abs.ld f.abs.time = f.abs from rfl, hs'] at hstep
    obtain ⟨os, hos, -⟩ := Option.map_eq_some_iff.mp hstep.symm
    unfold Clocked.cpuStep
    split
    · exact ⟨_, by rw [hos, Timer.step, if_pos hwork]; rfl⟩
    · next hwaiting => exact absurd hwaiting (ne_waiting_of_working hphase)
    · exact ⟨_, by rw [hos, Timer.step, if_pos hwork]; rfl⟩
    · exact ⟨_, by rw [hos]; rfl⟩
  · have hphase := waiting_of_waiting ((hs.cpu c).symm.trans hwait)
    unfold Clocked.cpuStep
    simp only [hphase]
    exact ⟨_, by rw [Timer.step, if_pos ⟨hwait, hdone⟩]; rfl⟩

/-- So can the loader. -/
theorem ldStep_isSome (hs : Coupled f) (hcons : Os.Conserved f.abs)
    (hprio : ∀ p < cfg.numProcesses, cfg.prio p < maxPrio) (htime : f.timer.time.toNat = f.timer.ticks)
    (hact : (f.timer.dev ldDev).phase = .working ∨
      (f.timer.dev ldDev).phase = .waiting ∧ (f.timer.dev ldDev).done = false) :
    ∃ f', f.ldStep = some f' := by
  rcases hact with hwork | ⟨hwait, hdone⟩
  · have hphase : devOfLd f.os.ld.phase = .working := hs.ld.symm.trans hwork
    have hview : f.abs.ld = f.os.ld := absLd_of_ne (ne_waiting_of_working_ld hphase)
    have hready : Os.ldReady f.abs.ld = false := by rw [hview, not_ready_of_working_ld hphase]
    obtain ⟨s', hs'⟩ := Os.ldStep_isSome hcons hprio hready
    have hstep := Os.ldStep_reframe f.threads f.abs.cpu hview htime.symm
    rw [show f.threads.reframe f.abs.cpu f.abs.ld f.timer.ticks = f.abs from rfl, hs'] at hstep
    obtain ⟨os, hos, -⟩ := Option.map_eq_some_iff.mp hstep.symm
    unfold Clocked.ldStep
    split
    · exact ⟨_, by rw [hos, Timer.step, if_pos hwork]; rfl⟩
    · next hwaiting => exact absurd hwaiting (ne_waiting_of_working_ld hphase)
    · exact ⟨_, by rw [hos, Timer.step, if_pos hwork]; rfl⟩
    · exact ⟨_, by rw [hos]; rfl⟩
  · have hphase := waiting_of_waiting_ld (hs.ld.symm.trans hwait)
    unfold Clocked.ldStep
    simp only [hphase]
    exact ⟨_, by rw [Timer.step, if_pos ⟨hwait, hdone⟩]; rfl⟩

/-- **No deadlock.** For any number of CPUs and in every interleaving of the threads with the timer's
critical sections: if the priorities of the processes are levels, and the 64-bit time has not wrapped,
nothing can happen any more (but that `main` stops the timer) only when the timer has exited and all
threads have detached. -/
theorem never_stuck {as : List (ClockedAct cfg)} (hrun : Steps Step (init cfg) as f)
    (hprio : ∀ p < cfg.numProcesses, cfg.prio p < maxPrio) (htime : f.timer.ticks < 2 ^ 64) :
    (∀ a f', Step f a f' → a = .stop) ↔
      f.timer.timer = .exited ∧ f.os.ld.phase = .detached ∧ ∀ c, (f.os.cpu c).phase = .detached := by
  have hs := watched_of_run hrun
  obtain ⟨bs, hbs⟩ := (coupled_of_run hrun).2 htime
  obtain ⟨hcons, -⟩ := Os.conserved_of_steps hbs
  have hthreads := Os.threads_of_steps (hbs.mono fun _ _ _ h => h.2)
  have hnat : f.timer.time.toNat = f.timer.ticks := by
    rw [hs.coupled.good.time_eq, BitVec.toNat_ofNat, Nat.mod_eq_of_lt htime]
  constructor
  · intro hnone
    have htimer : Timer.step f.timer .timer = none := Option.eq_none_iff_forall_ne_some.mpr fun t ht => by
      cases hnone .timer ⟨f.os, t⟩ (both_eq_some.mpr ⟨rfl, ht⟩)
    rcases Timer.blocked_cases htimer with hexited | ⟨i, fsh, event, hi, hcollect, hdone, hfsh⟩
    · have hcounted := hs.counted
      unfold Timer.Counted at hcounted
      rw [hexited] at hcounted
      exact ⟨hexited, hs.coupled.fsh_iff.mp hcounted⟩
    · -- the timer waits for a device, which can act
      have hact := (hs.coupled.good.awaited hi hcollect hdone hfsh).imp_right fun h => And.intro h hdone
      exfalso
      rcases dev_cases (⟨i, hi⟩ : Fin (cfg.numCpus + 1)) with hdev | ⟨c, hdev⟩
      · rw [hdev] at hact
        obtain ⟨f', hf'⟩ := ldStep_isSome hs.coupled hcons hprio hnat
          (hact.imp_right fun h => ⟨h.1, by rw [← hdev]; exact hdone⟩)
        cases hnone .loader f' hf'
      · rw [hdev] at hact
        obtain ⟨f', hf'⟩ := cpuStep_isSome hs.coupled hcons hthreads hprio
          (hact.imp_right fun h => ⟨h.1, by rw [← hdev]; exact hdone⟩)
        cases hnone (.cpu c) f' hf'
  · rintro ⟨hexited, hld, hcpu⟩ a f' hstep
    cases a with
    | stop => rfl
    | timer =>
        obtain ⟨-, htimer⟩ := both_eq_some.mp hstep
        simp [Timer.step, Timer.timerRoutine, hexited] at htimer
    | cpu c =>
        cases cpuStep_cases hstep with
        | raise hphase | pass hphase | detach hphase => cases hphase.symm.trans (hcpu c)
        | work hslot hwaiting hstopped hos =>
            have hthread : (f.threads.cpu c).phase = .detached := hcpu c
            simp [Os.cpuStep, hthread] at hos
    | loader =>
        cases ldStep_cases hstep with
        | raise hphase | pass hphase | detach hphase => cases hphase.symm.trans hld
        | work hslot hwaiting hfinished hos =>
            have hthread : f.threads.ld.phase = .detached := hld
            simp [Os.ldStep, hthread] at hos

/-- A whole run of one CPU and one process of one instruction, in two slots. -/
def wholeRun : List (ClockedAct Os.loneInstruction) :=
  List.replicate 4 .loader ++ List.replicate 5 (.cpu ⟨0, Nat.one_pos⟩) ++ List.replicate 8 .timer ++
    List.replicate 3 .loader ++ List.replicate 5 (.cpu ⟨0, Nat.one_pos⟩) ++ List.replicate 8 .timer

/-- At its end everybody has gone, and nothing is left to do. -/
theorem never_stuck_whole_run :
    ∃ f : Clocked Os.loneInstruction, Steps Step (init Os.loneInstruction) wholeRun f ∧
      f.os.executed 0 = [⟨.calc, 0, 0, 0, 0⟩] ∧ ∀ a f', Step f a f' → a = .stop := by
  have hcheck : (Steps.exec Clocked.step (init Os.loneInstruction) wholeRun).any (fun f => decide
      (f.timer.ticks < 2 ^ 64 ∧ f.os.executed 0 = [⟨.calc, 0, 0, 0, 0⟩] ∧ f.timer.timer = .exited ∧
        f.os.ld.phase = .detached ∧ ∀ c, (f.os.cpu c).phase = .detached)) = true := by
    decide +kernel
  obtain ⟨f, hf, hfacts⟩ := (Option.any_eq_true _ _).mp hcheck
  obtain ⟨htime, hexecuted, hend⟩ := of_decide_eq_true hfacts
  have hrun : Steps Step (init Os.loneInstruction) wholeRun f := Steps.of_exec hf
  exact ⟨f, hrun, hexecuted, (never_stuck hrun (fun _ _ => show 70 < maxPrio by decide) htime).mpr hend⟩

/-! ## A slot is bounded -/

/-- How many actions a CPU thread can do until it waits or has detached. -/
def restCpu : CpuPhase → Nat
  | .check => 8
  | .putReady => 7
  | .putMlq => 6
  | .getNext => 5
  | .recheck => 4
  | .run => 3
  | .exec _ => 2
  | .slot | .stopped => 1
  | .waiting | .detached => 0

/-- The same for the loader thread. -/
def restLd : LdPhase → Nat
  | .head => 4
  | .addRunning => 3
  | .addMlq => 2
  | .slot | .finished => 1
  | .waiting | .detached => 0

/-- How many sections the timer has before it until the time has been incremented, with `n` devices. -/
def restTimer (n : Nat) : Timer.TimerPhase → Nat
  | .release i _ _ => (n - i) + n + 4
  | .head => n + 3
  | .collect i _ _ => (n - i) + 2
  | .advance _ _ => 1
  | .exited => 0

/-- A CPU that has been let go has all of its slot before it. -/
def leftCpu (t : Timer.State (cfg.numCpus + 1)) (c : Fin cfg.numCpus) (l : Cpu) : Nat :=
  restCpu l.phase + if l.phase = .waiting ∧ Released t (cpuDev c) then 9 else 0

/-- So has the loader. -/
def leftLd (t : Timer.State (cfg.numCpus + 1)) (l : Loader) : Nat :=
  restLd l.phase + if l.phase = .waiting ∧ Released t ldDev then 5 else 0

/-- How many actions can be done until the time has been incremented. -/
def left (f : Clocked cfg) : Nat :=
  (∑ c, leftCpu f.timer c (f.os.cpu c)) + leftLd f.timer f.os.ld +
    restTimer (cfg.numCpus + 1) f.timer.timer

theorem restCpu_cpuStep {s s' : Os cfg} (h : Os.CpuStep s c s') :
    restCpu (s'.cpu c).phase + 1 ≤ restCpu (s.cpu c).phase := by
  cases h with
  | @idleGet g hphase hproc hget =>
      rw [hphase]
      simp only [Os.setCpu_cpu, Function.update_self]
      split <;> simp [restCpu]
  | finish hphase | expire hphase | resume hphase | putReady hphase | putMlq hphase | nextGet hphase
  | exit hphase | skip hphase | dispatch hphase | runNothing hphase | fetch hphase | exec hphase
  | slot hphase | detach hphase =>
      rw [hphase]
      simp [restCpu]

theorem restLd_ldStep {s s' : Os cfg} (h : Os.LdStep s s') :
    restLd s'.ld.phase + 1 ≤ restLd s.ld.phase := by
  cases h with
  | early hphase | start hphase | setDone hphase | addRunning hphase | addMlq hphase | slot hphase
  | detach hphase =>
      rw [hphase]
      simp [restLd]

/-- A section of the timer is one less before it, or the increment. -/
theorem restTimer_step {n : Nat} {t t' : Timer.State n} (h : Timer.step t .timer = some t') :
    (t'.ticks = t.ticks ∧ restTimer n t'.timer + 1 ≤ restTimer n t.timer) ∨
      (t'.ticks = t.ticks + 1 ∧ restTimer n t'.timer = 2 * n + 4 ∧ restTimer n t.timer = 1) := by
  simp only [Timer.step, Timer.timerRoutine] at h
  split at h
  · next htimer =>
    rw [htimer]
    split at h <;> cases h <;> exact .inl ⟨rfl, by simp [restTimer]⟩
  · next i fsh event htimer =>
    rw [htimer]
    split at h
    · next hi =>
      split at h
      · cases h
        exact .inl ⟨rfl, by simp only [restTimer]; omega⟩
      · cases h
    · cases h
      exact .inl ⟨rfl, by simp only [restTimer]; omega⟩
  · next fsh event htimer =>
    rw [htimer]
    cases h
    exact .inr ⟨rfl, by simp only [restTimer]; omega, rfl⟩
  · next i fsh event htimer =>
    rw [htimer]
    split at h
    · next hi =>
      cases h
      exact .inl ⟨rfl, by simp only [restTimer]; omega⟩
    · split at h <;> cases h <;> exact .inl ⟨rfl, by simp only [restTimer]; omega⟩
  · cases h

/-- What the timer is doing with the other devices does not depend on what this one does. -/
theorem released_others {n : Nat} {t t' : Timer.State n} {d e : Fin n} {a : Timer.Act n}
    (ha : a = .raise d ∨ a = .pass d ∨ a = .detach d) (h : Timer.step t a = some t') (hne : e ≠ d) :
    Released t' e ↔ Released t e := by
  rcases ha with rfl | rfl | rfl
  · obtain ⟨-, rfl⟩ := raise_cases h
    exact released_update hne
  · obtain ⟨-, rfl⟩ := pass_cases h
    exact released_update hne
  · obtain rfl := detach_cases h
    exact released_update hne

theorem leftCpu_of_ne {t : Timer.State (cfg.numCpus + 1)} {l : Cpu} (h : l.phase ≠ .waiting) :
    leftCpu t c l = restCpu l.phase := by
  unfold leftCpu
  rw [if_neg fun hw => h hw.1, Nat.add_zero]

theorem leftLd_of_ne {t : Timer.State (cfg.numCpus + 1)} {l : Loader} (h : l.phase ≠ .waiting) :
    leftLd t l = restLd l.phase := by
  unfold leftLd
  rw [if_neg fun hw => h hw.1, Nat.add_zero]

/-- An action of a CPU thread is one less for it, and the others keep what they have. -/
theorem left_cpuStep (hs : Coupled f) (h : CpuStep f c f') : left f' + 1 ≤ left f := by
  have hsum : leftCpu f'.timer c (f'.os.cpu c) + 1 ≤ leftCpu f.timer c (f.os.cpu c) →
      (∀ d, d ≠ c → f'.os.cpu d = f.os.cpu d) → f'.os.ld = f.os.ld →
      (∀ e, e ≠ cpuDev c → (Released f'.timer e ↔ Released f.timer e)) →
      left f' + 1 ≤ left f := by
    intro hself hcpu hld hreleased
    have htotal := FamilySum.sum_add_le (f := fun d => leftCpu f'.timer d (f'.os.cpu d))
      (g := fun d => leftCpu f.timer d (f.os.cpu d)) hself fun d hne => by
        simp only [leftCpu, hcpu d hne, hreleased _ (cpuDev_inj.not.mpr hne)]
    have hloader : leftLd f'.timer f'.os.ld = leftLd f.timer f.os.ld := by
      simp only [leftLd, hld, hreleased _ (cpuDev_ne_ldDev c).symm]
    unfold left
    rw [hloader, (keeps_cpuStep h).1]
    omega
  cases h with
  | raise hslot hos htimer =>
      have hstep := Os.cpuStep_cases hos
      obtain ⟨hcpu, hld⟩ := others_cpuStep hos
      refine hsum ?_ hcpu hld fun e hne => released_others (.inl rfl) htimer hne
      obtain ⟨hwork, ht⟩ := raise_cases htimer
      have hnot := not_released_raise hs.good hwork
      have hbefore : leftCpu f.timer c (f.os.cpu c) = 1 := by
        rw [leftCpu_of_ne (by rw [hslot]; decide), hslot]
        rfl
      have hafter : leftCpu f'.timer c (f'.os.cpu c) = 0 := by
        rw [leftCpu, slot_cpuStep hstep hslot, ht, if_neg fun h => hnot h.2]
        rfl
      omega
  | pass hwaiting htimer =>
      refine hsum ?_ (fun d hne => Function.update_of_ne hne _ _) rfl
        fun e hne => released_others (.inr (.inl rfl)) htimer hne
      have hcheck : (Os.releaseCpu (f.os.cpu c)).phase = .check := by
        rw [show Os.releaseCpu (f.os.cpu c) = _ from if_pos hwaiting]
      rw [Os.setCpu_cpu, Function.update_self, leftCpu_of_ne (by rw [hcheck]; decide), hcheck, leftCpu,
        hwaiting, if_pos ⟨rfl, .inl (pass_cases htimer).1⟩]
      rfl
  | detach hstopped hos htimer =>
      have hstep := Os.cpuStep_cases hos
      obtain ⟨hcpu, hld⟩ := others_cpuStep hos
      refine hsum ?_ hcpu hld fun e hne => released_others (.inr (.inr rfl)) htimer hne
      have hbefore : leftCpu f.timer c (f.os.cpu c) = _ := leftCpu_of_ne (by rw [hstopped]; decide)
      have hafter : leftCpu f'.timer c (f'.os.cpu c) = _ :=
        leftCpu_of_ne (by rw [stopped_cpuStep hstep hstopped]; decide)
      rw [hbefore, hafter]
      exact restCpu_cpuStep (s := f.threads) hstep
  | work hslot hwaiting hstopped hos =>
      have hstep := Os.cpuStep_cases hos
      obtain ⟨hcpu, hld⟩ := others_cpuStep hos
      refine hsum ?_ hcpu hld fun _ _ => Iff.rfl
      rw [leftCpu_of_ne hwaiting,
        leftCpu_of_ne (ne_waiting_of_working (working_cpuStep hstep hslot hstopped).2)]
      exact restCpu_cpuStep (s := f.threads) hstep

/-- The same for the loader. -/
theorem left_ldStep (hs : Coupled f) (h : LdStep f f') : left f' + 1 ≤ left f := by
  have hsum : leftLd f'.timer f'.os.ld + 1 ≤ leftLd f.timer f.os.ld → f'.os.cpu = f.os.cpu →
      (∀ e, e ≠ ldDev → (Released f'.timer e ↔ Released f.timer e)) → left f' + 1 ≤ left f := by
    intro hself hcpu hreleased
    have htotal : (∑ c, leftCpu f'.timer c (f'.os.cpu c)) = ∑ c, leftCpu f.timer c (f.os.cpu c) :=
      Finset.sum_congr rfl fun c _ => by
        simp only [leftCpu, hcpu, hreleased _ (cpuDev_ne_ldDev c)]
    unfold left
    rw [htotal, (keeps_ldStep h).1]
    omega
  cases h with
  | raise hslot hos htimer =>
      have hstep := Os.ldStep_cases hos
      refine hsum ?_ (Os.frame_ldStep hstep).1 fun e hne => released_others (.inl rfl) htimer hne
      obtain ⟨hwork, ht⟩ := raise_cases htimer
      have hnot := not_released_raise hs.good hwork
      have hbefore : leftLd f.timer f.os.ld = 1 := by
        rw [leftLd_of_ne (by rw [hslot]; decide), hslot]
        rfl
      have hafter : leftLd f'.timer f'.os.ld = 0 := by
        rw [leftLd, slot_ldStep hstep hslot, ht, if_neg fun h => hnot h.2]
        rfl
      omega
  | pass hwaiting htimer =>
      refine hsum ?_ rfl fun e hne => released_others (.inr (.inl rfl)) htimer hne
      have hhead : (Os.releaseLd f.os.ld).phase = .head := by
        rw [show Os.releaseLd f.os.ld = _ from if_pos hwaiting]
      rw [leftLd_of_ne (by rw [hhead]; decide), hhead, leftLd, hwaiting,
        if_pos ⟨rfl, .inl (pass_cases htimer).1⟩]
      rfl
  | detach hfinished hos htimer =>
      have hstep := Os.ldStep_cases hos
      refine hsum ?_ (Os.frame_ldStep hstep).1 fun e hne => released_others (.inr (.inr rfl)) htimer hne
      have hbefore : leftLd f.timer f.os.ld = _ := leftLd_of_ne (by rw [hfinished]; decide)
      have hafter : leftLd f'.timer f'.os.ld = _ :=
        leftLd_of_ne (by rw [finished_ldStep hstep hfinished]; decide)
      rw [hbefore, hafter]
      exact restLd_ldStep (s := f.threads) hstep
  | work hslot hwaiting hfinished hos =>
      have hstep := Os.ldStep_cases hos
      refine hsum ?_ (Os.frame_ldStep hstep).1 fun _ _ => Iff.rfl
      rw [leftLd_of_ne hwaiting,
        leftLd_of_ne (ne_waiting_of_working_ld (working_ldStep hstep hslot hfinished).2)]
      exact restLd_ldStep (s := f.threads) hstep

/-- A section of the timer is one less, or lets every thread go. -/
theorem left_timerStep (hs : Coupled f) {t : Timer.State (cfg.numCpus + 1)}
    (h : Timer.step f.timer .timer = some t) :
    left ⟨f.os, t⟩ + 1 + 11 * (cfg.numCpus + 1) * f.timer.ticks ≤
      left f + 11 * (cfg.numCpus + 1) * t.ticks := by
  have hkind := (timer_cases hs.good h).2
  rcases restTimer_step h with ⟨hticks, hrest⟩ | ⟨hticks, hrest', hrest⟩
  · have hreleased := (hkind.resolve_right fun hinc => by omega).2
    have hcpu : ∀ c, leftCpu t c (f.os.cpu c) = leftCpu f.timer c (f.os.cpu c) := fun c => by
      by_cases hwaiting : (f.os.cpu c).phase = .waiting
      · simp only [leftCpu, hreleased (cpuDev c) (by rw [hs.cpu c, hwaiting]; rfl)]
      · rw [leftCpu_of_ne hwaiting, leftCpu_of_ne hwaiting]
    have hld : leftLd t f.os.ld = leftLd f.timer f.os.ld := by
      by_cases hwaiting : f.os.ld.phase = .waiting
      · simp only [leftLd, hreleased ldDev (by rw [hs.ld, hwaiting]; rfl)]
      · rw [leftLd_of_ne hwaiting, leftLd_of_ne hwaiting]
    unfold left
    simp only [hcpu, hld, hticks]
    omega
  · have hcpu : (∑ c, leftCpu t c (f.os.cpu c)) ≤
        (∑ c, leftCpu f.timer c (f.os.cpu c)) + 9 * cfg.numCpus := by
      calc (∑ c, leftCpu t c (f.os.cpu c))
          ≤ ∑ c, (leftCpu f.timer c (f.os.cpu c) + 9) := by
            refine Finset.sum_le_sum fun c _ => ?_
            unfold leftCpu
            split <;> split <;> omega
        _ = (∑ c, leftCpu f.timer c (f.os.cpu c)) + 9 * cfg.numCpus := by
            rw [Finset.sum_add_distrib, Finset.sum_const_nat fun _ _ => rfl, Finset.card_univ,
              Fintype.card_fin, Nat.mul_comm 9]
    have hld : leftLd t f.os.ld ≤ leftLd f.timer f.os.ld + 5 := by
      unfold leftLd
      split <;> split <;> omega
    have hslot : 11 * (cfg.numCpus + 1) * t.ticks =
        11 * (cfg.numCpus + 1) * f.timer.ticks + 11 * (cfg.numCpus + 1) := by
      rw [hticks, Nat.mul_succ]
    unfold left
    simp only
    omega

theorem left_step {a : ClockedAct cfg} (hs : Coupled f) (h : Step f a f') :
    left f' + (if a.isStop then 0 else 1) + 11 * (cfg.numCpus + 1) * f.timer.ticks ≤
      left f + 11 * (cfg.numCpus + 1) * f'.timer.ticks := by
  cases a with
  | cpu c =>
      have hleft := left_cpuStep hs (cpuStep_cases h)
      rw [(hs.cpuStep (cpuStep_cases h)).2.1]
      simpa [ClockedAct.isStop] using hleft
  | loader =>
      have hleft := left_ldStep hs (ldStep_cases h)
      rw [(hs.ldStep (ldStep_cases h)).2.1]
      simpa [ClockedAct.isStop] using hleft
  | timer =>
      obtain ⟨hos, htimer⟩ := both_eq_some.mp h
      obtain ⟨os, t⟩ := f'
      cases hos
      exact left_timerStep hs htimer
  | stop =>
      simp only [Step, Clocked.step] at h
      split at h
      · obtain ⟨hos, htimer⟩ := both_eq_some.mp h
        obtain ⟨os, t⟩ := f'
        cases hos
        cases htimer
        exact le_rfl
      · cases h

theorem left_init_le (cfg : Config) : left (init cfg) ≤ 11 * (cfg.numCpus + 1) := by
  have hone : ∀ c, leftCpu (init cfg).timer c ((init cfg).os.cpu c) = 8 := fun c =>
    leftCpu_of_ne (l := ⟨.check, none, 0⟩) (by simp)
  have hcpu : (∑ c, leftCpu (init cfg).timer c ((init cfg).os.cpu c)) = cfg.numCpus * 8 := by
    rw [Finset.sum_const_nat fun c _ => hone c, Finset.card_univ, Fintype.card_fin]
  have hld : leftLd (init cfg).timer (init cfg).os.ld = 4 := leftLd_of_ne (by simp [init, Os.init])
  have htimer : restTimer (cfg.numCpus + 1) (init cfg).timer.timer = cfg.numCpus + 4 := rfl
  unfold left
  omega

/-- What the threads and the timer have done and can still do before the next increment. -/
theorem countP_add_left_le {as : List (ClockedAct cfg)} (hrun : Steps Step (init cfg) as f) :
    as.countP (fun a => !a.isStop) + left f ≤ 11 * (cfg.numCpus + 1) * (f.timer.ticks + 1) := by
  obtain ⟨-, hle⟩ := hrun.countP_add_rank_le (fun a => !a.isStop)
    (fun f => (left f : Int) - (11 * (cfg.numCpus + 1) * f.timer.ticks : Nat)) Coupled
    (coupled_init cfg) fun f a f' hs hstep => by
      refine ⟨(hs.step hstep).1, ?_⟩
      have hleft := left_step hs hstep
      generalize 11 * (cfg.numCpus + 1) * f.timer.ticks = x at hleft ⊢
      generalize 11 * (cfg.numCpus + 1) * f'.timer.ticks = y at hleft ⊢
      cases hstop : a.isStop <;> simp [hstop] at hleft ⊢ <;> omega
  have hinit := left_init_le cfg
  have hzero : (init cfg).timer.ticks = 0 := rfl
  simp only [hzero, Nat.mul_zero] at hle
  rw [Nat.mul_succ]
  omega

/-- **Time goes on.** However the threads and the timer take turns, every thread and its device cost at
most eleven actions in a slot: a run of more than `11 * (numCpus + 1) * k` actions, the stop by `main` not
counted, has incremented the time `k` times. -/
theorem slot_bounded {as : List (ClockedAct cfg)} (hrun : Steps Step (init cfg) as f) :
    as.countP (fun a => !a.isStop) ≤ 11 * (cfg.numCpus + 1) * (f.timer.ticks + 1) :=
  Nat.le_trans (Nat.le_add_right _ _) (countP_add_left_le hrun)

/-- Two slots with one CPU. -/
theorem slot_bounded_whole_run :
    ∃ f : Clocked Os.loneInstruction, Steps Step (init Os.loneInstruction) wholeRun f ∧
      wholeRun.countP (fun a => !a.isStop) ≤
        11 * (Os.loneInstruction.numCpus + 1) * (f.timer.ticks + 1) := by
  obtain ⟨f, hf, -⟩ := (Option.any_eq_true (fun _ => true) _).mp
    (show (Steps.exec Clocked.step (init Os.loneInstruction) wholeRun).any (fun _ => true) = true by
      decide +kernel)
  have hrun : Steps Step (init Os.loneInstruction) wholeRun f := Steps.of_exec hf
  exact ⟨f, hrun, slot_bounded hrun⟩

end Clocked

end Ossim
