import Ossim.Os.Conservation
import Ossim.Timer.LockStep

/-!
# The threads and the timer's own code (`os.c`, `timer.c`)

In `Os` the timer is one action, `tick`, which is possible when every thread waits or has detached, and
lets all of them go. In `Clocked` it is the code of `timer.c`: the timer goes through the devices twice,
`next_slot` is two critical sections, and the threads that the timer has released go on while it is still
busy with the others.

`abs` is what a state of it looks like in `Os`: the tick happens when `_time` is incremented, and a thread
that waits has been let go if its flag is down or the timer is about to lower it. Every action is one of
`Os` between these views, or changes nothing there (`Coupled.step`), so that what is proved about `Os` is true
of the two together (`threads_refine`).

`ClockedAct` has no removals of `killall`: an instruction changes nothing here but the `pc` of its process,
so this is about runs in which no process calls `killall`.
-/

namespace Ossim

/-- The threads and the timer. The field `time` of `os` is the time that a thread has read last. -/
structure Clocked (cfg : Config) where
  os : Os cfg
  timer : Timer.State (cfg.numCpus + 1)

/-- An action of a thread, or of the timer. `stop` is the assignment of `stop_timer` in `main`. -/
inductive ClockedAct (cfg : Config) where
  | cpu (c : Fin cfg.numCpus)
  | loader
  | timer
  | stop

namespace Os

variable {cfg : Config}

/-- Other local variables of the threads, and another time. -/
def reframe (s : Os cfg) (cpu : Fin cfg.numCpus → Cpu) (ld : Loader) (time : Nat) : Os cfg :=
  { s with cpu := cpu, ld := ld, time := time }

theorem enqueueLevel_reframe (s : Os cfg) (cpu : Fin cfg.numCpus → Cpu) (ld : Loader) (time p : Nat) :
    (s.reframe cpu ld time).enqueueLevel p =
      (s.enqueueLevel p).map fun t => t.reframe cpu ld time := by
  have hfull : (s.reframe cpu ld time).levelFull p = s.levelFull p := rfl
  unfold enqueueLevel
  rw [hfull]
  simp only [reframe]
  cases s.sched.enqueueMlq cfg.prio p <;> rfl

/-- A CPU looks at its own variables only, and not at the time. -/
theorem cpuStep_reframe (s : Os cfg) (c : Fin cfg.numCpus) {cpu : Fin cfg.numCpus → Cpu}
    (h : cpu c = s.cpu c) (ld : Loader) (time : Nat) :
    (s.reframe cpu ld time).cpuStep c =
      (s.cpuStep c).map fun t => t.reframe (Function.update cpu c (t.cpu c)) ld time := by
  have hcpu : (s.reframe cpu ld time).cpu c = s.cpu c := h
  unfold cpuStep
  simp only [hcpu, enqueueLevel_reframe]
  split
  · simp only [reframe, setCpu]
    cases s.sched.getMlqProc cfg.prio <;> simp
  · next p hphase hproc =>
    simp only [reframe, setCpu]
    by_cases hpc : s.pc p = (cfg.code p).length
    · simp [hpc]
    · by_cases htime : (s.cpu c).timeLeft = 0 <;> simp [hpc, htime]
  · simp [reframe, setCpu]
  · next p hphase hproc =>
    simp only [Option.map_map]
    cases s.enqueueLevel p <;> simp [reframe, setCpu]
  · simp only [reframe, setCpu]
    cases s.sched.getMlqProc cfg.prio <;> simp
  · simp only [reframe, setCpu]
    by_cases hdone : s.done = true <;> simp [hdone]
  · simp [reframe, setCpu]
  · next p hphase hproc =>
    simp only [reframe, setCpu]
    cases (cfg.code p)[s.pc p]? <;> simp
  · simp [reframe, setCpu]
  · simp [reframe, setCpu]
  · simp [reframe, setCpu]
  · rfl

/-- The loader looks at its own variables and the time. -/
theorem ldStep_reframe (s : Os cfg) (cpu : Fin cfg.numCpus → Cpu) {ld : Loader} {time : Nat}
    (hld : ld = s.ld) (htime : time = s.time) :
    (s.reframe cpu ld time).ldStep = (s.ldStep).map fun t => t.reframe cpu t.ld time := by
  subst hld htime
  have hld : (s.reframe cpu s.ld s.time).ld = s.ld := rfl
  unfold ldStep
  simp only [hld, enqueueLevel_reframe]
  split
  · simp only [reframe]
    by_cases hi : s.ld.i < cfg.numProcesses
    · by_cases htime : s.time < cfg.startTime s.ld.i <;> simp [hi, htime]
    · simp [hi]
  · simp [reframe]
  · simp only [Option.map_map]
    cases s.enqueueLevel s.ld.i <;> simp [reframe, Function.comp_def]
  · simp [reframe]
  · rfl
  · simp [reframe]
  · rfl

end Os

namespace Clocked

variable {cfg : Config}

/-- The place of a CPU in `dev_list`. `attach_event` adds at the head, and the loader comes last. -/
def cpuDev (c : Fin cfg.numCpus) : Fin (cfg.numCpus + 1) := (Fin.rev c).succ

/-- The place of the loader. -/
def ldDev : Fin (cfg.numCpus + 1) := 0

/-- The threads, with what `current_time` returns. -/
def threads (f : Clocked cfg) : Os cfg := { f.os with time := f.timer.time.toNat }

/-- An action of a thread, in a critical section of its device. -/
def both (os : Option (Os cfg)) (timer : Option (Timer.State (cfg.numCpus + 1))) :
    Option (Clocked cfg) :=
  os.bind fun os => timer.map fun timer => ⟨os, timer⟩

/-- One action of a CPU thread. -/
def cpuStep (f : Clocked cfg) (c : Fin cfg.numCpus) : Option (Clocked cfg) :=
  match (f.os.cpu c).phase with
  | .slot => both (f.threads.cpuStep c) (Timer.step f.timer (.raise (cpuDev c)))
  | .waiting =>
    both (some (f.os.setCpu c (Os.releaseCpu (f.os.cpu c)))) (Timer.step f.timer (.pass (cpuDev c)))
  | .stopped => both (f.threads.cpuStep c) (Timer.step f.timer (.detach (cpuDev c)))
  | _ => both (f.threads.cpuStep c) (some f.timer)

/-- One action of the loader thread. -/
def ldStep (f : Clocked cfg) : Option (Clocked cfg) :=
  match f.os.ld.phase with
  | .slot => both f.threads.ldStep (Timer.step f.timer (.raise ldDev))
  | .waiting =>
    both (some { f.os with ld := Os.releaseLd f.os.ld }) (Timer.step f.timer (.pass ldDev))
  | .finished => both f.threads.ldStep (Timer.step f.timer (.detach ldDev))
  | _ => both f.threads.ldStep (some f.timer)

/-- One action. `main` stops the timer when it has joined the threads. -/
def step (f : Clocked cfg) : ClockedAct cfg → Option (Clocked cfg)
  | .cpu c => f.cpuStep c
  | .loader => f.ldStep
  | .timer => both (some f.os) (Timer.step f.timer .timer)
  | .stop =>
    if (∀ c, (f.os.cpu c).phase = .detached) ∧ f.os.ld.phase = .detached then
      both (some f.os) (Timer.step f.timer .stop)
    else none

/-- The step relation. -/
def Step (f : Clocked cfg) (a : ClockedAct cfg) (f' : Clocked cfg) : Prop := f.step a = some f'

/-- The state when `main` has started the timer and created the threads. -/
def init (cfg : Config) : Clocked cfg := ⟨Os.init cfg, Timer.init (cfg.numCpus + 1)⟩

/-! ## What one action of a thread is -/

theorem both_eq_some {x : Option (Os cfg)} {y : Option (Timer.State (cfg.numCpus + 1))}
    {f' : Clocked cfg} : both x y = some f' ↔ x = some f'.os ∧ y = some f'.timer := by
  unfold both
  cases x <;> cases y <;> simp
  constructor
  · rintro rfl
    exact ⟨rfl, rfl⟩
  · rintro ⟨rfl, rfl⟩
    rfl

/-- The branches of `cpuStep`: the calls of the timer, and everything else. -/
inductive CpuStep (f : Clocked cfg) (c : Fin cfg.numCpus) : Clocked cfg → Prop where
  | raise {f' : Clocked cfg} (hphase : (f.os.cpu c).phase = .slot)
      (hos : f.threads.cpuStep c = some f'.os)
      (htimer : Timer.step f.timer (.raise (cpuDev c)) = some f'.timer) : CpuStep f c f'
  | pass {t : Timer.State (cfg.numCpus + 1)} (hphase : (f.os.cpu c).phase = .waiting)
      (htimer : Timer.step f.timer (.pass (cpuDev c)) = some t) :
      CpuStep f c ⟨f.os.setCpu c (Os.releaseCpu (f.os.cpu c)), t⟩
  | detach {f' : Clocked cfg} (hphase : (f.os.cpu c).phase = .stopped)
      (hos : f.threads.cpuStep c = some f'.os)
      (htimer : Timer.step f.timer (.detach (cpuDev c)) = some f'.timer) : CpuStep f c f'
  | work {os : Os cfg} (hslot : (f.os.cpu c).phase ≠ .slot) (hwaiting : (f.os.cpu c).phase ≠ .waiting)
      (hstopped : (f.os.cpu c).phase ≠ .stopped) (hos : f.threads.cpuStep c = some os) :
      CpuStep f c ⟨os, f.timer⟩

theorem cpuStep_cases {f f' : Clocked cfg} {c : Fin cfg.numCpus} (h : f.cpuStep c = some f') :
    CpuStep f c f' := by
  unfold cpuStep at h
  split at h
  · next hslot =>
    obtain ⟨hos, htimer⟩ := both_eq_some.mp h
    exact .raise hslot hos htimer
  · next hwaiting =>
    obtain ⟨hos, htimer⟩ := both_eq_some.mp h
    obtain ⟨os, t⟩ := f'
    obtain rfl : os = f.os.setCpu c (Os.releaseCpu (f.os.cpu c)) := (Option.some.inj hos).symm
    exact .pass hwaiting htimer
  · next hstopped =>
    obtain ⟨hos, htimer⟩ := both_eq_some.mp h
    exact .detach hstopped hos htimer
  · next hslot hwaiting hstopped =>
    obtain ⟨hos, htimer⟩ := both_eq_some.mp h
    obtain ⟨os, t⟩ := f'
    obtain rfl : t = f.timer := (Option.some.inj htimer).symm
    exact .work hslot hwaiting hstopped hos

/-- The branches of `ldStep`. -/
inductive LdStep (f : Clocked cfg) : Clocked cfg → Prop where
  | raise {f' : Clocked cfg} (hphase : f.os.ld.phase = .slot) (hos : f.threads.ldStep = some f'.os)
      (htimer : Timer.step f.timer (.raise ldDev) = some f'.timer) : LdStep f f'
  | pass {t : Timer.State (cfg.numCpus + 1)} (hphase : f.os.ld.phase = .waiting)
      (htimer : Timer.step f.timer (.pass ldDev) = some t) :
      LdStep f ⟨{ f.os with ld := Os.releaseLd f.os.ld }, t⟩
  | detach {f' : Clocked cfg} (hphase : f.os.ld.phase = .finished)
      (hos : f.threads.ldStep = some f'.os)
      (htimer : Timer.step f.timer (.detach ldDev) = some f'.timer) : LdStep f f'
  | work {os : Os cfg} (hslot : f.os.ld.phase ≠ .slot) (hwaiting : f.os.ld.phase ≠ .waiting)
      (hfinished : f.os.ld.phase ≠ .finished) (hos : f.threads.ldStep = some os) :
      LdStep f ⟨os, f.timer⟩

theorem ldStep_cases {f f' : Clocked cfg} (h : f.ldStep = some f') : LdStep f f' := by
  unfold ldStep at h
  split at h
  · next hslot =>
    obtain ⟨hos, htimer⟩ := both_eq_some.mp h
    exact .raise hslot hos htimer
  · next hwaiting =>
    obtain ⟨hos, htimer⟩ := both_eq_some.mp h
    obtain ⟨os, t⟩ := f'
    obtain rfl : os = { f.os with ld := Os.releaseLd f.os.ld } := (Option.some.inj hos).symm
    exact .pass hwaiting htimer
  · next hfinished =>
    obtain ⟨hos, htimer⟩ := both_eq_some.mp h
    exact .detach hfinished hos htimer
  · next hslot hwaiting hfinished =>
    obtain ⟨hos, htimer⟩ := both_eq_some.mp h
    obtain ⟨os, t⟩ := f'
    obtain rfl : t = f.timer := (Option.some.inj htimer).symm
    exact .work hslot hwaiting hfinished hos

/-! ## The view of `Os` -/

/-- In the second loop the timer is not past the device yet. -/
def releases (d : Nat) : Timer.TimerPhase → Bool
  | .release i _ _ => decide (i ≤ d)
  | _ => false

/-- The timer has let a waiting thread go, or is about to lower its flag. -/
def Released {n : Nat} (t : Timer.State n) (d : Fin n) : Prop :=
  (t.dev d).done = false ∨ releases d t.timer = true

instance {n : Nat} (t : Timer.State n) (d : Fin n) : Decidable (Released t d) :=
  inferInstanceAs (Decidable (_ ∨ _))

/-- A CPU thread as `Os` sees it. -/
def absCpu (t : Timer.State (cfg.numCpus + 1)) (c : Fin cfg.numCpus) (l : Cpu) : Cpu :=
  if Released t (cpuDev c) then Os.releaseCpu l else l

/-- The loader as `Os` sees it. -/
def absLd (t : Timer.State (cfg.numCpus + 1)) (l : Loader) : Loader :=
  if Released t ldDev then Os.releaseLd l else l

/-- The state as `Os` sees it. -/
def abs (f : Clocked cfg) : Os cfg :=
  f.os.reframe (fun c => absCpu f.timer c (f.os.cpu c)) (absLd f.timer f.os.ld) f.timer.ticks

/-- The device of a CPU thread. -/
def devOfCpu : CpuPhase → Timer.DevPhase
  | .waiting => .waiting
  | .detached => .gone
  | _ => .working

/-- The device of the loader thread. -/
def devOfLd : LdPhase → Timer.DevPhase
  | .waiting => .waiting
  | .detached => .gone
  | _ => .working

/-- The devices are where their threads are. -/
structure Coupled (f : Clocked cfg) : Prop where
  good : Timer.Good f.timer
  cpu : ∀ c, (f.timer.dev (cpuDev c)).phase = devOfCpu (f.os.cpu c).phase
  ld : (f.timer.dev ldDev).phase = devOfLd f.os.ld.phase

theorem coupled_init (cfg : Config) : Coupled (init cfg) := ⟨Timer.good_init _, fun _ => rfl, rfl⟩

theorem cpuDev_inj {c d : Fin cfg.numCpus} : cpuDev c = cpuDev d ↔ c = d := by
  unfold cpuDev
  rw [Fin.succ_inj, Fin.rev_inj]

theorem cpuDev_ne_ldDev (c : Fin cfg.numCpus) : cpuDev c ≠ ldDev := Fin.succ_ne_zero _

theorem absCpu_of_ne {t : Timer.State (cfg.numCpus + 1)} {c : Fin cfg.numCpus} {l : Cpu}
    (h : l.phase ≠ .waiting) : absCpu t c l = l := by
  unfold absCpu
  rw [show Os.releaseCpu l = l from if_neg h, ite_self]

theorem absLd_of_ne {t : Timer.State (cfg.numCpus + 1)} {l : Loader} (h : l.phase ≠ .waiting) :
    absLd t l = l := by
  unfold absLd
  rw [show Os.releaseLd l = l from if_neg h, ite_self]

/-! ## What the timer does -/

section timer

variable {n : Nat} {t t' : Timer.State n} {d e : Fin n} {x : Timer.Device}

/-- The action of one device makes no difference to the others. -/
theorem released_update (hne : e ≠ d) :
    Released { t with dev := Function.update t.dev d x } e ↔ Released t e := by
  unfold Released
  simp only [Function.update_of_ne hne]

theorem raise_cases (h : Timer.step t (.raise d) = some t') :
    (t.dev d).phase = .working ∧
      t' = { t with dev := Function.update t.dev d { t.dev d with done := true, phase := .waiting } } := by
  simp only [Timer.step] at h
  split at h
  · next hphase => exact ⟨hphase, (Option.some.inj h).symm⟩
  · cases h

theorem pass_cases (h : Timer.step t (.pass d) = some t') :
    (t.dev d).done = false ∧
      t' = { t with
        dev := Function.update t.dev d
          { t.dev d with phase := .working, completed := (t.dev d).completed + 1 } } := by
  simp only [Timer.step] at h
  split at h
  · next hphase => exact ⟨hphase.2, (Option.some.inj h).symm⟩
  · cases h

theorem detach_cases (h : Timer.step t (.detach d) = some t') :
    t' = { t with dev := Function.update t.dev d { t.dev d with fsh := true, phase := .gone } } := by
  simp only [Timer.step] at h
  split at h
  · exact (Option.some.inj h).symm
  · cases h

/-- A device that has just raised its flag is not let go by the round that is under way. -/
theorem not_released_raise (ht : Timer.Good t) (hwork : (t.dev d).phase = .working) :
    ¬ Released { t with
      dev := Function.update t.dev d { t.dev d with done := true, phase := .waiting } } d := by
  rintro (hdone | hreleases)
  · simp at hdone
  · have hfits := ht.fits d (Timer.not_fsh_of_phase ht hwork (by simp))
    cases htimer : t.timer with
    | release i fsh event =>
        simp only [htimer, releases, decide_eq_true_eq] at hreleases
        simp only [htimer, Timer.Fits, if_neg (Nat.not_lt.mpr hreleases)] at hfits
        obtain ⟨t', -, hheld⟩ := hfits
        exact hheld.stuck (.inl hwork)
    | head | collect | advance | exited =>
        simp only [htimer] at hreleases
        cases hreleases

/-- A section of the timer, for the view of `Os`: the increment, when all devices are held or gone, and
everything else, which does not show. -/
theorem timer_cases (ht : Timer.Good t) (h : Timer.step t .timer = some t') :
    (∀ d, (t'.dev d).phase = (t.dev d).phase) ∧
      ((t'.ticks = t.ticks ∧ ∀ d, (t.dev d).phase = .waiting → (Released t' d ↔ Released t d)) ∨
        (t'.ticks = t.ticks + 1 ∧ (∀ d, Released t' d) ∧
          ∀ d, (t.dev d).phase = .gone ∨ (t.dev d).phase = .waiting ∧ ¬ Released t d)) := by
  simp only [Timer.step, Timer.timerRoutine] at h
  split at h
  · next htimer =>
    have hquiet : ∀ d, Released { t with timer := .exited } d ↔ Released t d := fun d => by
      simp [Released, releases, htimer]
    have hquiet' : ∀ d, Released { t with timer := .collect 0 0 0 } d ↔ Released t d := fun d => by
      simp [Released, releases, htimer]
    split at h
    · cases h
      exact ⟨fun _ => rfl, .inl ⟨rfl, fun d _ => hquiet d⟩⟩
    · cases h
      exact ⟨fun _ => rfl, .inl ⟨rfl, fun d _ => hquiet' d⟩⟩
  · next i fsh event htimer =>
    split at h
    · next hi =>
      split at h
      · cases h
        refine ⟨fun d => ?_, .inl ⟨rfl, fun d _ => ?_⟩⟩
        · rcases eq_or_ne d ⟨i, hi⟩ with rfl | hne
          · simp
          · simp [Function.update_of_ne hne]
        · unfold Released
          rcases eq_or_ne d ⟨i, hi⟩ with rfl | hne
          · simp [releases, htimer]
          · simp [releases, htimer, Function.update_of_ne hne]
      · cases h
    · cases h
      exact ⟨fun _ => rfl, .inl ⟨rfl, fun d _ => by simp [Released, releases, htimer]⟩⟩
  · next fsh event htimer =>
    cases h
    refine ⟨fun _ => rfl, .inr ⟨rfl, fun d => .inr (by simp [releases]), fun d => ?_⟩⟩
    cases hf : (t.dev d).fsh with
    | true => exact .inl ((ht.gone_iff d).mpr hf)
    | false =>
        have hheld := ht.fits d hf
        rw [htimer] at hheld
        obtain ⟨-, hphase, hdone, -⟩ := hheld
        refine .inr ⟨hphase, ?_⟩
        rintro (hnot | hreleases)
        · cases hdone.symm.trans hnot
        · rw [htimer] at hreleases
          cases hreleases
  · next i fsh event htimer =>
    split at h
    · next hi =>
      cases h
      refine ⟨fun d => ?_, .inl ⟨rfl, fun d _ => ?_⟩⟩
      · rcases eq_or_ne d ⟨i, hi⟩ with rfl | hne
        · simp
        · simp [Function.update_of_ne hne]
      · unfold Released
        rcases eq_or_ne d ⟨i, hi⟩ with rfl | hne
        · simp [releases, htimer]
        · have hne' : (d : Nat) ≠ i := fun heq => hne (Fin.ext heq)
          have hle : i + 1 ≤ (d : Nat) ↔ i ≤ d := by omega
          simp [releases, htimer, Function.update_of_ne hne, hle]
    · next hi =>
      have hlast : ∀ d : Fin n, ¬ i ≤ d := fun d => by
        have := d.isLt
        omega
      split at h
      · cases h
        exact ⟨fun _ => rfl, .inl ⟨rfl, fun d _ => by simp [Released, releases, htimer, hlast d]⟩⟩
      · cases h
        exact ⟨fun _ => rfl, .inl ⟨rfl, fun d _ => by simp [Released, releases, htimer, hlast d]⟩⟩
  · cases h

end timer

/-! ## What a thread does -/

section thread

variable {s s' : Os cfg} {c : Fin cfg.numCpus}

/-- Between the calls to the timer a CPU works. -/
theorem working_cpuStep (h : Os.CpuStep s c s') (hslot : (s.cpu c).phase ≠ .slot)
    (hstopped : (s.cpu c).phase ≠ .stopped) :
    devOfCpu (s.cpu c).phase = .working ∧ devOfCpu (s'.cpu c).phase = .working := by
  cases h with
  | @idleGet g hphase hproc hget =>
      rw [hphase]
      refine ⟨rfl, ?_⟩
      simp only [Os.setCpu_cpu, Function.update_self]
      split <;> rfl
  | slot hphase => exact absurd hphase hslot
  | detach hphase => exact absurd hphase hstopped
  | finish hphase | expire hphase | resume hphase | putReady hphase | putMlq hphase | nextGet hphase
  | exit hphase | skip hphase | dispatch hphase | runNothing hphase | fetch hphase | exec hphase =>
      rw [hphase]
      exact ⟨rfl, by simp [devOfCpu]⟩

theorem slot_cpuStep (h : Os.CpuStep s c s') (hslot : (s.cpu c).phase = .slot) :
    (s'.cpu c).phase = .waiting := by
  cases h with
  | slot => simp
  | idleGet hphase | finish hphase | expire hphase | resume hphase | putReady hphase | putMlq hphase
  | nextGet hphase | exit hphase | skip hphase | dispatch hphase | runNothing hphase | fetch hphase
  | exec hphase | detach hphase => cases hslot.symm.trans hphase

theorem stopped_cpuStep (h : Os.CpuStep s c s') (hstopped : (s.cpu c).phase = .stopped) :
    (s'.cpu c).phase = .detached := by
  cases h with
  | detach => simp
  | idleGet hphase | finish hphase | expire hphase | resume hphase | putReady hphase | putMlq hphase
  | nextGet hphase | exit hphase | skip hphase | dispatch hphase | runNothing hphase | fetch hphase
  | exec hphase | slot hphase => cases hstopped.symm.trans hphase

/-- Between the calls to the timer the loader works. -/
theorem working_ldStep (h : Os.LdStep s s') (hslot : s.ld.phase ≠ .slot)
    (hfinished : s.ld.phase ≠ .finished) :
    devOfLd s.ld.phase = .working ∧ devOfLd s'.ld.phase = .working := by
  cases h with
  | slot hphase => exact absurd hphase hslot
  | detach hphase => exact absurd hphase hfinished
  | early hphase | start hphase | setDone hphase | addRunning hphase | addMlq hphase =>
      rw [hphase]
      exact ⟨rfl, rfl⟩

theorem slot_ldStep (h : Os.LdStep s s') (hslot : s.ld.phase = .slot) : s'.ld.phase = .waiting := by
  cases h with
  | slot => rfl
  | early hphase | start hphase | setDone hphase | addRunning hphase | addMlq hphase
  | detach hphase => cases hslot.symm.trans hphase

theorem finished_ldStep (h : Os.LdStep s s') (hfinished : s.ld.phase = .finished) :
    s'.ld.phase = .detached := by
  cases h with
  | detach => rfl
  | early hphase | start hphase | setDone hphase | addRunning hphase | addMlq hphase
  | slot hphase => cases hfinished.symm.trans hphase

theorem ne_waiting_of_working {l : Cpu} (h : devOfCpu l.phase = .working) : l.phase ≠ .waiting := by
  intro hphase
  rw [hphase] at h
  cases h

theorem ne_waiting_of_working_ld {l : Loader} (h : devOfLd l.phase = .working) :
    l.phase ≠ .waiting := by
  intro hphase
  rw [hphase] at h
  cases h

end thread

/-! ## Every action shows as one of `Os`, or not at all -/

section simulation

variable {f : Clocked cfg} {os : Os cfg} {t : Timer.State (cfg.numCpus + 1)} {c : Fin cfg.numCpus}

/-- The other local variables stay. -/
theorem others_cpuStep (hos : f.threads.cpuStep c = some os) :
    (∀ d, d ≠ c → os.cpu d = f.os.cpu d) ∧ os.ld = f.os.ld :=
  ⟨fun _ hne => Os.cpu_cpuStep_of_ne (s := f.threads) (Os.cpuStep_cases hos) hne,
    (Os.ld_cpuStep (Os.cpuStep_cases hos)).1⟩

/-- A CPU thread makes its own step, and the timer's view of the other threads stays. -/
theorem abs_cpuStep (hphase : (f.os.cpu c).phase ≠ .waiting) (hos : f.threads.cpuStep c = some os)
    (hself : absCpu t c (os.cpu c) = os.cpu c)
    (hothers : ∀ d, d ≠ cpuDev c → (Released t d ↔ Released f.timer d))
    (hticks : t.ticks = f.timer.ticks) : Os.Step f.abs (.cpu c) (abs ⟨os, t⟩) := by
  obtain ⟨hsame, hld⟩ := others_cpuStep hos
  have hview : f.abs = f.threads.reframe (fun c => absCpu f.timer c (f.os.cpu c))
      (absLd f.timer f.os.ld) f.timer.ticks := rfl
  show f.abs.cpuStep c = _
  rw [hview, Os.cpuStep_reframe f.threads c (absCpu_of_ne hphase), hos]
  have hcpu : Function.update (fun c => absCpu f.timer c (f.os.cpu c)) c (os.cpu c) =
      fun d => absCpu t d (os.cpu d) := by
    funext d
    rcases eq_or_ne d c with rfl | hne
    · rw [Function.update_self, hself]
    · rw [Function.update_of_ne hne, hsame d hne]
      exact if_congr (hothers _ (cpuDev_inj.not.mpr hne)).symm rfl rfl
  have hldView : absLd f.timer f.os.ld = absLd t os.ld := by
    rw [hld]
    exact if_congr (hothers _ (cpuDev_ne_ldDev c).symm).symm rfl rfl
  rw [Option.map_some, hcpu, hldView, ← hticks]
  rfl

/-- The loader makes its own step. -/
theorem abs_ldStep (hphase : f.os.ld.phase ≠ .waiting) (hos : f.threads.ldStep = some os)
    (hself : absLd t os.ld = os.ld)
    (hothers : ∀ d, d ≠ ldDev → (Released t d ↔ Released f.timer d))
    (hticks : t.ticks = f.timer.ticks) (htime : f.timer.time.toNat = f.timer.ticks) :
    Os.Step f.abs .loader (abs ⟨os, t⟩) := by
  have hview : f.abs = f.threads.reframe (fun c => absCpu f.timer c (f.os.cpu c))
      (absLd f.timer f.os.ld) f.timer.ticks := rfl
  show f.abs.ldStep = _
  have hld : absLd f.timer f.os.ld = f.threads.ld := absLd_of_ne hphase
  rw [hview, Os.ldStep_reframe f.threads _ hld htime.symm, hos]
  have hframe : os.cpu = f.threads.cpu := (Os.frame_ldStep (Os.ldStep_cases hos)).1
  have hcpu : (fun c => absCpu f.timer c (f.os.cpu c)) = fun c => absCpu t c (os.cpu c) := by
    funext d
    rw [hframe]
    exact if_congr (hothers _ (cpuDev_ne_ldDev d)).symm rfl rfl
  rw [Option.map_some, hcpu, ← hself, ← hticks]
  rfl

theorem Coupled.update_cpu (hs : Coupled f) {x : Timer.Device} (ht : Timer.Good t)
    (hdev : t.dev = Function.update f.timer.dev (cpuDev c) x)
    (hself : x.phase = devOfCpu (os.cpu c).phase) (hothers : ∀ d, d ≠ c → os.cpu d = f.os.cpu d)
    (hld : os.ld = f.os.ld) : Coupled ⟨os, t⟩ := by
  refine ⟨ht, fun d => ?_, ?_⟩
  · rcases eq_or_ne d c with rfl | hne
    · simp only [hdev, Function.update_self, hself]
    · simp only [hdev, Function.update_of_ne (cpuDev_inj.not.mpr hne), hothers d hne]
      exact hs.cpu d
  · simp only [hdev, Function.update_of_ne (cpuDev_ne_ldDev c).symm, hld]
    exact hs.ld

theorem Coupled.update_ld (hs : Coupled f) {x : Timer.Device} (ht : Timer.Good t)
    (hdev : t.dev = Function.update f.timer.dev ldDev x) (hself : x.phase = devOfLd os.ld.phase)
    (hcpu : os.cpu = f.os.cpu) : Coupled ⟨os, t⟩ := by
  refine ⟨ht, fun d => ?_, ?_⟩
  · simp only [hdev, Function.update_of_ne (cpuDev_ne_ldDev d), hcpu]
    exact hs.cpu d
  · simp only [hdev, Function.update_self, hself]

/-- What an action is for `Os`: one of its own, not a removal, or none. -/
def Shows (s s' : Os cfg) : Prop := s' = s ∨ ∃ b, Os.NoKill s b ∧ Os.Step s b s'

/-- **An action of a CPU thread.** -/
theorem Coupled.cpuStep {f' : Clocked cfg} (hs : Coupled f) (h : CpuStep f c f') :
    Coupled f' ∧ f'.timer.ticks = f.timer.ticks ∧ Shows f.abs f'.abs := by
  cases h with
  | raise hslot hos htimer =>
      obtain ⟨os, t⟩ := f'
      have hwaiting := slot_cpuStep (Os.cpuStep_cases hos) hslot
      have hgood := hs.good.raise htimer
      obtain ⟨hwork, rfl⟩ := raise_cases htimer
      obtain ⟨hothers, hld⟩ := others_cpuStep hos
      refine ⟨hs.update_cpu hgood rfl (by rw [hwaiting]; rfl) hothers hld, rfl,
        .inr ⟨.cpu c, rfl, abs_cpuStep (by rw [hslot]; decide) hos ?_
          (fun d hne => released_update hne) rfl⟩⟩
      exact if_neg (not_released_raise hs.good hwork)
  | pass hwaiting htimer =>
      -- `Os` has let the thread go already
      have hgood := hs.good.pass htimer
      obtain ⟨hdone, rfl⟩ := pass_cases htimer
      have hcheck : (Os.releaseCpu (f.os.cpu c)).phase = .check := by
        rw [show Os.releaseCpu (f.os.cpu c) = _ from if_pos hwaiting]
      refine ⟨hs.update_cpu hgood rfl (by simp [hcheck, devOfCpu])
        (fun d hne => Function.update_of_ne hne _ _) rfl, rfl, .inl ?_⟩
      refine congrArg₂ (fun cpu ld => f.os.reframe cpu ld f.timer.ticks) (funext fun d => ?_) ?_
      · rcases eq_or_ne d c with rfl | hne
        · rw [Os.setCpu_cpu, Function.update_self, absCpu_of_ne (by rw [hcheck]; decide)]
          exact (if_pos (.inl hdone)).symm
        · rw [Os.setCpu_cpu, Function.update_of_ne hne]
          exact if_congr (released_update (cpuDev_inj.not.mpr hne)) rfl rfl
      · exact if_congr (released_update (cpuDev_ne_ldDev c).symm) rfl rfl
  | detach hstopped hos htimer =>
      obtain ⟨os, t⟩ := f'
      have hdetached := stopped_cpuStep (Os.cpuStep_cases hos) hstopped
      have hgood := hs.good.detach htimer
      obtain rfl := detach_cases htimer
      obtain ⟨hothers, hld⟩ := others_cpuStep hos
      exact ⟨hs.update_cpu hgood rfl (by rw [hdetached]; rfl) hothers hld, rfl,
        .inr ⟨.cpu c, rfl, abs_cpuStep (by rw [hstopped]; decide) hos
          (absCpu_of_ne (by rw [hdetached]; decide)) (fun d hne => released_update hne) rfl⟩⟩
  | @work os hslot hwaiting hstopped hos =>
      obtain ⟨hwork, hwork'⟩ := working_cpuStep (Os.cpuStep_cases hos) hslot hstopped
      obtain ⟨hothers, hld⟩ := others_cpuStep hos
      have hcoupled : Coupled ⟨os, f.timer⟩ := by
        refine hs.update_cpu (x := f.timer.dev (cpuDev c)) hs.good
          (Function.update_eq_self _ _).symm ?_ hothers hld
        rw [hwork', hs.cpu c]
        exact hwork
      exact ⟨hcoupled, rfl, .inr ⟨.cpu c, rfl, abs_cpuStep hwaiting hos
        (absCpu_of_ne (ne_waiting_of_working hwork')) (fun _ _ => Iff.rfl) rfl⟩⟩

/-- **An action of the loader**, which reads the time. -/
theorem Coupled.ldStep {f' : Clocked cfg} (hs : Coupled f) (h : LdStep f f') :
    Coupled f' ∧ f'.timer.ticks = f.timer.ticks ∧
      (f.timer.ticks < 2 ^ 64 → Shows f.abs f'.abs) := by
  have htime : f.timer.ticks < 2 ^ 64 → f.timer.time.toNat = f.timer.ticks := fun hlt => by
    rw [hs.good.time_eq, BitVec.toNat_ofNat]
    exact Nat.mod_eq_of_lt hlt
  cases h with
  | raise hslot hos htimer =>
      obtain ⟨os, t⟩ := f'
      have hstep := Os.ldStep_cases hos
      have hwaiting := slot_ldStep hstep hslot
      have hgood := hs.good.raise htimer
      obtain ⟨hwork, rfl⟩ := raise_cases htimer
      refine ⟨hs.update_ld hgood rfl (by rw [hwaiting]; rfl) (Os.frame_ldStep hstep).1, rfl,
        fun hlt => .inr ⟨.loader, rfl, abs_ldStep (by rw [hslot]; decide) hos ?_
          (fun d hne => released_update hne) rfl (htime hlt)⟩⟩
      exact if_neg (not_released_raise hs.good hwork)
  | pass hwaiting htimer =>
      have hgood := hs.good.pass htimer
      obtain ⟨hdone, rfl⟩ := pass_cases htimer
      have hhead : (Os.releaseLd f.os.ld).phase = .head := by
        rw [show Os.releaseLd f.os.ld = _ from if_pos hwaiting]
      refine ⟨hs.update_ld hgood rfl (by simp [hhead, devOfLd]) rfl, rfl, fun _ => .inl ?_⟩
      refine congrArg₂ (fun cpu ld => f.os.reframe cpu ld f.timer.ticks) (funext fun d => ?_) ?_
      · exact if_congr (released_update (cpuDev_ne_ldDev d)) rfl rfl
      · rw [absLd_of_ne (by rw [hhead]; decide)]
        exact (if_pos (.inl hdone)).symm
  | detach hfinished hos htimer =>
      obtain ⟨os, t⟩ := f'
      have hstep := Os.ldStep_cases hos
      have hdetached := finished_ldStep hstep hfinished
      have hgood := hs.good.detach htimer
      obtain rfl := detach_cases htimer
      exact ⟨hs.update_ld hgood rfl (by rw [hdetached]; rfl) (Os.frame_ldStep hstep).1, rfl,
        fun hlt => .inr ⟨.loader, rfl, abs_ldStep (by rw [hfinished]; decide) hos
          (absLd_of_ne (by rw [hdetached]; decide)) (fun d hne => released_update hne) rfl
          (htime hlt)⟩⟩
  | @work os hslot hwaiting hfinished hos =>
      have hstep := Os.ldStep_cases hos
      obtain ⟨hwork, hwork'⟩ := working_ldStep hstep hslot hfinished
      have hcoupled : Coupled ⟨os, f.timer⟩ := by
        refine hs.update_ld (x := f.timer.dev ldDev) hs.good (Function.update_eq_self _ _).symm ?_
          (Os.frame_ldStep hstep).1
        rw [hwork', hs.ld]
        exact hwork
      exact ⟨hcoupled, rfl, fun hlt => .inr ⟨.loader, rfl, abs_ldStep hwaiting hos
        (absLd_of_ne (ne_waiting_of_working_ld hwork')) (fun _ _ => Iff.rfl) rfl (htime hlt)⟩⟩

/-- A thread whose device is gone has detached. -/
theorem detached_of_gone {p : CpuPhase} (h : devOfCpu p = .gone) : p = .detached := by
  cases p <;> first | rfl | cases h

theorem detached_of_gone_ld {p : LdPhase} (h : devOfLd p = .gone) : p = .detached := by
  cases p <;> first | rfl | cases h

theorem waiting_of_waiting {p : CpuPhase} (h : devOfCpu p = .waiting) : p = .waiting := by
  cases p <;> first | rfl | cases h

theorem waiting_of_waiting_ld {p : LdPhase} (h : devOfLd p = .waiting) : p = .waiting := by
  cases p <;> first | rfl | cases h

/-- **A section of the timer.** -/
theorem Coupled.timerStep (hs : Coupled f) (h : Timer.step f.timer .timer = some t) :
    Coupled ⟨f.os, t⟩ ∧ f.timer.ticks ≤ t.ticks ∧ Shows f.abs (abs ⟨f.os, t⟩) := by
  obtain ⟨hphases, hkind⟩ := timer_cases hs.good h
  have hcoupled : Coupled ⟨f.os, t⟩ :=
    ⟨hs.good.timerRoutine h, fun c => (hphases _).trans (hs.cpu c), (hphases _).trans hs.ld⟩
  rcases hkind with ⟨hticks, hreleased⟩ | ⟨hticks, hall, hready⟩
  · refine ⟨hcoupled, hticks.ge, .inl ?_⟩
    have hcpu : (fun c => absCpu t c (f.os.cpu c)) = fun c => absCpu f.timer c (f.os.cpu c) := by
      funext c
      by_cases hwaiting : (f.os.cpu c).phase = .waiting
      · exact if_congr (hreleased _ (by rw [hs.cpu c, hwaiting]; rfl)) rfl rfl
      · rw [absCpu_of_ne hwaiting, absCpu_of_ne hwaiting]
    have hld : absLd t f.os.ld = absLd f.timer f.os.ld := by
      by_cases hwaiting : f.os.ld.phase = .waiting
      · exact if_congr (hreleased _ (by rw [hs.ld, hwaiting]; rfl)) rfl rfl
      · rw [absLd_of_ne hwaiting, absLd_of_ne hwaiting]
    unfold abs
    simp only [hcpu, hld, hticks]
  · refine ⟨hcoupled, by omega, .inr ⟨.tick, rfl, ?_⟩⟩
    -- before the increment nobody has been let go
    have hcpu : ∀ c, absCpu f.timer c (f.os.cpu c) = f.os.cpu c ∧ Os.cpuReady (f.os.cpu c) = true := by
      intro c
      rcases hready (cpuDev c) with hgone | ⟨hwaiting, hnot⟩
      · have hdetached := detached_of_gone ((hs.cpu c).symm.trans hgone)
        exact ⟨absCpu_of_ne (by rw [hdetached]; decide), by simp [Os.cpuReady, hdetached]⟩
      · exact ⟨if_neg hnot,
          by simp [Os.cpuReady, waiting_of_waiting ((hs.cpu c).symm.trans hwaiting)]⟩
    have hld : absLd f.timer f.os.ld = f.os.ld ∧ Os.ldReady f.os.ld = true := by
      rcases hready ldDev with hgone | ⟨hwaiting, hnot⟩
      · have hdetached := detached_of_gone_ld (hs.ld.symm.trans hgone)
        exact ⟨absLd_of_ne (by rw [hdetached]; decide), by simp [Os.ldReady, hdetached]⟩
      · exact ⟨if_neg hnot,
          by simp [Os.ldReady, waiting_of_waiting_ld (hs.ld.symm.trans hwaiting)]⟩
    have hview : f.abs = f.os.reframe f.os.cpu f.os.ld f.timer.ticks :=
      congrArg₂ (fun cpu ld => f.os.reframe cpu ld f.timer.ticks) (funext fun c => (hcpu c).1) hld.1
    show f.abs.tick = _
    rw [hview]
    unfold Os.tick
    rw [if_pos ⟨fun c => (hcpu c).2, hld.2⟩]
    refine congrArg some ?_
    have hcpu' : (fun c => absCpu t c (f.os.cpu c)) = fun c => Os.releaseCpu (f.os.cpu c) :=
      funext fun c => if_pos (hall _)
    have hld' : absLd t f.os.ld = Os.releaseLd f.os.ld := if_pos (hall _)
    unfold abs
    simp only [hcpu', hld', hticks]
    rfl

/-- **One action, for `Os`.** -/
theorem Coupled.step {f' : Clocked cfg} {a : ClockedAct cfg} (hs : Coupled f) (h : Step f a f') :
    Coupled f' ∧ f.timer.ticks ≤ f'.timer.ticks ∧
      (f.timer.ticks < 2 ^ 64 → Shows f.abs f'.abs) := by
  cases a with
  | cpu c =>
      obtain ⟨hcoupled, hticks, hshows⟩ := hs.cpuStep (cpuStep_cases h)
      exact ⟨hcoupled, hticks.ge, fun _ => hshows⟩
  | loader =>
      obtain ⟨hcoupled, hticks, hshows⟩ := hs.ldStep (ldStep_cases h)
      exact ⟨hcoupled, hticks.ge, hshows⟩
  | timer =>
      obtain ⟨hos, htimer⟩ := both_eq_some.mp h
      obtain ⟨os, t⟩ := f'
      cases hos
      obtain ⟨hcoupled, hticks, hshows⟩ := hs.timerStep htimer
      exact ⟨hcoupled, hticks, fun _ => hshows⟩
  | stop =>
      simp only [Step, Clocked.step] at h
      split at h
      · obtain ⟨hos, htimer⟩ := both_eq_some.mp h
        obtain ⟨os, t⟩ := f'
        cases hos
        cases htimer
        exact ⟨⟨hs.good.step (a := .stop) rfl, hs.cpu, hs.ld⟩, le_rfl, fun _ => .inl rfl⟩
      · cases h

theorem abs_init (cfg : Config) : (init cfg).abs = Os.init cfg :=
  congrArg₂ (fun cpu ld => (Os.init cfg).reframe cpu ld 0)
    (funext fun _ => absCpu_of_ne (by simp [init, Os.init])) (absLd_of_ne (by simp [init, Os.init]))

/-- A run, for `Os`. -/
theorem coupled_of_run {as : List (ClockedAct cfg)} (hrun : Steps Step (init cfg) as f) :
    Coupled f ∧ (f.timer.ticks < 2 ^ 64 →
      ∃ bs, Steps (Steps.Meeting Os.NoKill Os.Step) (Os.init cfg) bs f.abs) := by
  refine hrun.state_invariant
    (motive := fun f => Coupled f ∧ (f.timer.ticks < 2 ^ 64 →
      ∃ bs, Steps (Steps.Meeting Os.NoKill Os.Step) (Os.init cfg) bs f.abs))
    ⟨coupled_init cfg, fun _ => ⟨[], by rw [abs_init]; exact .nil _⟩⟩ fun f a f' hf hstep => ?_
  obtain ⟨hcoupled, hticks, hshows⟩ := hf.1.step hstep
  refine ⟨hcoupled, fun hlt => ?_⟩
  obtain ⟨bs, hbs⟩ := hf.2 (by omega)
  rcases hshows (by omega) with hsame | ⟨b, hkill, hb⟩
  · exact ⟨bs, by rwa [hsame]⟩
  · exact ⟨bs ++ [b], hbs.snoc ⟨hkill, hb⟩⟩

/-- The timer takes no process from a CPU. -/
theorem held_absCpu {t : Timer.State (cfg.numCpus + 1)} (l : Cpu) : (absCpu t c l).held = l.held := by
  unfold absCpu Os.releaseCpu
  split
  · split
    · next hphase => simp [Cpu.held, hphase]
    · rfl
  · rfl

end simulation

/-- **The threads under the timer of `timer.c` are the threads of `Os`.** For any number of CPUs and in
every interleaving with the timer's critical sections, until the 64-bit time wraps, what the threads and
the timer have done is a run of `Os` whose time is the number of increments, and whose scheduler,
histories and program counters are the ones they have. So no process is on two CPUs, and its code runs
once and in order. -/
theorem threads_refine {f : Clocked cfg} {as : List (ClockedAct cfg)}
    (hrun : Steps Step (init cfg) as f) (htime : f.timer.ticks < 2 ^ 64) :
    (∃ bs, Steps (Steps.Meeting Os.NoKill Os.Step) (Os.init cfg) bs f.abs) ∧
      f.abs.time = f.timer.time.toNat ∧
      ∀ p, f.os.heldBy p + Os.queued f.os.sched p ≤ 1 ∧
        f.os.executed p = (cfg.code p).take (f.os.pc p) := by
  obtain ⟨hs, hos⟩ := coupled_of_run hrun
  obtain ⟨bs, hbs⟩ := hos htime
  have howned := Os.owned_of_steps (hbs.mono fun _ _ _ h => h.2)
  refine ⟨⟨bs, hbs⟩, ?_, fun p => ⟨?_, howned.executed_eq p⟩⟩
  · rw [hs.good.time_eq, BitVec.toNat_ofNat, Nat.mod_eq_of_lt htime]
    rfl
  · have hone := howned.one p
    have hheld : f.abs.heldBy p = f.os.heldBy p :=
      Finset.sum_congr rfl fun c _ => by
        rw [show (f.abs.cpu c).held = (f.os.cpu c).held from held_absCpu _]
    have hqueued : Os.queued f.abs.sched p = Os.queued f.os.sched p := rfl
    unfold Os.places at hone
    omega

/-- The first slot of a process of one instruction, on the second of two CPUs, and the beginning of the
next one: the timer has let the second CPU go and not the first one yet. -/
def firstSlot : List (ClockedAct Os.oneProcess) :=
  List.replicate 4 .loader ++ List.replicate 5 (.cpu ⟨1, Nat.one_lt_two⟩) ++
    List.replicate 2 (.cpu ⟨0, Nat.two_pos⟩) ++ List.replicate 8 .timer ++
    List.replicate 2 (.cpu ⟨1, Nat.one_lt_two⟩)

/-- In `Os` both have been let go by then, and the second one has freed the process. -/
theorem threads_refine_first_slot :
    ∃ f : Clocked Os.oneProcess, Steps Step (init Os.oneProcess) firstSlot f ∧
      (f.timer.dev (cpuDev 0)).done = true ∧ f.os.freed 0 = true ∧
      (∃ bs, Steps (Steps.Meeting Os.NoKill Os.Step) (Os.init Os.oneProcess) bs f.abs) ∧
      f.abs.time = f.timer.time.toNat ∧
      ∀ p, f.os.heldBy p + Os.queued f.os.sched p ≤ 1 ∧
        f.os.executed p = (Os.oneProcess.code p).take (f.os.pc p) := by
  have hcheck : (Steps.exec Clocked.step (init Os.oneProcess) firstSlot).any (fun f => decide
      (f.timer.ticks < 2 ^ 64 ∧ (f.timer.dev (cpuDev 0)).done = true ∧ f.os.freed 0 = true)) =
      true := by
    decide +kernel
  obtain ⟨f, hf, hfacts⟩ := (Option.any_eq_true _ _).mp hcheck
  obtain ⟨htime, hheld, hfreed⟩ := of_decide_eq_true hfacts
  have hrun : Steps Step (init Os.oneProcess) firstSlot f := Steps.of_exec hf
  exact ⟨f, hrun, hheld, hfreed, threads_refine hrun htime⟩

end Clocked

end Ossim
