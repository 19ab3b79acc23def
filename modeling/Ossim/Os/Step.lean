import Ossim.Os.Basic

/-!
# What one action can do

`cpuStep` and `ldStep` are functions with many branches. `CpuStep` and `LdStep` list them by name,
each with the facts that select it; the invariants of this directory are proved by cases on these
and never unfold the functions.
-/

namespace Ossim.Os

variable {cfg : Config}

/-- The branches of `cpuStep`. -/
inductive CpuStep (s : Os cfg) (c : Fin cfg.numCpus) : Os cfg → Prop where
  | idleGet {g : Got Nat} (hphase : (s.cpu c).phase = .check) (hproc : (s.cpu c).proc = none)
      (hget : s.sched.getMlqProc cfg.prio = .ok g) :
      CpuStep s c ({ s with sched := g.sched }.setCpu c
        ⟨if g.proc.isNone then .slot else .recheck, g.proc, (s.cpu c).timeLeft⟩)
  | finish {p : Nat} (hphase : (s.cpu c).phase = .check) (hproc : (s.cpu c).proc = some p)
      (hpc : s.pc p = (cfg.code p).length) :
      CpuStep s c ({ s with freed := Function.update s.freed p true }.setCpu c
        ⟨.getNext, (s.cpu c).proc, 0⟩)
  | expire {p : Nat} (hphase : (s.cpu c).phase = .check) (hproc : (s.cpu c).proc = some p)
      (hpc : s.pc p ≠ (cfg.code p).length) (htime : (s.cpu c).timeLeft = 0) :
      CpuStep s c (s.setCpu c ⟨.putReady, (s.cpu c).proc, (s.cpu c).timeLeft⟩)
  | resume {p : Nat} (hphase : (s.cpu c).phase = .check) (hproc : (s.cpu c).proc = some p)
      (hpc : s.pc p ≠ (cfg.code p).length) (htime : (s.cpu c).timeLeft ≠ 0) :
      CpuStep s c (s.setCpu c ⟨.recheck, (s.cpu c).proc, (s.cpu c).timeLeft⟩)
  | putReady {p : Nat} (hphase : (s.cpu c).phase = .putReady) (hproc : (s.cpu c).proc = some p) :
      CpuStep s c ({ s with sched := s.sched.putReady p }.setCpu c
        ⟨.putMlq, (s.cpu c).proc, (s.cpu c).timeLeft⟩)
  | putMlq {p : Nat} {t : Os cfg} (hphase : (s.cpu c).phase = .putMlq)
      (hproc : (s.cpu c).proc = some p) (henq : s.enqueueLevel p = some t) :
      CpuStep s c (t.setCpu c ⟨.getNext, (s.cpu c).proc, (s.cpu c).timeLeft⟩)
  | nextGet {g : Got Nat} (hphase : (s.cpu c).phase = .getNext)
      (hget : s.sched.getMlqProc cfg.prio = .ok g) :
      CpuStep s c ({ s with sched := g.sched }.setCpu c
        ⟨.recheck, g.proc, (s.cpu c).timeLeft⟩)
  | exit (hphase : (s.cpu c).phase = .recheck) (hproc : (s.cpu c).proc = none)
      (hdone : s.done = true) : CpuStep s c (s.setCpu c ⟨.stopped, (s.cpu c).proc, (s.cpu c).timeLeft⟩)
  | skip (hphase : (s.cpu c).phase = .recheck) (hproc : (s.cpu c).proc = none)
      (hdone : s.done = false) : CpuStep s c (s.setCpu c ⟨.slot, (s.cpu c).proc, (s.cpu c).timeLeft⟩)
  | dispatch {p : Nat} (hphase : (s.cpu c).phase = .recheck) (hproc : (s.cpu c).proc = some p) :
      CpuStep s c (s.setCpu c ⟨.run, (s.cpu c).proc,
        if (s.cpu c).timeLeft = 0 then cfg.timeSlot else (s.cpu c).timeLeft⟩)
  | runNothing {p : Nat} (hphase : (s.cpu c).phase = .run) (hproc : (s.cpu c).proc = some p)
      (hpc : (cfg.code p)[s.pc p]? = none) :
      CpuStep s c (s.setCpu c ⟨.slot, (s.cpu c).proc, (s.cpu c).timeLeft - 1⟩)
  | fetch {p : Nat} {ins : Inst} (hphase : (s.cpu c).phase = .run)
      (hproc : (s.cpu c).proc = some p) (hpc : (cfg.code p)[s.pc p]? = some ins) :
      CpuStep s c (s.setCpu c ⟨.exec ins, (s.cpu c).proc, (s.cpu c).timeLeft⟩)
  | exec {p : Nat} {ins : Inst} (hphase : (s.cpu c).phase = .exec ins)
      (hproc : (s.cpu c).proc = some p) :
      CpuStep s c ({ s with
          pc := Function.update s.pc p (s.pc p + 1)
          executed := Function.update s.executed p (s.executed p ++ [ins]) }.setCpu c
        ⟨.slot, (s.cpu c).proc, (s.cpu c).timeLeft - 1⟩)
  | slot (hphase : (s.cpu c).phase = .slot) :
      CpuStep s c (s.setCpu c ⟨.waiting, (s.cpu c).proc, (s.cpu c).timeLeft⟩)
  | detach (hphase : (s.cpu c).phase = .stopped) :
      CpuStep s c (s.setCpu c ⟨.detached, (s.cpu c).proc, (s.cpu c).timeLeft⟩)

theorem cpuStep_cases {s s' : Os cfg} {c : Fin cfg.numCpus} (h : s.cpuStep c = some s') :
    CpuStep s c s' := by
  unfold cpuStep at h
  simp only at h
  split at h
  · next hphase hproc =>
    split at h
    · cases h
    · next g hget => cases h; exact .idleGet hphase hproc hget
  · next p hphase hproc =>
    split at h
    · next hpc => cases h; exact .finish hphase hproc hpc
    · next hpc =>
      split at h
      · next htime => cases h; exact .expire hphase hproc hpc htime
      · next htime => cases h; exact .resume hphase hproc hpc htime
  · next p hphase hproc => cases h; exact .putReady hphase hproc
  · next p hphase hproc =>
    obtain ⟨t, ht, rfl⟩ := Option.map_eq_some_iff.mp h
    exact .putMlq hphase hproc ht
  · next hphase =>
    split at h
    · cases h
    · next g hget => cases h; exact .nextGet hphase hget
  · next hphase hproc =>
    split at h
    · next hdone => cases h; exact .exit hphase hproc hdone
    · next hdone => cases h; exact .skip hphase hproc (by simpa using hdone)
  · next p hphase hproc => cases h; exact .dispatch hphase hproc
  · next p hphase hproc =>
    split at h
    · next hpc => cases h; exact .runNothing hphase hproc hpc
    · next ins hpc => cases h; exact .fetch hphase hproc hpc
  · next ins p hphase hproc => cases h; exact .exec hphase hproc
  · next hphase => cases h; exact .slot hphase
  · next hphase => cases h; exact .detach hphase
  · cases h

/-- The branches of `enqueueLevel`. -/
theorem enqueueLevel_cases {s t : Os cfg} {p : Nat} (h : s.enqueueLevel p = some t) :
    ∃ sched, s.sched.enqueueMlq cfg.prio p = .ok sched ∧
      t = { s with
        sched := sched
        refused := Function.update s.refused p (s.refused p || s.levelFull p) } := by
  unfold enqueueLevel at h
  split at h
  · cases h
  · next sched hok => exact ⟨sched, hok, by cases h; rfl⟩

/-- The branches of `ldStep`. -/
inductive LdStep (s : Os cfg) : Os cfg → Prop where
  | early (hphase : s.ld.phase = .head) (hi : s.ld.i < cfg.numProcesses)
      (htime : s.time < cfg.startTime s.ld.i) : LdStep s { s with ld := ⟨.slot, s.ld.i⟩ }
  | start (hphase : s.ld.phase = .head) (hi : s.ld.i < cfg.numProcesses)
      (htime : cfg.startTime s.ld.i ≤ s.time) : LdStep s { s with ld := ⟨.addRunning, s.ld.i⟩ }
  | setDone (hphase : s.ld.phase = .head) (hi : cfg.numProcesses ≤ s.ld.i) :
      LdStep s { s with done := true, ld := ⟨.finished, s.ld.i⟩ }
  | addRunning (hphase : s.ld.phase = .addRunning) :
      LdStep s { s with sched := s.sched.addRunning s.ld.i, ld := ⟨.addMlq, s.ld.i⟩ }
  | addMlq {t : Os cfg} (hphase : s.ld.phase = .addMlq) (henq : s.enqueueLevel s.ld.i = some t) :
      LdStep s { t with ld := ⟨.slot, s.ld.i + 1⟩ }
  | slot (hphase : s.ld.phase = .slot) : LdStep s { s with ld := ⟨.waiting, s.ld.i⟩ }
  | detach (hphase : s.ld.phase = .finished) : LdStep s { s with ld := ⟨.detached, s.ld.i⟩ }

theorem ldStep_cases {s s' : Os cfg} (h : s.ldStep = some s') : LdStep s s' := by
  unfold ldStep at h
  simp only at h
  split at h
  · next hphase =>
    split at h
    · next hi =>
      split at h
      · next htime => cases h; exact .early hphase hi htime
      · next htime => cases h; exact .start hphase hi (by omega)
    · next hi => cases h; exact .setDone hphase (by omega)
  · next hphase => cases h; exact .addRunning hphase
  · next hphase =>
    obtain ⟨t, ht, rfl⟩ := Option.map_eq_some_iff.mp h
    exact .addMlq hphase ht
  · next hphase => cases h; exact .slot hphase
  · cases h
  · next hphase => cases h; exact .detach hphase
  · cases h

/-- The timer passes to the next slot only when every thread is waiting or has detached. -/
theorem tick_cases {s s' : Os cfg} (h : s.tick = some s') :
    (∀ c, cpuReady (s.cpu c) = true) ∧ ldReady s.ld = true ∧
      s' = { s with
        time := s.time + 1
        cpu := fun c => releaseCpu (s.cpu c)
        ld := releaseLd s.ld } := by
  unfold tick at h
  split at h
  · next hready => exact ⟨hready.1, hready.2, by cases h; rfl⟩
  · cases h

@[simp] theorem releaseLd_i (l : Loader) : (releaseLd l).i = l.i := by
  unfold releaseLd
  split <;> rfl

/-- The removals of `killall`: one queue each. -/
inductive KillStep (s : Os cfg) : Os cfg → Prop where
  | ready {idx : Nat} {q : Queue Nat}
      (hq : (s.sched.mlqReadyQueue levelZero).removeFromQueue idx = .ok q) :
      KillStep s { s with
        sched := { s.sched with
          mlqReadyQueue := Function.update s.sched.mlqReadyQueue levelZero q } }
  | running {idx : Nat} {q : Queue Nat} (hq : s.sched.runningList.removeFromQueue idx = .ok q) :
      KillStep s { s with sched := { s.sched with runningList := q } }

/-- The actions, seen as one of four kinds. -/
theorem step_cases {s s' : Os cfg} {a : Act cfg} (h : s.step a = some s') :
    (∃ c, a = .cpu c ∧ CpuStep s c s') ∨ (a = .loader ∧ LdStep s s') ∨
      (a = .tick ∧ s.tick = some s') ∨
      ((∃ idx, a = .killReady idx ∨ a = .killRunning idx) ∧ KillStep s s') := by
  cases a with
  | cpu c => exact .inl ⟨c, rfl, cpuStep_cases h⟩
  | loader => exact .inr (.inl ⟨rfl, ldStep_cases h⟩)
  | tick => exact .inr (.inr (.inl ⟨rfl, h⟩))
  | killReady idx =>
      refine .inr (.inr (.inr ⟨⟨idx, .inl rfl⟩, ?_⟩))
      simp only [step] at h
      split at h
      · cases h
      · next q hq => cases h; exact .ready hq
  | killRunning idx =>
      refine .inr (.inr (.inr ⟨⟨idx, .inr rfl⟩, ?_⟩))
      simp only [step] at h
      split at h
      · cases h
      · next q hq => cases h; exact .running hq

end Ossim.Os
