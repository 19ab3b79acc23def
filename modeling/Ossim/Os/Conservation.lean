import Ossim.Os.Ownership

/-!
# The scheduler loses no process

Without `killall` only one thing takes a process out of the system: `enqueue` on a level that
already holds `MAX_QUEUE_SIZE` processes, which does nothing and says nothing. The history variable
`refused` records it. Everybody else who was handed to `add_proc` and has not finished is held by a
CPU, on the way through `put_proc` or `add_proc`, or waiting at the level of its priority.

When at most `MAX_QUEUE_SIZE` processes of the configuration share a priority, nobody is ever
refused (`refused_eq_false_step`): a process about to be enqueued is not in its level yet, so a full
level would make one process too many of that priority.
-/

namespace Ossim

/-- A removal by `killall`. -/
def Act.isKill {cfg : Config} : Act cfg → Bool
  | .killReady _ | .killRunning _ => true
  | _ => false

/-- How many processes of the configuration have the priority of a level. -/
def Config.sharing (cfg : Config) (l : Level) : Nat :=
  (List.range cfg.numProcesses).countP fun p => cfg.prio p = l

namespace Os

variable {cfg : Config}

/-- Actions other than the removals of `killall`. -/
def NoKill : Os cfg → Act cfg → Prop := fun _ a => a.isKill = false

/-- The loader is in the middle of `add_proc` for this process. -/
def InAdd (s : Os cfg) (p : Nat) : Prop :=
  p = s.ld.i ∧ (s.ld.phase = .addRunning ∨ s.ld.phase = .addMlq)

/-- The loader has passed this process to `add_proc`. -/
def Passed (s : Os cfg) (p : Nat) : Prop := p < s.ld.i ∨ s.InAdd p

/-- The process waits at the level of its priority. -/
def AtLevel (s : Os cfg) (p : Nat) : Prop :=
  ∃ h : cfg.prio p < maxPrio, some p ∈ s.sched.waiting ⟨cfg.prio p, h⟩

/-- What is true along every run without `killall`. -/
structure Conserved (s : Os cfg) : Prop where
  owned : Owned s
  /-- Nobody is in no place, unless it was refused. -/
  placed : ∀ p, s.refused p = false → s.places p = 1
  /-- The loader's index. -/
  index_le : s.ld.i ≤ cfg.numProcesses
  index_lt : ∀ p, s.InAdd p → p < cfg.numProcesses
  /-- `done` is what the loader has written. -/
  done_iff : s.done = true ↔ s.ld.phase = .finished ∨ s.ld.phase = .detached
  index_end : s.done = true → cfg.numProcesses ≤ s.ld.i

theorem conserved_init (cfg : Config) : Conserved (init cfg) where
  owned := owned_init cfg
  placed p _ := by
    simp [places, heldBy, queued, init, Cpu.held, Sched.initScheduler, Sched.waiting]
  index_le := Nat.zero_le _
  index_lt p h := by simp [InAdd, init] at h
  done_iff := by simp [init]
  index_end h := by simp [init] at h

/-! ## Refusals are remembered -/

theorem refused_enqueueLevel {s t : Os cfg} {p r : Nat} (h : s.enqueueLevel p = some t)
    (href : t.refused r = false) : s.refused r = false ∧ (p = r → s.levelFull p = false) := by
  obtain ⟨sched, -, rfl⟩ := enqueueLevel_cases h
  rcases eq_or_ne r p with rfl | hne
  · simpa using href
  · exact ⟨by simpa [Function.update_of_ne hne] using href, fun h => absurd h.symm hne⟩

theorem refused_cpuStep {s s' : Os cfg} {c : Fin cfg.numCpus} (h : CpuStep s c s') {p : Nat}
    (href : s'.refused p = false) : s.refused p = false := by
  cases h with
  | putMlq hphase hproc henq => exact (refused_enqueueLevel henq href).1
  | idleGet | nextGet | finish | expire | resume | putReady | exit | skip | dispatch | runNothing
  | fetch | exec | slot | detach => exact href

theorem refused_ldStep {s s' : Os cfg} (h : LdStep s s') {p : Nat}
    (href : s'.refused p = false) : s.refused p = false := by
  cases h with
  | addMlq hphase henq => exact (refused_enqueueLevel henq href).1
  | early | start | setDone | addRunning | slot | detach => exact href

/-- A CPU action leaves the loader alone. -/
theorem ld_cpuStep {s s' : Os cfg} {c : Fin cfg.numCpus} (h : CpuStep s c s') :
    s'.ld = s.ld ∧ s'.done = s.done := by
  cases h with
  | putMlq hphase hproc henq =>
      obtain ⟨sched, -, rfl⟩ := enqueueLevel_cases henq
      exact ⟨rfl, rfl⟩
  | idleGet | nextGet | finish | expire | resume | putReady | exit | skip | dispatch | runNothing
  | fetch | exec | slot | detach => exact ⟨rfl, rfl⟩

/-! ## The invariant is kept -/

theorem Conserved.cpuStep {s s' : Os cfg} {c : Fin cfg.numCpus} (hs : Conserved s)
    (h : CpuStep s c s') : Conserved s' := by
  obtain ⟨hld, hdone⟩ := ld_cpuStep h
  refine ⟨hs.owned.cpuStep h, fun p href => ?_, by rw [hld]; exact hs.index_le, ?_, ?_, ?_⟩
  · rw [(places_cpuStep hs.owned.sorted hs.owned.one h p).2 href]
    exact hs.placed p (refused_cpuStep h href)
  · simpa only [InAdd, hld] using hs.index_lt
  · rw [hld, hdone]
    exact hs.done_iff
  · rw [hld, hdone]
    exact hs.index_end

theorem Conserved.ldStep {s s' : Os cfg} (hs : Conserved s) (hl : Step s .loader s')
    (h : LdStep s s') : Conserved s' := by
  have howned := hs.owned.step hl
  have hplaced : ∀ p, s'.refused p = false → s'.places p = 1 := fun p href => by
    rw [(places_ldStep h p).2 href]
    exact hs.placed p (refused_ldStep h href)
  have hidx := hs.index_le
  have hdone := hs.done_iff
  cases h with
  | early hphase hi htime =>
      exact ⟨howned, hplaced, hidx, by simp [InAdd], by simpa [hphase] using hdone, hs.index_end⟩
  | start hphase hi htime =>
      exact ⟨howned, hplaced, hidx, by simpa [InAdd] using hi, by simpa [hphase] using hdone,
        hs.index_end⟩
  | setDone hphase hi =>
      exact ⟨howned, hplaced, hidx, by simp [InAdd], by simp, fun _ => hi⟩
  | addRunning hphase =>
      have hlt := hs.index_lt s.ld.i ⟨rfl, .inl hphase⟩
      exact ⟨howned, hplaced, hidx, by simpa [InAdd] using hlt, by simpa [hphase] using hdone,
        hs.index_end⟩
  | addMlq hphase henq =>
      have hlt := hs.index_lt s.ld.i ⟨rfl, .inr hphase⟩
      obtain ⟨sched, -, rfl⟩ := enqueueLevel_cases henq
      have hfalse : s.done = false := by simpa [hphase] using hdone
      exact ⟨howned, hplaced, hlt, by simp [InAdd], by simp [hfalse], by simp [hfalse]⟩
  | slot hphase =>
      exact ⟨howned, hplaced, hidx, by simp [InAdd], by simpa [hphase] using hdone, hs.index_end⟩
  | detach hphase =>
      exact ⟨howned, hplaced, hidx, by simp [InAdd], by simpa [hphase] using hdone, hs.index_end⟩

theorem Conserved.tick {s s' : Os cfg} (hs : Conserved s) (h : s.tick = some s') :
    Conserved s' := by
  have hplaces := places_tick h
  have howned := hs.owned.tick h
  obtain ⟨-, hready, rfl⟩ := tick_cases h
  have hdone := hs.done_iff
  have hphase : s.ld.phase = .waiting ∨ s.ld.phase = .detached := by simpa [ldReady] using hready
  refine ⟨howned, fun p href => by rw [hplaces]; exact hs.placed p href, ?_, ?_, ?_, ?_⟩
  · simpa using hs.index_le
  · rcases hphase with hw | hd
    · simp [InAdd, releaseLd, hw]
    · simp [InAdd, releaseLd, hd]
  · rcases hphase with hw | hd
    · simpa [releaseLd, hw] using hdone
    · simpa [releaseLd, hd] using hdone
  · simpa using hs.index_end

theorem Conserved.step {s s' : Os cfg} {a : Act cfg} (hs : Conserved s) (hkill : a.isKill = false)
    (h : Step s a s') : Conserved s' := by
  rcases step_cases h with ⟨c, -, hc⟩ | ⟨rfl, hl⟩ | ⟨-, ht⟩ | ⟨⟨idx, rfl | rfl⟩, -⟩
  · exact hs.cpuStep hc
  · exact hs.ldStep h hl
  · exact hs.tick ht
  · cases hkill
  · cases hkill

/-! ## Nobody is refused while the levels suffice -/

/-- Whoever waits somewhere was entered by the loader. -/
theorem lt_index_of_queued {s : Os cfg} (hs : Owned s) {p : Nat} (h : 1 ≤ queued s.sched p) :
    p < s.ld.i := by
  have hone := hs.one p
  by_contra hge
  simp only [places, Nat.not_lt.mp hge, if_true] at hone
  omega

/-- A CPU holds only processes that the loader has added. -/
theorem lt_index_of_held {s : Os cfg} {c : Fin cfg.numCpus} (hs : Owned s) {p : Nat}
    (hheld : (s.cpu c).held = some p) : p < s.ld.i := by
  have hone := hs.one p
  have hpos := one_le_heldBy hheld
  by_contra hge
  simp only [places, Nat.not_lt.mp hge, if_true] at hone
  omega

/-- A level where a process that is nowhere in the queues belongs is not full. -/
theorem levelFull_eq_false {s : Os cfg} (hs : Conserved s)
    (hshare : ∀ l, cfg.sharing l ≤ maxQueueSize) {p : Nat} (hp : p < cfg.numProcesses)
    (hout : queued s.sched p = 0) : s.levelFull p = false := by
  unfold levelFull
  split
  · next hprio =>
    -- with `p`, a full level would hold one process too many of its priority
    set l : Level := ⟨cfg.prio p, hprio⟩
    have hcount : ∀ o ∈ s.sched.waiting l, ∃ r, o = some r ∧ cfg.prio r = l :=
      hs.owned.sorted l
    have hle : ∀ r, (s.sched.waiting l).count (some r) ≤ queued s.sched r := fun r =>
      FamilySum.le_sum (fun l : Level => (s.sched.waiting l).count (some r)) l
    have hnodup : (some p :: s.sched.waiting l).Nodup := by
      refine List.nodup_iff_count_le_one.mpr fun o => ?_
      rcases o with _ | r
      · have hnone : (none : Option Nat) ∉ s.sched.waiting l := fun hmem => by
          obtain ⟨r, hr, -⟩ := hcount _ hmem
          cases hr
        simp [List.count_eq_zero_of_not_mem hnone]
      · have hq := hle r
        have hone := hs.owned.one r
        rw [List.count_cons]
        unfold places at hone
        split
        · next heq =>
          have hrp : p = r := by simpa using heq
          subst hrp
          omega
        · omega
    -- everybody there was entered by the loader, so all are processes of that priority
    have hsub : (some p :: s.sched.waiting l) ⊆
        ((List.range cfg.numProcesses).filter fun r => cfg.prio r = l).map some := by
      intro o ho
      rcases List.mem_cons.mp ho with rfl | ho
      · exact List.mem_map_of_mem (List.mem_filter.mpr ⟨List.mem_range.mpr hp, by simp [l]⟩)
      · obtain ⟨r, rfl, hr⟩ := hcount o ho
        have hpos : 0 < (s.sched.waiting l).count (some r) := List.count_pos_iff.mpr ho
        have hlt := lt_index_of_queued hs.owned (le_trans hpos (hle r))
        have := hs.index_le
        exact List.mem_map_of_mem
          (List.mem_filter.mpr ⟨List.mem_range.mpr (by omega), by simpa using hr⟩)
    have hlen := (List.subperm_of_subset hnodup hsub).length_le
    rw [List.length_cons, List.length_map, ← List.countP_eq_length_filter] at hlen
    have hl := hshare l
    have hsize : (s.sched.mlqReadyQueue l).size = (s.sched.waiting l).length := by
      simp [Sched.waiting]
    unfold Config.sharing at hl
    simp only [decide_eq_false_iff_not, not_le, hsize]
    omega
  · rfl

theorem refused_eq_false_step {s s' : Os cfg} {a : Act cfg} (hs : Conserved s)
    (hshare : ∀ l, cfg.sharing l ≤ maxQueueSize) (href : ∀ p, s.refused p = false)
    (hkill : a.isKill = false) (h : Step s a s') (p : Nat) : s'.refused p = false := by
  rcases step_cases h with ⟨c, -, hc⟩ | ⟨rfl, hl⟩ | ⟨-, ht⟩ | ⟨⟨idx, rfl | rfl⟩, -⟩
  · cases hc with
    | @putMlq r t hphase hproc henq =>
        have hheld := one_le_heldBy (s := s) (c := c) (p := r) (by simp [Cpu.held, hphase, hproc])
        have hone := hs.owned.one r
        -- the CPU holds `r`, so `r` is no longer to come and waits nowhere
        have hr : r < s.ld.i ∧ queued s.sched r = 0 := by
          unfold places at hone
          constructor
          · by_contra hge
            simp only [Nat.not_lt.mp hge, if_true] at hone
            omega
          · omega
        have hfull := levelFull_eq_false hs hshare (lt_of_lt_of_le hr.1 hs.index_le) hr.2
        obtain ⟨sched, -, rfl⟩ := enqueueLevel_cases henq
        rcases eq_or_ne p r with rfl | hne
        · simp [hfull, href]
        · simpa [Function.update_of_ne hne] using href p
    | idleGet | nextGet | finish | expire | resume | putReady | exit | skip | dispatch | runNothing
    | fetch | exec | slot | detach => exact href p
  · cases hl with
    | addMlq hphase henq =>
        have hlt := hs.index_lt s.ld.i ⟨rfl, .inr hphase⟩
        have hone := hs.owned.one s.ld.i
        have hout : queued s.sched s.ld.i = 0 := by
          simp only [places, le_refl, if_true] at hone
          omega
        have hfull := levelFull_eq_false hs hshare hlt hout
        obtain ⟨sched, -, rfl⟩ := enqueueLevel_cases henq
        rcases eq_or_ne p s.ld.i with rfl | hne
        · simp [hfull, href]
        · simpa [Function.update_of_ne hne] using href p
    | early | start | setDone | addRunning | slot | detach => exact href p
  · obtain ⟨-, -, rfl⟩ := tick_cases ht
    exact href p
  · cases hkill
  · cases hkill

theorem conserved_of_steps {s : Os cfg} {as : List (Act cfg)}
    (hrun : Steps (Steps.Meeting NoKill Step) (init cfg) as s) :
    Conserved s ∧ ((∀ l, cfg.sharing l ≤ maxQueueSize) → ∀ p, s.refused p = false) := by
  refine hrun.state_invariant
    (motive := fun s => Conserved s ∧
      ((∀ l, cfg.sharing l ≤ maxQueueSize) → ∀ p, s.refused p = false))
    ⟨conserved_init cfg, fun _ _ => rfl⟩ fun t a u ht hR => ?_
  obtain ⟨hkill, hstep⟩ := hR
  exact ⟨ht.1.step hkill hstep,
    fun hshare => refused_eq_false_step ht.1 hshare (ht.2 hshare) hkill hstep⟩

/-- A process in some place that was added and has not finished is held or waits at its level. -/
theorem held_or_atLevel {s : Os cfg} (hs : Owned s) {p : Nat} (hplaced : s.places p = 1)
    (hadded : p < s.ld.i) (hlive : s.freed p = false) :
    (∃ c, (s.cpu c).held = some p) ∨ s.AtLevel p := by
  simp only [places, hlive, Bool.false_eq_true, Nat.not_le.mpr hadded, if_false,
    Nat.add_zero] at hplaced
  rcases Nat.eq_zero_or_pos (s.heldBy p) with hzero | hpos
  · right
    have hq : queued s.sched p ≠ 0 := by omega
    obtain ⟨l, -, hl⟩ := Finset.exists_ne_zero_of_sum_ne_zero hq
    have hmem : some p ∈ s.sched.waiting l := List.count_pos_iff.mp (Nat.pos_of_ne_zero hl)
    obtain ⟨r, hr, hprio⟩ := hs.sorted l _ hmem
    cases hr
    have hlt : cfg.prio p < maxPrio := hprio ▸ l.isLt
    have hl : l = ⟨cfg.prio p, hlt⟩ := Fin.ext hprio.symm
    exact ⟨hlt, hl ▸ hmem⟩
  · left
    obtain ⟨c, -, hc⟩ := Finset.exists_ne_zero_of_sum_ne_zero (Nat.pos_iff_ne_zero.mp hpos)
    exact ⟨c, by simpa using hc⟩

/-- **The scheduler loses nobody, except at a full level.** In every state reached without
`killall`, a process that was passed to `add_proc` and has not finished is held by a CPU (which
includes being in the middle of `put_proc`), in the middle of `add_proc`, present at the level of
its priority, or was refused by an enqueue that found that level full. If no more than
`MAX_QUEUE_SIZE` processes share a priority, nobody is ever refused. -/
theorem no_process_lost {s : Os cfg} {as : List (Act cfg)} (hrun : Steps Step (init cfg) as s)
    (hkill : ∀ a ∈ as, a.isKill = false) {p : Nat} (hpassed : s.Passed p)
    (hlive : s.freed p = false) :
    ((∃ c, (s.cpu c).held = some p) ∨ s.InAdd p ∨ s.AtLevel p ∨ s.refused p = true) ∧
      ((∀ l, cfg.sharing l ≤ maxQueueSize) → s.refused p = false) := by
  obtain ⟨hs, hshare⟩ := conserved_of_steps (hrun.meeting_of_forall hkill)
  refine ⟨?_, fun h => hshare h p⟩
  rcases hpassed with hadded | hin
  · cases href : s.refused p with
    | true => exact .inr (.inr (.inr rfl))
    | false =>
        rcases held_or_atLevel hs.owned (hs.placed p href) hadded hlive with hheld | hlevel
        · exact .inl hheld
        · exact .inr (.inr (.inl hlevel))
  · exact .inr (.inl hin)

/-- A lone process that a CPU has taken is accounted for, and was not refused. -/
theorem no_process_lost_one_process :
    ∃ s, Steps Step (init oneProcess) [.loader, .loader, .loader, .cpu 1] s ∧
      ((∃ c, (s.cpu c).held = some 0) ∨ s.InAdd 0 ∨ s.AtLevel 0 ∨ s.refused 0 = true) ∧
      s.refused 0 = false := by
  have hrun : Steps Step (init oneProcess) [.loader, .loader, .loader, .cpu 1] _ :=
    .cons rfl (.cons rfl (.cons rfl (.cons rfl (.nil _))))
  obtain ⟨hplace, hrefused⟩ := no_process_lost hrun (p := 0) (by decide) (.inl (by decide)) rfl
  exact ⟨_, hrun, hplace, hrefused (by decide +kernel)⟩

/-- Twelve processes of one priority, one CPU with a long quantum. -/
abbrev twelveProcesses : Config where
  timeSlot := 100
  numCpus := 1
  numProcesses := 12
  startTime := fun _ => 0
  prio := fun _ => 5
  code := fun _ => List.replicate 20 ⟨.calc, 0, 0, 0, 0⟩

/-- One time slot: the loader adds a process, CPU `c` takes one or goes on with the one it has, and
executes an instruction. -/
def loadSlot (cfg : Config) (c : Fin cfg.numCpus) : List (Act cfg) :=
  [.loader, .loader, .loader, .cpu c, .cpu c, .cpu c, .cpu c, .cpu c, .loader, .tick]

/-- The CPU holds the first process, ten wait at level 5, and the twelfth is nowhere although it was
added and has not finished. -/
theorem twelfth_process_lost :
    ∃ s : Os twelveProcesses,
      Steps Step (init twelveProcesses) (List.replicate 12 (loadSlot twelveProcesses 0)).flatten s ∧
      (∀ a ∈ (List.replicate 12 (loadSlot twelveProcesses 0)).flatten, a.isKill = false) ∧
      s.Passed 11 ∧ s.freed 11 = false ∧
      ¬ ((∃ c, (s.cpu c).held = some 11) ∨ s.InAdd 11 ∨ s.AtLevel 11) := by
  have hcheck : (Steps.exec (fun s a => Os.step s a) (init twelveProcesses)
      (List.replicate 12 (loadSlot twelveProcesses 0)).flatten).any (fun s => decide (11 < s.ld.i ∧
        s.freed 11 = false ∧ (∀ c, (s.cpu c).held ≠ some 11) ∧
        some 11 ∉ s.sched.waiting ⟨5, by decide⟩)) = true := by
    decide +kernel
  obtain ⟨s, hs, hfacts⟩ := (Option.any_eq_true _ _).mp hcheck
  obtain ⟨hadded, hlive, hheld, hlevel⟩ := of_decide_eq_true hfacts
  refine ⟨s, Steps.of_exec hs, by decide, .inl hadded, hlive, ?_⟩
  rintro (⟨c, hc⟩ | ⟨hin, -⟩ | ⟨_, hat⟩)
  · exact hheld c hc
  · omega
  · exact hlevel hat

end Os

end Ossim
