import Ossim.Os.Conservation

/-!
# The list `killall` walks

`add_proc` enters every process into `running_list`, and the second loop of `__sys_killall` takes out
the ones it kills. Nothing else touches the list. So a process that finishes stays on it after
`cpu_routine` has freed it (`freed_process_listed`), and `killall` then reads a name through a
pointer to freed memory; and as the array holds `MAX_QUEUE_SIZE` pointers, a process added while it
is full is never on it.

These are the only two ways in which the list goes wrong. As long as no process finishes that is
still on the list, and `add_proc` finds room, the list is exactly the live processes, each once
(`running_list_exact`).

A `Census` is a state of the simulator with a record of who was added and who was killed. The record
only watches: every run of the simulator is the run of a census (`census_of_steps`).
-/

namespace Ossim

/-- A state of the simulator, with the history of `running_list`. -/
structure Census (cfg : Config) where
  os : Os cfg
  /-- History: `add_proc` has passed its first critical section with the process. -/
  added : Nat → Bool
  /-- History: the second loop of `killall` found the process and removed it. -/
  killed : Nat → Bool

namespace Os

variable {cfg : Config}

/-- The process that `add_proc` enters into `running_list`. -/
def adding (s : Os cfg) : Act cfg → Option Nat
  | .loader => if s.ld.phase = .addRunning then some s.ld.i else none
  | _ => none

/-- The process that the second loop of `killall` kills. -/
def killing (s : Os cfg) : Act cfg → Option Nat
  | .killRunning idx => s.sched.runningList.proc idx
  | _ => none

/-- The process that `cpu_routine` frees. -/
def finishing (s : Os cfg) : Act cfg → Option Nat
  | .cpu c =>
    match (s.cpu c).phase, (s.cpu c).proc with
    | .check, some p => if s.pc p = (cfg.code p).length then some p else none
    | _, _ => none
  | _ => none

/-- The test `idx < rlist->size` of `killall`'s loop. -/
def LoopTest (s : Os cfg) : Act cfg → Prop
  | .killRunning idx => idx < s.sched.runningList.size
  | _ => True

instance (s : Os cfg) : (a : Act cfg) → Decidable (s.LoopTest a)
  | .killRunning idx => inferInstanceAs (Decidable (idx < s.sched.runningList.size))
  | .cpu _ | .loader | .tick | .killReady _ => inferInstanceAs (Decidable True)

/-- The action frees nobody who is on `running_list`, and adds nobody to a full one. -/
def KeepsList (s : Os cfg) (a : Act cfg) : Prop :=
  (∀ p ∈ s.finishing a, some p ∉ s.sched.runningList.entries) ∧
    ((s.adding a).isSome → s.sched.runningList.size < maxQueueSize)

instance (s : Os cfg) (a : Act cfg) : Decidable (s.KeepsList a) :=
  inferInstanceAs (Decidable ((∀ p ∈ s.finishing a, some p ∉ s.sched.runningList.entries) ∧
    ((s.adding a).isSome → s.sched.runningList.size < maxQueueSize)))

end Os

namespace Census

open Os

variable {cfg : Config}

def init (cfg : Config) : Census cfg := ⟨Os.init cfg, fun _ => false, fun _ => false⟩

/-- One action of the simulator, recorded. -/
def step (t : Census cfg) (a : Act cfg) : Option (Census cfg) :=
  (t.os.step a).map fun s =>
    { os := s
      added := fun p => t.added p || t.os.adding a == some p
      killed := fun p => t.killed p || t.os.killing a == some p }

/-- The step relation of the recorded simulator, where `killall` stays inside the list. -/
def Step (t : Census cfg) (a : Act cfg) (t' : Census cfg) : Prop :=
  t.os.LoopTest a ∧ t.step a = some t'

/-- The actions of the result below. -/
def KeepsList (t : Census cfg) (a : Act cfg) : Prop := t.os.KeepsList a

/-- The process was added, and has neither finished nor been killed. -/
def Live (t : Census cfg) (p : Nat) : Prop :=
  t.added p = true ∧ t.os.freed p = false ∧ t.killed p = false

/-- `running_list` is the live processes, each once. -/
structure ListExact (t : Census cfg) : Prop where
  nodup : t.os.sched.runningList.entries.Nodup
  mem_iff : ∀ o, o ∈ t.os.sched.runningList.entries ↔ ∃ p, o = some p ∧ t.Live p

end Census

/-! ## What an action does to the list -/

namespace Os

variable {cfg : Config}

theorem runningList_cpuStep {s s' : Os cfg} {c : Fin cfg.numCpus} (hs : s.sched.Sorted cfg.prio)
    (h : CpuStep s c s') : s'.sched.runningList = s.sched.runningList := by
  cases h with
  | idleGet hphase hproc hget => cases Sched.getMlqProc_cases hs hget <;> rfl
  | nextGet hphase hget => cases Sched.getMlqProc_cases hs hget <;> rfl
  | putMlq hphase hproc henq =>
      obtain ⟨sched, hok, rfl⟩ := enqueueLevel_cases henq
      obtain ⟨hp, rfl⟩ := Sched.enqueueMlq_cases hok
      rfl
  | finish | expire | resume | putReady | exit | skip | dispatch | runNothing | fetch | exec | slot
  | detach => rfl

/-- A CPU action frees the process that finishes, and nobody else. -/
theorem freed_finishing {s s' : Os cfg} {c : Fin cfg.numCpus} (h : CpuStep s c s') (p : Nat) :
    s'.freed p = (s.freed p || s.finishing (.cpu c) == some p) := by
  cases h with
  | @finish r hphase hproc hpc =>
      simp only [finishing, hphase, hproc, hpc, if_true, setCpu_freed, Function.update_apply]
      rcases eq_or_ne p r with rfl | hne
      · simp
      · simp [hne, hne.symm]
  | @expire r hphase hproc hpc => simp [finishing, hphase, hproc, hpc]
  | @resume r hphase hproc hpc => simp [finishing, hphase, hproc, hpc]
  | putMlq hphase hproc henq =>
      obtain ⟨sched, -, rfl⟩ := enqueueLevel_cases henq
      simp [finishing, hphase]
  | idleGet hphase hproc => simp [finishing, hphase, hproc]
  | nextGet hphase | putReady hphase | exit hphase | skip hphase | dispatch hphase
  | runNothing hphase | fetch hphase | exec hphase | slot hphase | detach hphase =>
      simp [finishing, hphase]

/-- A process that finishes has been handed to the scheduler. -/
theorem lt_of_finishing {s : Os cfg} {a : Act cfg} {p : Nat} (hs : Owned s)
    (h : s.finishing a = some p) : p < s.ld.i := by
  cases a with
  | cpu c =>
      simp only [finishing] at h
      split at h
      · next q hphase hproc =>
        split at h
        · cases h
          have hheld := one_le_heldBy (s := s) (c := c) (p := p) (by simp [Cpu.held, hphase, hproc])
          have hone := hs.one p
          by_contra hlt
          rw [places, if_pos (show s.ld.i ≤ p by omega)] at hone
          omega
        · cases h
      · cases h
  | loader | tick | killReady | killRunning => cases h

end Os

/-! ## The list stays exact -/

namespace Census

open Os

variable {cfg : Config}

/-- What holds along a run whose actions keep the list. -/
structure Exact (t : Census cfg) : Prop where
  owned : Owned t.os
  list : ListExact t
  /-- The loader has added the processes below its index, and in the middle of `add_proc` that one
  too. -/
  added_iff : ∀ p, t.added p = true ↔
    p < t.os.ld.i ∨ (p = t.os.ld.i ∧ t.os.ld.phase = .addMlq)
  freed_added : ∀ p, t.os.freed p = true → t.added p = true
  killed_added : ∀ p, t.killed p = true → t.added p = true

theorem exact_init (cfg : Config) : Exact (init cfg) where
  owned := owned_init cfg
  list := ⟨List.nodup_nil, fun o => by simp [init, Live, Os.init, Sched.initScheduler]⟩
  added_iff p := by simp [init, Os.init]
  freed_added p h := by cases h
  killed_added p h := by cases h

theorem step_cases {t t' : Census cfg} {a : Act cfg} (h : t.step a = some t') :
    t.os.step a = some t'.os ∧ (∀ p, t'.added p = (t.added p || t.os.adding a == some p)) ∧
      ∀ p, t'.killed p = (t.killed p || t.os.killing a == some p) := by
  obtain ⟨s, hs, rfl⟩ := Option.map_eq_some_iff.mp h
  exact ⟨hs, fun _ => rfl, fun _ => rfl⟩

/-- Every run of the simulator has its census. -/
theorem census_of_steps {s : Os cfg} {as : List (Act cfg)}
    (hrun : Steps (Steps.Meeting LoopTest Os.Step) (Os.init cfg) as s) :
    ∃ t, Steps Step (init cfg) as t ∧ t.os = s := by
  have hinit : (init cfg).os = Os.init cfg := rfl
  obtain ⟨t, ht, rfl⟩ := hrun.simulate (Q := Step) (fun s t => t.os = s) hinit
    fun s a s' t hrel hstep => by
      subst hrel
      refine ⟨⟨s', fun p => t.added p || t.os.adding a == some p,
        fun p => t.killed p || t.os.killing a == some p⟩, ⟨hstep.1, ?_⟩, rfl⟩
      rw [step, show t.os.step a = some s' from hstep.2, Option.map_some]
  exact ⟨t, ht, rfl⟩

/-- An action that leaves the list and the record alone keeps the invariant. -/
theorem Exact.of_frame {t t' : Census cfg} (ht : Exact t) (howned : Owned t'.os)
    (hlist : t'.os.sched.runningList = t.os.sched.runningList) (hfreed : t'.os.freed = t.os.freed)
    (hadded : ∀ p, t'.added p = t.added p) (hkilled : ∀ p, t'.killed p = t.killed p)
    (hld : ∀ p, (p < t'.os.ld.i ∨ (p = t'.os.ld.i ∧ t'.os.ld.phase = .addMlq)) ↔
      p < t.os.ld.i ∨ (p = t.os.ld.i ∧ t.os.ld.phase = .addMlq)) : Exact t' where
  owned := howned
  list := by
    refine ⟨by rw [hlist]; exact ht.list.nodup, fun o => ?_⟩
    simp only [hlist, ht.list.mem_iff, Live, hadded, hkilled, hfreed]
  added_iff p := by rw [hadded, hld, ht.added_iff]
  freed_added p h := by
    rw [hadded]
    exact ht.freed_added p (hfreed ▸ h)
  killed_added p h := by
    rw [hadded]
    exact ht.killed_added p (hkilled p ▸ h)

theorem Exact.cpuStep {t t' : Census cfg} {c : Fin cfg.numCpus} (ht : Exact t)
    (hkeeps : KeepsList t (.cpu c)) (h : CpuStep t.os c t'.os)
    (hadded : ∀ p, t'.added p = t.added p) (hkilled : ∀ p, t'.killed p = t.killed p) :
    Exact t' := by
  have hlist := runningList_cpuStep ht.owned.sorted h
  have hld := (ld_cpuStep h).1
  have hfreed := freed_finishing h
  refine ⟨ht.owned.cpuStep h, ⟨by rw [hlist]; exact ht.list.nodup, fun o => ?_⟩,
    fun p => by rw [hadded, hld, ht.added_iff], fun p hp => ?_, fun p hp => ?_⟩
  · rw [hlist]
    constructor
    · intro ho
      obtain ⟨p, rfl, hadd, hfr, hkl⟩ := ht.list.mem_iff o |>.mp ho
      -- who finishes is not on the list
      have hstays : t.os.finishing (.cpu c) ≠ some p := fun hfin => hkeeps.1 p hfin ho
      exact ⟨p, rfl, by rw [hadded, hadd], by rw [hfreed, hfr]; simpa using hstays,
        by rw [hkilled, hkl]⟩
    · rintro ⟨p, rfl, hadd, hfr, hkl⟩
      rw [hfreed, Bool.or_eq_false_iff] at hfr
      exact (ht.list.mem_iff _).mpr ⟨p, rfl, by rw [← hadded, hadd], hfr.1, by rw [← hkilled, hkl]⟩
  · rw [hadded]
    rw [hfreed, Bool.or_eq_true, beq_iff_eq] at hp
    rcases hp with hold | hfin
    · exact ht.freed_added p hold
    · exact (ht.added_iff p).mpr (.inl (lt_of_finishing ht.owned hfin))
  · rw [hadded]
    exact ht.killed_added p (hkilled p ▸ hp)

/-- `add_proc` enters a process that was not on the list. -/
theorem Exact.addRunning {t t' : Census cfg} (ht : Exact t) (hphase : t.os.ld.phase = .addRunning)
    (hroom : t.os.sched.runningList.size < maxQueueSize) (howned : Owned t'.os)
    (hlist : t'.os.sched.runningList = t.os.sched.runningList.enqueue (some t.os.ld.i))
    (hfreed : t'.os.freed = t.os.freed) (hld : t'.os.ld = ⟨.addMlq, t.os.ld.i⟩)
    (hadded : ∀ p, t'.added p = (t.added p || some t.os.ld.i == some p))
    (hkilled : ∀ p, t'.killed p = t.killed p) : Exact t' := by
  have hnew : t.added t.os.ld.i = false := by
    rw [Bool.eq_false_iff, ne_eq, ht.added_iff]
    simp [hphase]
  have hfr : t.os.freed t.os.ld.i = false := by
    rw [Bool.eq_false_iff]
    exact fun h => absurd (ht.freed_added _ h) (by simp [hnew])
  have hkl : t.killed t.os.ld.i = false := by
    rw [Bool.eq_false_iff]
    exact fun h => absurd (ht.killed_added _ h) (by simp [hnew])
  have hentries : t'.os.sched.runningList.entries =
      t.os.sched.runningList.entries ++ [some t.os.ld.i] := by
    rw [hlist, Queue.entries_enqueue, if_pos hroom]
  refine ⟨howned, ⟨?_, fun o => ?_⟩, fun p => ?_, fun p hp => ?_, fun p hp => ?_⟩
  · rw [hentries, List.nodup_append]
    refine ⟨ht.list.nodup, List.nodup_singleton _, fun o ho o' ho' => ?_⟩
    rintro rfl
    obtain ⟨p, hp, hadd, -⟩ := (ht.list.mem_iff o).mp ho
    obtain rfl : o = some t.os.ld.i := by simpa using ho'
    cases hp
    rw [hnew] at hadd
    cases hadd
  · rw [hentries, List.mem_append, ht.list.mem_iff, List.mem_singleton]
    constructor
    · rintro (⟨p, rfl, hadd, hfrp, hklp⟩ | rfl)
      · exact ⟨p, rfl, by simp [hadded, hadd], by rw [hfreed, hfrp], by rw [hkilled, hklp]⟩
      · exact ⟨_, rfl, by simp [hadded], by rw [hfreed, hfr], by rw [hkilled, hkl]⟩
    · rintro ⟨p, rfl, hadd, hfrp, hklp⟩
      rw [hadded, Bool.or_eq_true, beq_iff_eq] at hadd
      rcases hadd with hold | heq
      · exact .inl ⟨p, rfl, hold, by rw [← hfreed, hfrp], by rw [← hkilled, hklp]⟩
      · exact .inr heq.symm
  · simp only [hadded, hld, Bool.or_eq_true, beq_iff_eq, Option.some.injEq, ht.added_iff, hphase]
    constructor
    · rintro ((hlt | ⟨-, hcontra⟩) | heq)
      · exact .inl hlt
      · cases hcontra
      · exact .inr ⟨heq.symm, trivial⟩
    · rintro (hlt | ⟨heq, -⟩)
      · exact .inl (.inl hlt)
      · exact .inr heq.symm
  · rw [hadded, ht.freed_added p (hfreed ▸ hp)]
    rfl
  · rw [hadded, ht.killed_added p (hkilled p ▸ hp)]
    rfl

theorem Exact.ldStep {t t' : Census cfg} (ht : Exact t) (hkeeps : KeepsList t .loader)
    (h : LdStep t.os t'.os) (hadded : ∀ p, t'.added p = (t.added p || t.os.adding .loader == some p))
    (hkilled : ∀ p, t'.killed p = t.killed p) : Exact t' := by
  have howned : Owned t'.os := ht.owned.of_frame (sorted_ldStep ht.owned.sorted h)
    (fun p => (places_ldStep h p).1) (frame_ldStep h)
  have hfreed := (frame_ldStep h).2.2.2
  -- outside of the first critical section of `add_proc` nobody is added
  have hquiet : t.os.ld.phase ≠ .addRunning → ∀ p, t'.added p = t.added p := fun hne p => by
    simp [hadded, adding, hne]
  cases t' with
  | mk os added killed =>
    cases h with
    | addRunning hphase =>
        refine ht.addRunning hphase (hkeeps.2 (by simp [adding, hphase])) howned rfl hfreed rfl
          (fun p => ?_) hkilled
        simpa only [adding, hphase, if_true] using hadded p
    | addMlq hphase henq =>
        obtain ⟨sched, hok, rfl⟩ := enqueueLevel_cases henq
        obtain ⟨hp, rfl⟩ := Sched.enqueueMlq_cases hok
        refine ht.of_frame howned rfl hfreed (hquiet (by simp [hphase])) hkilled fun p => ?_
        simp only [hphase, reduceCtorEq, and_false, or_false, and_true]
        omega
    | early hphase | start hphase | setDone hphase | slot hphase | detach hphase =>
        exact ht.of_frame howned rfl hfreed (hquiet (by simp [hphase])) hkilled fun p => by
          simp [hphase]

/-- `killall` takes the process at its index out, and nobody else. -/
theorem Exact.killRunning {t t' : Census cfg} {idx : Nat} {q : Queue Nat} (ht : Exact t)
    (hloop : idx < t.os.sched.runningList.size)
    (hremove : t.os.sched.runningList.removeFromQueue idx = .ok q) (howned : Owned t'.os)
    (hos : t'.os = { t.os with sched := { t.os.sched with runningList := q } })
    (hadded : ∀ p, t'.added p = t.added p)
    (hkilled : ∀ p, t'.killed p = (t.killed p || t.os.sched.runningList.proc idx == some p)) :
    Exact t' := by
  have hlen : idx < t.os.sched.runningList.entries.length := by rwa [Queue.length_entries]
  have hentry : t.os.sched.runningList.entries[idx] = t.os.sched.runningList.proc idx := by
    have hget := Queue.getElem?_entries hloop
    rw [List.getElem?_eq_getElem hlen] at hget
    exact Option.some.inj hget
  have hentries : t'.os.sched.runningList.entries =
      t.os.sched.runningList.entries.erase (t.os.sched.runningList.proc idx) := by
    have hq : q = t.os.sched.runningList.closeGap idx := by
      unfold Queue.removeFromQueue at hremove
      rw [if_neg (by omega)] at hremove
      cases hremove
      rfl
    rw [hos, ← hentry, ht.list.nodup.erase_getElem]
    exact hq ▸ Queue.entries_closeGap _ hloop
  have hnodup := ht.list.nodup
  refine ⟨howned, ⟨?_, fun o => ?_⟩, fun p => ?_, fun p hp => ?_, fun p hp => ?_⟩
  · rw [hentries]
    exact hnodup.erase _
  · rw [hentries, hnodup.mem_erase_iff, ht.list.mem_iff]
    constructor
    · rintro ⟨hne, p, rfl, hadd, hfr, hkl⟩
      exact ⟨p, rfl, by rw [hadded, hadd], by rw [hos, hfr],
        by rw [hkilled, hkl]; simpa using hne.symm⟩
    · rintro ⟨p, rfl, hadd, hfr, hkl⟩
      rw [hkilled, Bool.or_eq_false_iff, beq_eq_false_iff_ne] at hkl
      rw [hos] at hfr
      exact ⟨hkl.2.symm, p, rfl, by rw [← hadded, hadd], hfr, hkl.1⟩
  · rw [hadded, hos, ht.added_iff]
  · rw [hadded]
    rw [hos] at hp
    exact ht.freed_added p hp
  · rw [hadded]
    rw [hkilled, Bool.or_eq_true, beq_iff_eq] at hp
    rcases hp with hold | hfound
    · exact ht.killed_added p hold
    · -- who is found on the list was added
      have hmem : some p ∈ t.os.sched.runningList.entries := by
        rw [← hfound, ← hentry]
        exact List.getElem_mem hlen
      obtain ⟨r, hr, hadd, -⟩ := (ht.list.mem_iff _).mp hmem
      cases hr
      exact hadd

theorem Exact.step {t t' : Census cfg} {a : Act cfg} (ht : Exact t) (hkeeps : KeepsList t a)
    (h : Step t a t') : Exact t' := by
  obtain ⟨hloop, hstep⟩ := h
  obtain ⟨hos, hadded, hkilled⟩ := step_cases hstep
  have howned : Owned t'.os := ht.owned.step hos
  cases a with
  | cpu c =>
      exact ht.cpuStep hkeeps (cpuStep_cases hos) (by simpa [adding] using hadded)
        (by simpa [killing] using hkilled)
  | loader => exact ht.ldStep hkeeps (ldStep_cases hos) hadded (by simpa [killing] using hkilled)
  | tick =>
      obtain ⟨-, -, htick⟩ := tick_cases hos
      refine ht.of_frame howned (by rw [htick]) (by rw [htick]) (by simpa [adding] using hadded)
        (by simpa [killing] using hkilled) fun p => ?_
      simp only [htick, releaseLd]
      split
      · next hphase => simp [hphase]
      · rfl
  | killReady idx =>
      simp only [Os.step] at hos
      split at hos
      · cases hos
      · next q hq =>
        have hos' := Option.some.inj hos
        exact ht.of_frame howned (by rw [← hos']) (by rw [← hos']) (by simpa [adding] using hadded)
          (by simpa [killing] using hkilled) fun p => by rw [← hos']
  | killRunning idx =>
      simp only [Os.step] at hos
      split at hos
      · cases hos
      · next q hq =>
        exact ht.killRunning hloop hq howned (Option.some.inj hos).symm
          (by simpa [adding] using hadded) hkilled

/-- Where an action does not keep the list, the list is wrong right after it. -/
theorem Exact.listExact_step_iff {t t' : Census cfg} {a : Act cfg} (ht : Exact t)
    (h : Step t a t') : ListExact t' ↔ KeepsList t a := by
  refine ⟨fun hexact => ⟨fun p hfin hmem => ?_, fun hadd => ?_⟩, fun hkeeps => (ht.step hkeeps h).list⟩
  · -- who finished is not live
    obtain ⟨hos, -, -⟩ := step_cases h.2
    cases a with
    | cpu c =>
        have hc := cpuStep_cases hos
        rw [← runningList_cpuStep ht.owned.sorted hc, hexact.mem_iff] at hmem
        obtain ⟨r, hr, -, hfreed, -⟩ := hmem
        cases hr
        rw [freed_finishing hc, show t.os.finishing (.cpu c) = some p from hfin] at hfreed
        simp at hfreed
    | loader | tick | killReady | killRunning => cases hfin
  · -- who was refused is live
    by_contra hfull
    obtain ⟨hos, hadded, hkilled⟩ := step_cases h.2
    cases a with
    | loader =>
        have hl := ldStep_cases hos
        have hphase : t.os.ld.phase = .addRunning := by
          by_contra hne
          simp [adding, hne] at hadd
        have hnew : ¬ t.added t.os.ld.i = true := by simp [ht.added_iff, hphase]
        have hlist : t'.os.sched.runningList.entries = t.os.sched.runningList.entries := by
          rw [Os.step, Os.ldStep, hphase] at hos
          rw [← Option.some.inj hos]
          exact (Queue.entries_enqueue _ _).trans (if_neg hfull)
        have hlive : t'.Live t.os.ld.i := by
          refine ⟨by simp [hadded, adding, hphase], ?_, ?_⟩
          · rw [(frame_ldStep hl).2.2.2, Bool.eq_false_iff]
            exact fun hfr => hnew (ht.freed_added _ hfr)
          · rw [hkilled, Bool.or_eq_false_iff, Bool.eq_false_iff]
            exact ⟨fun hkl => hnew (ht.killed_added _ hkl), by simp [killing]⟩
        have hmem := (hexact.mem_iff _).mpr ⟨_, rfl, hlive⟩
        rw [hlist, ht.list.mem_iff] at hmem
        obtain ⟨r, hr, hold, -⟩ := hmem
        cases hr
        exact hnew hold
    | cpu | tick | killReady | killRunning => simp [adding] at hadd

/-- **`running_list` is exact as long as nobody on it finishes and it has room.** In every state of
a run of any number of processes and CPUs, in which no process is freed that is still on the list
and `add_proc` never finds the list full, its entries are pairwise distinct and are the processes
that were added and have neither finished nor been killed. -/
theorem running_list_exact {t : Census cfg} {as : List (Act cfg)}
    (hrun : Steps (Steps.Meeting KeepsList Step) (init cfg) as t) : ListExact t := by
  have ht : Exact t :=
    hrun.state_invariant (exact_init cfg) fun _ _ _ ht hR => ht.step hR.1 hR.2
  exact ht.list

/-- Executing actions that keep the list is a run of the result above. -/
theorem steps_of_exec {t t' : Census cfg} {as : List (Act cfg)}
    (h : Steps.exec (Steps.checked (fun (t : Census cfg) a => t.os.KeepsList a ∧ t.os.LoopTest a)
      Census.step) t as = some t') : Steps (Steps.Meeting KeepsList Step) t as t' :=
  (Steps.of_exec_checked h).mono fun _ _ _ hR => ⟨hR.1.1, hR.1.2, hR.2⟩

/-- The only process is killed while CPU `c` runs it; then it finishes. CPU `d` goes round. -/
def killedThenFinished (c d : Fin cfg.numCpus) : List (Act cfg) :=
  [.loader, .loader, .loader, .cpu c, .cpu c, .cpu c, .killRunning 0, .cpu c, .cpu c, .cpu d,
    .cpu d, .loader, .tick, .cpu c]

theorem running_list_exact_killed :
    ∃ t, Steps (Steps.Meeting KeepsList Step) (init oneProcess) (killedThenFinished 0 1) t ∧
      ListExact t ∧ t.os.freed 0 = true ∧ t.killed 0 = true := by
  have hcheck : (Steps.exec (Steps.checked
      (fun (t : Census oneProcess) a => t.os.KeepsList a ∧ t.os.LoopTest a) Census.step)
      (init oneProcess) (killedThenFinished 0 1)).any
        (fun t => decide (t.os.freed 0 = true ∧ t.killed 0 = true)) = true := by
    decide +kernel
  obtain ⟨t, ht, hfacts⟩ := (Option.any_eq_true _ _).mp hcheck
  have hrun := steps_of_exec ht
  exact ⟨t, hrun, running_list_exact hrun, of_decide_eq_true hfacts⟩

/-- Without the kill, the process is freed and stays on the list. -/
theorem freed_process_listed :
    ∃ (as : List (Act oneProcess)) (t : Census oneProcess), Steps Step (init oneProcess) as t ∧
      t.os.freed 0 = true ∧ some 0 ∈ t.os.sched.runningList.entries ∧ ¬ ListExact t := by
  have hcheck : (Steps.exec (Steps.checked (fun (t : Census oneProcess) a => t.os.LoopTest a)
      Census.step) (init oneProcess)
      ((killedThenFinished 0 1).filter fun a => decide (a ≠ .killRunning 0))).any
        (fun t => decide (t.os.freed 0 = true ∧ some 0 ∈ t.os.sched.runningList.entries)) = true := by
    decide +kernel
  obtain ⟨t, ht, hfacts⟩ := (Option.any_eq_true _ _).mp hcheck
  obtain ⟨hfreed, hmem⟩ := of_decide_eq_true hfacts
  refine ⟨_, t, Steps.of_exec_checked ht, hfreed, hmem, fun hexact => ?_⟩
  obtain ⟨p, hp, -, hlive, -⟩ := (hexact.mem_iff _).mp hmem
  cases hp
  rw [hfreed] at hlive
  cases hlive

end Census

end Ossim
