import Mathlib.Algebra.BigOperators.Group.Finset.Piecewise
import Mathlib.Algebra.BigOperators.Ring.Finset
import Mathlib.Data.Fintype.Pi
import Ossim.Os.Completion
import Ossim.Os.Quantum
import Ossim.Os.Timing

/-!
# When everybody has finished

`Ossim.Os.Completion` says that nobody is abandoned; this file says when everybody is done. The cost of a
process is what it may still take of the time: two slots for an instruction, one in which a CPU runs it and
one in which a `get_proc` returns `NULL` because it refills the slots instead; one in which it is freed;
and one in which it is loaded. `outstanding` adds these up. What a CPU that runs a process has begun to
pay, `Cpu.paid`, is taken off, and a refill to come, `refill`, is added.

No action raises the outstanding cost (`spends_cpuStep`, `spends_ldStep`). A slot in which it stays the
same is `Quiet` to its end, and then there was nothing to do but to wait for a process to come.
-/

namespace Ossim

/-- In this slot the CPU still comes to a `get_proc`, or to `run`. -/
def Cpu.Pending (l : Cpu) : Prop := l.Alive ∧ l.phase ≠ .slot ∧ l.phase ≠ .waiting

/-- The CPU is past its `get_proc`s, and before the end of `run`. -/
def CpuPhase.toRun : CpuPhase → Bool
  | .recheck | .run | .exec _ => true
  | _ => false

/-- The CPU has been in `run` in this slot, or comes from the last one. -/
def CpuPhase.hasRun : CpuPhase → Bool
  | .slot | .waiting | .check => true
  | _ => false

/-- What a CPU has paid of the cost of the process it holds: the refill for the instruction it is about
to run, and for a process at its end the slot of its last one. -/
def Cpu.paid (cfg : Config) (pc : Nat → Nat) (l : Cpu) : Nat :=
  match l.held with
  | none => 0
  | some p =>
    if l.phase.toRun then 1
    else if l.phase.hasRun ∧ pc p = (cfg.code p).length then 2
    else 0

namespace Os

variable {cfg : Config}

/-- What a process may still cost. -/
def owes (s : Os cfg) (p : Nat) : Nat :=
  if s.freed p then 0
  else 2 * max 1 ((cfg.code p).length - s.pc p) + 1 + (if s.ld.i ≤ p then 1 else 0)

/-- The slots can be refilled only when they are not full. -/
def refill (s : Os cfg) : Nat := if s.sched.slot = Sched.fullSlots then 0 else 1

/-- What all processes may still cost. -/
def outstanding (s : Os cfg) : Int :=
  (∑ p ∈ Finset.range cfg.numProcesses, s.owes p : Nat) + (s.refill : Int) -
    (∑ c, (s.cpu c).paid cfg s.pc : Nat)

/-- In this slot nobody has run, finished or been loaded, and no slots were refilled. -/
structure Quiet (s : Os cfg) : Prop where
  cpu : ∀ c, (s.cpu c).phase = .slot ∨ (s.cpu c).phase = .waiting → (s.cpu c).proc = none
  ld : s.ld.phase = .slot ∨ s.ld.phase = .waiting →
    s.ld.i < cfg.numProcesses ∧ s.time < cfg.startTime s.ld.i
  taken : (∃ l, s.sched.waiting l ≠ []) → ∃ c, (s.cpu c).Pending

variable {s s' : Os cfg} {c : Fin cfg.numCpus}

/-! ## What an action adds and takes -/

theorem paid_of_unheld {pc : Nat → Nat} {l : Cpu} (h : l.held = none) : l.paid cfg pc = 0 := by
  simp [Cpu.paid, h]

/-- Another CPU does not change what this one has paid. -/
theorem paid_cpuStep (hs : Owned s) (h : CpuStep s c s') :
    (∑ d, (s'.cpu d).paid cfg s'.pc) + (s.cpu c).paid cfg s.pc =
      (∑ d, (s.cpu d).paid cfg s.pc) + (s'.cpu c).paid cfg s'.pc := by
  have hothers : (fun d => (s'.cpu d).paid cfg s'.pc) =
      Function.update (fun d => (s.cpu d).paid cfg s.pc) c ((s'.cpu c).paid cfg s'.pc) := by
    funext d
    rcases eq_or_ne d c with rfl | hne
    · rw [Function.update_self]
    · rw [Function.update_of_ne hne, cpu_cpuStep_of_ne h hne]
      cases hheld : (s.cpu d).held with
      | none => rw [paid_of_unheld hheld, paid_of_unheld hheld]
      | some p =>
          have hpc := pc_cpuStep_of_ne hs h hne hheld
          simp only [Cpu.paid, hheld, hpc]
  have hsum := FamilySum.sum_update_add_of_mem (Finset.mem_univ c)
    (fun d => (s.cpu d).paid cfg s.pc) ((s'.cpu c).paid cfg s'.pc)
  rw [← hothers] at hsum
  exact hsum

/-- Only one process has another cost. -/
theorem owed_of_others {p : Nat} (hp : p < cfg.numProcesses)
    (hothers : ∀ r, r ≠ p → s'.owes r = s.owes r) :
    (∑ r ∈ Finset.range cfg.numProcesses, s'.owes r) + s.owes p =
      (∑ r ∈ Finset.range cfg.numProcesses, s.owes r) + s'.owes p := by
  have hupd : s'.owes = Function.update s.owes p (s'.owes p) := by
    funext r
    rcases eq_or_ne r p with rfl | hne
    · rw [Function.update_self]
    · rw [Function.update_of_ne hne, hothers r hne]
  have hsum := FamilySum.sum_update_add_of_mem (Finset.mem_range.mpr hp) s.owes (s'.owes p)
  rw [← hupd] at hsum
  exact hsum

/-- `get_proc` takes a slot or fills them all. -/
theorem refill_le_one (s : Os cfg) : s.refill ≤ 1 := by
  unfold refill
  split <;> omega

theorem owes_congr (hpc : s'.pc = s.pc) (hfreed : s'.freed = s.freed) (hld : s'.ld.i = s.ld.i) :
    s'.owes = s.owes := by
  funext p
  unfold owes
  rw [hpc, hfreed, hld]

/-- A slot stays quiet if the CPU comes out of the action without a process to wait with, and somebody
still comes to the ones that wait. -/
theorem Quiet.cpuStep (hq : Quiet s) (h : CpuStep s c s')
    (hslot : (s'.cpu c).phase = .slot ∨ (s'.cpu c).phase = .waiting → (s'.cpu c).proc = none)
    (htaken : (s'.cpu c).Pending ∨ (¬ (s.cpu c).Pending ∧ s'.sched = s.sched) ∨
      ∀ l, s'.sched.waiting l = []) : Quiet s' := by
  obtain ⟨hld, -⟩ := ld_cpuStep h
  refine ⟨fun d hd => ?_, ?_, fun hwait => ?_⟩
  · rcases eq_or_ne d c with rfl | hne
    · exact hslot hd
    · rw [cpu_cpuStep_of_ne h hne] at hd ⊢
      exact hq.cpu d hd
  · rw [hld, time_cpuStep h]
    exact hq.ld
  · rcases htaken with hpending | ⟨hnot, hsched⟩ | hnone
    · exact ⟨c, hpending⟩
    · rw [hsched] at hwait
      obtain ⟨d, hd⟩ := hq.taken hwait
      have hne : d ≠ c := by
        rintro rfl
        exact hnot hd
      exact ⟨d, by rw [cpu_cpuStep_of_ne h hne]; exact hd⟩
    · obtain ⟨l, hl⟩ := hwait
      exact absurd (hnone l) hl

/-- A `get_proc` refills the slots, which the refill to come has paid for, or it takes a process, which
pays for the next one, or it leaves things as they are. -/
theorem spends_get {g : Got Nat} (hs : Conserved s) (h : CpuStep s c s')
    (hget : s.sched.getMlqProc cfg.prio = .ok g) (hsched : s'.sched = g.sched)
    (howes : s'.owes = s.owes) (hunheld : (s.cpu c).held = none) (hproc : (s'.cpu c).proc = g.proc)
    (hphase : (s'.cpu c).phase = if (s.cpu c).phase = .check ∧ g.proc = none then .slot else .recheck) :
    s'.outstanding < s.outstanding ∨
      s'.outstanding ≤ s.outstanding ∧ (Quiet s → Quiet s') := by
  have hpaid := paid_cpuStep hs.owned h
  rw [paid_of_unheld hunheld] at hpaid
  cases Sched.getMlqProc_cases hs.owned.sorted hget with
  | idle hnone =>
      right
      have hheld : (s'.cpu c).held = none := by
        unfold Cpu.held
        rw [hproc]
        split <;> rfl
      rw [paid_of_unheld hheld] at hpaid
      have hrefill : s'.refill = s.refill := by
        unfold refill
        rw [hsched]
      refine ⟨?_, fun hq => hq.cpuStep h (fun _ => hproc) (.inr (.inr ?_))⟩
      · unfold outstanding
        rw [howes, hrefill]
        omega
      · rw [hsched]
        exact hnone
  | replenish hsome hspent =>
      left
      have hheld : (s'.cpu c).held = none := by
        unfold Cpu.held
        rw [hproc]
        split <;> rfl
      rw [paid_of_unheld hheld] at hpaid
      -- a level without slots is not full of them
      have hrefill : s.refill = 1 := by
        unfold refill
        rw [if_neg]
        intro hfull
        obtain ⟨l, hl⟩ := hsome
        have := hspent l hl
        rw [hfull, Sched.fullSlots] at this
        omega
      have hrefill' : s'.refill = 0 := by
        unfold refill
        rw [hsched, if_pos rfl]
      unfold outstanding
      rw [howes]
      omega
  | @dispatch l p rest q hhead hslot hfirst hq =>
      right
      have hrecheck : (s'.cpu c).phase = .recheck := by simpa using hphase
      have hheld : (s'.cpu c).held = some p := by
        unfold Cpu.held
        rw [hrecheck, hproc]
      have hone : (s'.cpu c).paid cfg s'.pc = 1 := by
        unfold Cpu.paid
        rw [hheld, hrecheck]
        rfl
      have hrefill := refill_le_one s'
      refine ⟨?_, fun hq => hq.cpuStep h (fun hp => ?_) (.inl ?_)⟩
      · unfold outstanding
        rw [howes]
        omega
      · rw [hrecheck] at hp
        simp at hp
      · simp [Cpu.Pending, Cpu.Alive, Cpu.Left, hrecheck, hproc]

/-- What a CPU has paid, at a process it holds. -/
theorem paid_of_held {pc : Nat → Nat} {l : Cpu} {p : Nat} (hheld : l.held = some p) :
    l.paid cfg pc =
      if l.phase.toRun then 1 else if l.phase.hasRun ∧ pc p = (cfg.code p).length then 2 else 0 := by
  simp [Cpu.paid, hheld]

/-- A CPU action that leaves the processes and the slots of the levels as they are. -/
theorem spends_move (hs : Conserved s) (h : CpuStep s c s') (howes : s'.owes = s.owes)
    (hslots : s'.sched.slot = s.sched.slot)
    (hpaid : (s.cpu c).paid cfg s.pc ≤ (s'.cpu c).paid cfg s'.pc)
    (hslot : Quiet s → (s'.cpu c).phase = .slot ∨ (s'.cpu c).phase = .waiting → (s'.cpu c).proc = none)
    (hpending : (s'.cpu c).Pending ∨ ¬ (s.cpu c).Pending ∧ s'.sched = s.sched) :
    s'.outstanding ≤ s.outstanding ∧ (Quiet s → Quiet s') := by
  have hsum := paid_cpuStep hs.owned h
  have hrefill : s'.refill = s.refill := by
    unfold refill
    rw [hslots]
  refine ⟨?_, fun hq => hq.cpuStep h (hslot hq) (hpending.imp_right .inl)⟩
  unfold outstanding
  rw [howes, hrefill]
  omega

/-- One process becomes cheaper, by more than what the CPUs get back. -/
theorem outstanding_lt {p a b : Nat} (hp : p < cfg.numProcesses)
    (hothers : ∀ r, r ≠ p → s'.owes r = s.owes r) (hslots : s'.sched.slot = s.sched.slot)
    (hpaid : (∑ d, (s'.cpu d).paid cfg s'.pc) + a = (∑ d, (s.cpu d).paid cfg s.pc) + b)
    (hcost : s'.owes p + a < s.owes p + b) : s'.outstanding < s.outstanding := by
  have howed := owed_of_others hp hothers
  have hrefill : s'.refill = s.refill := by
    unfold refill
    rw [hslots]
  unfold outstanding
  rw [hrefill]
  omega

/-- A CPU action that only changes the process the CPU holds. -/
theorem spends_own {p : Nat} (hs : Conserved s) (h : CpuStep s c s')
    (hheld : (s.cpu c).held = some p) (hslots : s'.sched.slot = s.sched.slot)
    (hothers : ∀ r, r ≠ p → s'.pc r = s.pc r ∧ s'.freed r = s.freed r)
    (hcost : s'.owes p + (s.cpu c).paid cfg s.pc < s.owes p + (s'.cpu c).paid cfg s'.pc) :
    s'.outstanding < s.outstanding := by
  have hp : p < cfg.numProcesses := lt_of_lt_of_le (lt_index_of_held hs.owned hheld) hs.index_le
  refine outstanding_lt hp (fun r hr => ?_) hslots (paid_cpuStep hs.owned h) hcost
  obtain ⟨hpc, hfreed⟩ := hothers r hr
  unfold owes
  rw [hpc, hfreed, (ld_cpuStep h).1]

/-- **A CPU never raises the outstanding cost.** It lowers it when it runs an instruction, frees a process
or refills the slots, and otherwise it leaves a quiet slot quiet. -/
theorem spends_cpuStep (hs : Conserved s) (h : CpuStep s c s') :
    s'.outstanding < s.outstanding ∨
      s'.outstanding ≤ s.outstanding ∧ (Quiet s → Quiet s') := by
  have hstep := h
  cases h with
  | @idleGet g hphase hproc hget =>
      refine spends_get hs hstep hget rfl (owes_congr rfl rfl rfl) ?_ ?_ ?_
      · simp [Cpu.held, hphase, hproc]
      · simp
      · cases hg : g.proc <;> simp [hphase]
  | @nextGet g hphase hget =>
      refine spends_get hs hstep hget rfl (owes_congr rfl rfl rfl) ?_ ?_ ?_
      · simp [Cpu.held, hphase]
      · simp
      · simp [hphase]
  | @finish p hphase hproc hpc =>
      have hheld : (s.cpu c).held = some p := by simp [Cpu.held, hphase, hproc]
      have hlive := freed_of_held (hs.owned.one p) hheld
      refine .inl (spends_own hs hstep hheld rfl (fun r hr => ?_) ?_)
      · exact ⟨rfl, Function.update_of_ne hr _ _⟩
      · rw [paid_of_held hheld]
        simp [owes, hlive, hphase, hpc, CpuPhase.toRun, CpuPhase.hasRun, Cpu.paid, Cpu.held]
        omega
  | @runNothing p hphase hproc hpc =>
      have hheld : (s.cpu c).held = some p := by simp [Cpu.held, hphase, hproc]
      have hend : s.pc p = (cfg.code p).length :=
        Nat.le_antisymm (hs.owned.pc_le p) (List.getElem?_eq_none_iff.mp hpc)
      refine .inl (spends_own hs hstep hheld rfl (fun r hr => ⟨rfl, rfl⟩) ?_)
      rw [paid_of_held hheld]
      simp [owes, hphase, hproc, hend, CpuPhase.toRun, CpuPhase.hasRun, Cpu.paid, Cpu.held]
  | @exec p ins hphase hproc =>
      have hheld := held_of_exec hphase hproc
      have hlive := freed_of_held (hs.owned.one p) hheld
      obtain ⟨r, hr, hget⟩ := hs.owned.fetched c ins hphase
      obtain rfl : p = r := Option.some.inj (hproc.symm.trans hr)
      have hlt := (List.getElem?_eq_some_iff.mp hget).1
      refine .inl (spends_own hs hstep hheld rfl (fun r hr => ?_) ?_)
      · exact ⟨Function.update_of_ne hr _ _, rfl⟩
      · have hpaid : (s.cpu c).paid cfg s.pc = 1 := by
          rw [paid_of_held hheld, hphase]
          rfl
        have hadded := lt_index_of_held hs.owned hheld
        have hold : s.owes p = 2 * max 1 ((cfg.code p).length - s.pc p) + 1 := by
          simp [owes, hlive, Nat.not_le.mpr hadded]
        rw [hpaid, hold]
        simp only [owes, hlive, setCpu_freed, setCpu_pc, setCpu_ld, setCpu_cpu, Function.update_self,
          Bool.false_eq_true, if_false, if_neg (Nat.not_le.mpr hadded), Cpu.paid, Cpu.held, hproc,
          CpuPhase.toRun, CpuPhase.hasRun, true_and]
        split <;> omega
  | @expire p hphase hproc hpc htime =>
      refine .inr (spends_move hs hstep (owes_congr rfl rfl rfl) rfl ?_ (by simp) (.inl ?_))
      · simp [Cpu.paid, Cpu.held, hphase, hproc, hpc, CpuPhase.toRun]
      · simp [Cpu.Pending, Cpu.Alive, Cpu.Left]
  | @resume p hphase hproc hpc htime =>
      refine .inr (spends_move hs hstep (owes_congr rfl rfl rfl) rfl ?_ (by simp) (.inl ?_))
      · simp [Cpu.paid, Cpu.held, hphase, hproc, hpc, CpuPhase.toRun]
      · simp [Cpu.Pending, Cpu.Alive, Cpu.Left, hproc]
  | putReady hphase hproc =>
      refine .inr (spends_move hs hstep (owes_congr rfl rfl rfl) rfl ?_ (by simp) (.inl ?_))
      · simp [Cpu.paid, Cpu.held, hphase, hproc, CpuPhase.toRun, CpuPhase.hasRun]
      · simp [Cpu.Pending, Cpu.Alive, Cpu.Left]
  | putMlq hphase hproc henq =>
      obtain ⟨sched, hok, rfl⟩ := enqueueLevel_cases henq
      have hslots : sched.slot = s.sched.slot := by
        obtain ⟨_, hsched⟩ := Sched.enqueueMlq_cases hok
        rw [hsched]
      refine .inr (spends_move hs hstep (owes_congr rfl rfl rfl) hslots ?_ (by simp) (.inl ?_))
      · simp [Cpu.paid, Cpu.held, hphase, hproc, CpuPhase.toRun, CpuPhase.hasRun]
      · simp [Cpu.Pending, Cpu.Alive, Cpu.Left]
  | exit hphase hproc hdone =>
      refine .inr (spends_move hs hstep (owes_congr rfl rfl rfl) rfl ?_ (by simp) (.inr ⟨?_, rfl⟩))
      · simp [Cpu.paid, Cpu.held, hphase, hproc]
      · simp [Cpu.Pending, Cpu.Alive, hphase, hproc]
  | skip hphase hproc hdone =>
      refine .inr (spends_move hs hstep (owes_congr rfl rfl rfl) rfl ?_
        (fun _ _ => by simpa using hproc) (.inr ⟨?_, rfl⟩))
      · simp [Cpu.paid, Cpu.held, hphase, hproc]
      · simp [Cpu.Pending, Cpu.Alive, hphase, hproc]
  | dispatch hphase hproc =>
      refine .inr (spends_move hs hstep (owes_congr rfl rfl rfl) rfl ?_ (by simp) (.inl ?_))
      · simp [Cpu.paid, Cpu.held, hphase, hproc, CpuPhase.toRun]
      · simp [Cpu.Pending, Cpu.Alive, Cpu.Left]
  | fetch hphase hproc hpc =>
      refine .inr (spends_move hs hstep (owes_congr rfl rfl rfl) rfl ?_ (by simp) (.inl ?_))
      · simp [Cpu.paid, Cpu.held, hphase, hproc, CpuPhase.toRun]
      · simp [Cpu.Pending, Cpu.Alive, Cpu.Left]
  | slot hphase =>
      refine .inr (spends_move hs hstep (owes_congr rfl rfl rfl) rfl ?_
        (fun hq _ => by simpa using hq.cpu c (.inl hphase)) (.inr ⟨?_, rfl⟩))
      · simp [Cpu.paid, Cpu.held, hphase, CpuPhase.toRun, CpuPhase.hasRun]
      · simp [Cpu.Pending, hphase]
  | detach hphase =>
      refine .inr (spends_move hs hstep (owes_congr rfl rfl rfl) rfl ?_ (by simp) (.inr ⟨?_, rfl⟩))
      · simp [Cpu.paid, Cpu.held, hphase, CpuPhase.toRun, CpuPhase.hasRun]
      · simp [Cpu.Pending, Cpu.Alive, Cpu.Left, hphase]


/-- The loader lowers the cost when it adds a process, and otherwise leaves a quiet slot quiet. -/
theorem spends_ldStep (hs : Conserved s) (h : LdStep s s') :
    s'.outstanding < s.outstanding ∨
      s'.outstanding ≤ s.outstanding ∧ (Quiet s → Quiet s') := by
  cases h with
  | @addMlq t hphase henq =>
      left
      have hp : s.ld.i < cfg.numProcesses := hs.index_lt s.ld.i ⟨rfl, .inr hphase⟩
      have hlive : s.freed s.ld.i = false := by
        have hone := hs.owned.one s.ld.i
        cases hf : s.freed s.ld.i with
        | false => rfl
        | true =>
            simp only [places, hf, le_refl, if_true] at hone
            omega
      obtain ⟨sched, hok, rfl⟩ := enqueueLevel_cases henq
      have hslots : sched.slot = s.sched.slot := by
        obtain ⟨_, hsched⟩ := Sched.enqueueMlq_cases hok
        rw [hsched]
      refine outstanding_lt (a := 0) (b := 0) hp (fun r hr => ?_) hslots rfl ?_
      · -- the index passes nobody else
        have hside : s.ld.i + 1 ≤ r ↔ s.ld.i ≤ r := by omega
        simp only [owes, hside]
      · simp [owes, hlive]
  | early hphase hi htime => exact .inr ⟨le_refl _, fun hq => ⟨hq.cpu, fun _ => ⟨hi, htime⟩, hq.taken⟩⟩
  | start | addRunning | setDone | detach =>
      exact .inr ⟨le_refl _, fun hq => ⟨hq.cpu, by simp, hq.taken⟩⟩
  | slot hphase => exact .inr ⟨le_refl _, fun hq => ⟨hq.cpu, fun _ => hq.ld (.inl hphase), hq.taken⟩⟩

theorem releaseCpu_paid (pc : Nat → Nat) (l : Cpu) : (releaseCpu l).paid cfg pc = l.paid cfg pc := by
  unfold Cpu.paid
  rw [held_releaseCpu]
  unfold releaseCpu
  by_cases hphase : l.phase = .waiting
  · simp [hphase, CpuPhase.toRun, CpuPhase.hasRun]
  · rw [if_neg hphase]

/-- The timer leaves the cost as it is, and the new slot begins quietly. -/
theorem spends_tick (hs : Attended s) (hcpus : 1 ≤ cfg.numCpus) (h : s.tick = some s') :
    s'.outstanding = s.outstanding ∧ Quiet s' := by
  have hs' := hs.tick hcpus h
  obtain ⟨hready, hld, rfl⟩ := tick_cases h
  constructor
  · unfold outstanding
    have howes : owes { s with
        time := s.time + 1
        cpu := fun c => releaseCpu (s.cpu c)
        ld := releaseLd s.ld } = s.owes := owes_congr rfl rfl (releaseLd_i s.ld)
    rw [howes]
    simp only [releaseCpu_paid]
    rfl
  · refine ⟨fun c hc => ?_, fun hl => ?_, fun hwait => ?_⟩
    · exfalso
      have := hready c
      simp only [cpuReady, releaseCpu, Bool.or_eq_true, decide_eq_true_eq] at this hc
      split at hc
      · simp at hc
      · next hphase =>
        rw [this.resolve_left hphase] at hc
        simp at hc
    · exfalso
      simp only [ldReady, releaseLd, Bool.or_eq_true, decide_eq_true_eq] at hld hl
      split at hl
      · simp at hl
      · next hphase =>
        rw [hld.resolve_left hphase] at hl
        simp at hl
    · -- whoever has not left stands at the head of the loop
      have hcheck : ∀ c, ¬ (releaseCpu (s.cpu c)).Left → (releaseCpu (s.cpu c)).Pending := fun c hc => by
        have hphase : (s.cpu c).phase = .waiting := by
          by_contra hne
          have := hready c
          simp only [cpuReady, Bool.or_eq_true, decide_eq_true_eq] at this
          refine hc (.inr ?_)
          rw [releaseCpu, if_neg hne]
          exact this.resolve_left hne
        simp [releaseCpu, hphase, Cpu.Pending, Cpu.Alive, Cpu.Left]
      rcases hs'.attended hwait with ⟨c, hc⟩ | hpend
      · exact ⟨c, hcheck c hc.1⟩
      · refine ⟨⟨0, hcpus⟩, hcheck _ fun hleft => ?_⟩
        have hdone := (hs'.left _ hleft).1
        rw [hpend.1] at hdone
        cases hdone

/-! ## The deadline -/

/-- A quiet slot that ends while somebody has not finished: the loader waits for the time of the next
process. -/
theorem Quiet.time_lt (hq : Quiet s) (hs : Attended s) (href : ∀ p, s.refused p = false)
    (h : s.tick = some s') {p : Nat} (hp : p < cfg.numProcesses) (hlive : s.freed p = false) :
    s.ld.i < cfg.numProcesses ∧ s.time < cfg.startTime s.ld.i := by
  obtain ⟨hready, hld, -⟩ := tick_cases h
  have hcpu : ∀ c, (s.cpu c).phase = .waiting ∨ (s.cpu c).phase = .detached := fun c => by
    simpa [cpuReady] using hready c
  have hphase : s.ld.phase = .waiting ∨ s.ld.phase = .detached := by simpa [ldReady] using hld
  rcases hphase with hwait | hend
  · exact hq.ld (.inr hwait)
  · -- everybody was loaded, but nobody is held or waits
    exfalso
    have hdone := hs.conserved.done_iff.mpr (.inr hend)
    have hadded := lt_of_lt_of_le hp (hs.conserved.index_end hdone)
    rcases held_or_atLevel hs.conserved.owned (hs.conserved.placed p (href p)) hadded hlive with
      ⟨c, hc⟩ | ⟨hprio, hmem⟩
    · have hnone : (s.cpu c).proc = none := by
        rcases hcpu c with hphase | hphase
        · exact hq.cpu c (.inr hphase)
        · exact (hs.left c (.inr hphase)).2
      rcases hcpu c with hphase | hphase <;> simp [Cpu.held, hphase, hnone] at hc
    · obtain ⟨c, halive, -, hwait⟩ := hq.taken ⟨_, List.ne_nil_of_mem hmem⟩
      rcases hcpu c with hphase | hphase
      · exact hwait hphase
      · exact halive.1 (.inr hphase)

/-- What the CPUs have paid for a process is not more than what it costs, and less if it has not finished. -/
theorem two_mul_heldBy_le_owes (hs : Owned s) (p : Nat) :
    2 * s.heldBy p ≤ s.owes p ∧ (s.freed p = false → 2 * s.heldBy p < s.owes p) := by
  have hone := hs.one p
  unfold places at hone
  unfold owes
  cases hfreed : s.freed p with
  | false =>
      simp only [hfreed, Bool.false_eq_true, if_false, Nat.add_zero] at hone ⊢
      omega
  | true =>
      simp only [hfreed, if_true, Bool.true_eq_false, false_implies, and_true] at hone ⊢
      omega

theorem outstanding_pos (hs : Conserved s) {p : Nat} (hp : p < cfg.numProcesses)
    (hlive : s.freed p = false) : 0 < s.outstanding := by
  have hpaid : ∀ c, (s.cpu c).paid cfg s.pc ≤
      ∑ r ∈ Finset.range cfg.numProcesses, 2 * if (s.cpu c).held = some r then 1 else 0 := fun c => by
    cases hheld : (s.cpu c).held with
    | none => simp [paid_of_unheld hheld]
    | some r =>
        have hr : r < cfg.numProcesses := lt_of_lt_of_le (lt_index_of_held hs.owned hheld) hs.index_le
        calc (s.cpu c).paid cfg s.pc ≤ 2 := by
              rw [paid_of_held hheld]
              split
              · omega
              · split <;> omega
          _ = _ := by simp [hr]
  have hall : (∑ c, (s.cpu c).paid cfg s.pc) < ∑ r ∈ Finset.range cfg.numProcesses, s.owes r :=
    calc (∑ c, (s.cpu c).paid cfg s.pc)
        ≤ ∑ c, ∑ r ∈ Finset.range cfg.numProcesses, 2 * if (s.cpu c).held = some r then 1 else 0 :=
          Finset.sum_le_sum fun c _ => hpaid c
      _ = ∑ r ∈ Finset.range cfg.numProcesses, 2 * s.heldBy r := by
          rw [Finset.sum_comm]
          simp only [heldBy, Finset.mul_sum]
      _ < ∑ r ∈ Finset.range cfg.numProcesses, s.owes r :=
          Finset.sum_lt_sum (fun r _ => (two_mul_heldBy_le_owes hs.owned r).1)
            ⟨p, Finset.mem_range.mpr hp, (two_mul_heldBy_le_owes hs.owned p).2 hlive⟩
  unfold outstanding
  omega

theorem freed_step {a : Act cfg} (h : Step s a s') {p : Nat} (hfreed : s.freed p = true) :
    s'.freed p = true := by
  rcases step_cases h with ⟨c, -, hc⟩ | ⟨-, hl⟩ | ⟨-, ht⟩ | ⟨-, hk⟩
  · cases hc with
    | @finish r hphase hproc hpc =>
        rcases eq_or_ne p r with rfl | hne
        · exact Function.update_self ..
        · exact (Function.update_of_ne hne _ _).trans hfreed
    | putMlq hphase hproc henq =>
        obtain ⟨sched, -, rfl⟩ := enqueueLevel_cases henq
        exact hfreed
    | idleGet | nextGet | expire | resume | putReady | exit | skip | dispatch | runNothing | fetch
    | exec | slot | detach => exact hfreed
  · rw [(frame_ldStep hl).2.2.2]
    exact hfreed
  · obtain ⟨-, -, rfl⟩ := tick_cases ht
    exact hfreed
  · rw [(frame_killStep hk).2.2.2]
    exact hfreed

/-- What was freed has run to the end of its code. -/
theorem Owned.executed_of_freed (hs : Owned s) {p : Nat} (hfreed : s.freed p = true) :
    s.executed p = cfg.code p := by
  rw [hs.executed_eq, hs.freed_pc p hfreed, List.take_length]

/-- What is true of every state of a run in which nobody is refused and nobody is missed. -/
theorem attended_of_steps (hcpus : 1 ≤ cfg.numCpus) (hshare : ∀ l, cfg.sharing l ≤ maxQueueSize)
    {as : List (Act cfg)} (hrun : Steps (Steps.Meeting NoMiss Step) (init cfg) as s) :
    Attended s ∧ ∀ p, s.refused p = false :=
  hrun.state_invariant (motive := fun s => Attended s ∧ ∀ p, s.refused p = false)
    ⟨attended_init cfg, fun _ => rfl⟩ fun _ _ _ ht hR =>
      ⟨ht.1.step hcpus hR.1 hR.2, refused_eq_false_step ht.1.conserved hshare ht.2 hR.1.1 hR.2⟩

/-- While somebody has not finished, the time is below the latest start and the costs. -/
theorem time_lt_deadline (hcpus : 1 ≤ cfg.numCpus) (hshare : ∀ l, cfg.sharing l ≤ maxQueueSize) {m : Nat}
    (hstart : ∀ p < cfg.numProcesses, cfg.startTime p ≤ m) {as : List (Act cfg)}
    (hrun : Steps (Steps.Meeting NoMiss Step) (init cfg) as s) {p : Nat} (hp : p < cfg.numProcesses)
    (hlive : s.freed p = false) :
    s.time < m + ∑ p ∈ Finset.range cfg.numProcesses, (2 * max 1 (cfg.code p).length + 2) := by
  obtain ⟨hs, -⟩ := attended_of_steps hcpus hshare hrun
  have hinit : (init cfg).outstanding =
      (∑ p ∈ Finset.range cfg.numProcesses, (2 * max 1 (cfg.code p).length + 2) : Nat) := by
    simp [outstanding, owes, refill, init, Cpu.paid, Cpu.held, Sched.initScheduler, Nat.add_assoc]
  have hbound := @Steps.clock_add_cost_le _ _ _ _ _ _
    (fun s : Os cfg => Attended s ∧ ∀ p, s.refused p = false)
    (fun s => ∃ p < cfg.numProcesses, s.freed p = false) Quiet Os.time outstanding m
    ?_ ?_ hrun ⟨p, hp, hlive⟩
  · have := outstanding_pos hs.conserved hp hlive
    omega
  · refine ⟨⟨attended_init cfg, fun _ => rfl⟩, ⟨?_, ?_, ?_⟩, Nat.zero_le m⟩
    · intro c hc
      rfl
    · intro hl
      simp [init] at hl
    · rintro ⟨l, hl⟩
      exact absurd rfl hl
  · rintro t a u ⟨ht, href⟩ ⟨hmiss, hstep⟩
    have hu := ht.step hcpus hmiss hstep
    have href' := refused_eq_false_step ht.conserved hshare href hmiss.1 hstep
    refine ⟨⟨hu, href'⟩, ?_, ?_⟩
    · rintro ⟨r, hr, hfree⟩
      refine ⟨r, hr, ?_⟩
      by_contra hdead
      have := freed_step hstep (p := r) (by simpa using hdead)
      rw [hfree] at this
      cases this
    · rcases step_cases hstep with ⟨c, -, hc⟩ | ⟨rfl, hl⟩ | ⟨-, htick⟩ | ⟨⟨idx, rfl | rfl⟩, -⟩
      · rcases spends_cpuStep ht.conserved hc with hlt | ⟨hle, hquiet⟩
        · exact ⟨hlt.le, .inl ⟨time_cpuStep hc, fun heq => absurd heq hlt.ne⟩⟩
        · exact ⟨hle, .inl ⟨time_cpuStep hc, fun _ => hquiet⟩⟩
      · rcases spends_ldStep ht.conserved hl with hlt | ⟨hle, hquiet⟩
        · exact ⟨hlt.le, .inl ⟨time_ldStep hl, fun heq => absurd heq hlt.ne⟩⟩
        · exact ⟨hle, .inl ⟨time_ldStep hl, fun _ => hquiet⟩⟩
      · obtain ⟨heq, hquiet⟩ := spends_tick ht hcpus htick
        have htime' : u.time = t.time + 1 := by
          obtain ⟨-, -, rfl⟩ := tick_cases htick
          rfl
        refine ⟨heq.le, .inr ⟨htime', hquiet, ?_⟩⟩
        rintro hq ⟨r, hr, hfree⟩
        obtain ⟨hi, hlt⟩ := hq.time_lt ht href htick hr hfree
        have := hstart t.ld.i hi
        omega
      · cases hmiss.1
      · cases hmiss.1

/-- **Everybody has finished by a deadline.** In a run with at least one CPU, at most `MAX_QUEUE_SIZE`
processes of a priority and no `killall`, in which no `get_proc` that refills the slots makes the last CPU
leave, every process has run to the end of its code and was freed when the time has come to the latest
start and, for each process, two slots for each of its instructions and two more. An empty program counts
as one instruction: it takes a CPU a slot to find out. -/
theorem finished_by_deadline (hcpus : 1 ≤ cfg.numCpus)
    (hshare : ∀ l, cfg.sharing l ≤ maxQueueSize) {m : Nat}
    (hstart : ∀ p < cfg.numProcesses, cfg.startTime p ≤ m) {as : List (Act cfg)}
    (hrun : Steps (Steps.Meeting NoMiss Step) (init cfg) as s)
    (htime : m + ∑ p ∈ Finset.range cfg.numProcesses, (2 * max 1 (cfg.code p).length + 2) ≤ s.time)
    {p : Nat} (hp : p < cfg.numProcesses) : s.freed p = true ∧ s.executed p = cfg.code p := by
  obtain ⟨hs, -⟩ := attended_of_steps hcpus hshare hrun
  have hfreed : s.freed p = true := by
    cases hlive : s.freed p with
    | true => rfl
    | false => exact absurd (time_lt_deadline hcpus hshare hstart hrun hp hlive) (Nat.not_lt.mpr htime)
  exact ⟨hfreed, hs.conserved.owned.executed_of_freed hfreed⟩

/-- A CPU runs a process of one instruction in the first slot, frees it in the second one, and waits. -/
def fourSlots (cfg : Config) (c : Fin cfg.numCpus) : List (Act cfg) :=
  loadSlot cfg c ++ List.replicate 4 (.cpu c) ++ [.loader, .loader, .tick] ++
    [.cpu c, .cpu c, .tick] ++ [.cpu c, .cpu c, .tick]

theorem finished_by_deadline_lone_instruction :
    ∃ s, Steps (Steps.Meeting NoMiss Step) (init loneInstruction) (fourSlots loneInstruction 0) s ∧
      s.freed 0 = true ∧ s.executed 0 = [⟨.calc, 0, 0, 0, 0⟩] := by
  have hcheck : (Steps.exec (Steps.checked NoMiss Os.step) (init loneInstruction)
      (fourSlots loneInstruction 0)).any (fun s => decide (s.time = 4)) = true := by
    decide +kernel
  obtain ⟨s, hs, htime⟩ := (Option.any_eq_true _ _).mp hcheck
  have hrun : Steps (Steps.Meeting NoMiss Step) (init loneInstruction) (fourSlots loneInstruction 0) s :=
    Steps.of_exec_checked hs
  refine ⟨s, hrun, finished_by_deadline (by decide) (by decide) (m := 0) (by decide) hrun ?_ (by decide)⟩
  rw [of_decide_eq_true htime]
  decide

end Os

end Ossim
