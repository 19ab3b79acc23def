import Ossim.Os.Ownership

/-!
# The time quantum of `cpu_routine`

What a dispatched process gets does not depend on the rest of the simulator. `Cpu.act` is one action
of `cpu_routine` on its own: the result of `get_proc` and the value of `done` are its inputs, and
what it does to the processes comes out as a list of events. Between its actions the other threads
may do anything but move the `pc` of the process the CPU holds.

Over a quantum, what the CPU still has to do is a function of `time_left` and the instructions left
(`countdown`), and each action removes its events from the front of it (`InQuantum.step`). So the
events after a dispatch are known up to the next `get_proc` (`time_quantum`). In the simulator every
CPU is such a thread (`solo_of_steps`).
-/

namespace Ossim

/-- What `cpu_routine` does that others can see. -/
inductive CpuEvent where
  /-- `get_proc` has returned. -/
  | got (o : Option Nat)
  /-- "Processed has finished", and `free`. -/
  | finished (p : Nat)
  /-- "Put process to run queue", and `put_proc`. -/
  | put (p : Nat)
  /-- "Dispatched process", and `time_left = time_slot`. -/
  | dispatched (p : Nat)
  /-- `run` has executed one instruction. -/
  | ran (p : Nat)
  /-- `next_slot`. -/
  | nextSlot
  /-- "CPU stopped". -/
  | stopped
  deriving DecidableEq

/-- One action of `cpu_routine`, when `get_proc` would return `got` and the flag is `done`: the local
variables and the `pc`s behind it, and what was seen of it. -/
def Cpu.act (cfg : Config) (l : Cpu) (pc : Nat → Nat) (got : Option Nat) (done : Bool) :
    Option (Cpu × (Nat → Nat) × List CpuEvent) :=
  match l.phase, l.proc with
  | .check, none =>
    some ({ l with phase := if got.isNone then .slot else .recheck, proc := got }, pc, [.got got])
  | .check, some p =>
    if pc p = (cfg.code p).length then
      -- the `time_left = 0` that follows `get_proc` is done here, nothing reads it between
      some ({ l with phase := .getNext, timeLeft := 0 }, pc, [.finished p])
    else if l.timeLeft = 0 then some ({ l with phase := .putReady }, pc, [.put p])
    else some ({ l with phase := .recheck }, pc, [])
  | .putReady, some _ => some ({ l with phase := .putMlq }, pc, [])
  | .putMlq, some _ => some ({ l with phase := .getNext }, pc, [])
  | .getNext, _ => some ({ l with phase := .recheck, proc := got }, pc, [.got got])
  | .recheck, none =>
    if done then some ({ l with phase := .stopped }, pc, [.stopped])
    else some ({ l with phase := .slot }, pc, [])
  | .recheck, some p =>
    if l.timeLeft = 0 then
      some ({ l with phase := .run, timeLeft := cfg.timeSlot }, pc, [.dispatched p])
    else some ({ l with phase := .run }, pc, [])
  | .run, some p =>
    match (cfg.code p)[pc p]? with
    | none => some ({ l with phase := .slot, timeLeft := l.timeLeft - 1 }, pc, [])
    | some ins => some ({ l with phase := .exec ins }, pc, [])
  | .exec _, some p =>
    some ({ l with phase := .slot, timeLeft := l.timeLeft - 1 },
      Function.update pc p (pc p + 1), [.ran p])
  | .slot, _ => some ({ l with phase := .waiting }, pc, [.nextSlot])
  | .waiting, _ => some ({ l with phase := .check }, pc, [])
  | .stopped, _ => some ({ l with phase := .detached }, pc, [])
  | _, _ => none

/-- A CPU thread, and the `pc`s of the processes. -/
structure Solo where
  cpu : Cpu
  pc : Nat → Nat

namespace Solo

variable {cfg : Config}

/-- A CPU before its first action. -/
def start (pc : Nat → Nat) : Solo := ⟨⟨.check, none, 0⟩, pc⟩

/-- The thread acts, or the others do. -/
inductive Step (cfg : Config) : Solo → List CpuEvent → Solo → Prop where
  | own {s : Solo} {l : Cpu} {pc : Nat → Nat} {es : List CpuEvent} (got : Option Nat) (done : Bool)
      (h : s.cpu.act cfg s.pc got done = some (l, pc, es)) : Step cfg s es ⟨l, pc⟩
  | others {s : Solo} {pc : Nat → Nat} (h : ∀ p, s.cpu.held = some p → pc p = s.pc p) :
      Step cfg s [] ⟨s.cpu, pc⟩

/-- What a process with `r` instructions left gets from a dispatch: one instruction and one
`next_slot` at a time, and then it is freed or put back. -/
def quantum (cfg : Config) (p r : Nat) : List CpuEvent :=
  (List.replicate (min cfg.timeSlot.toNat r) [.ran p, .nextSlot]).flatten ++
    [if (r : Int) ≤ cfg.timeSlot then .finished p else .put p]

/-- What is to be seen of a process with `r` instructions left, from the check at the head of the
loop on, when `time_left` is `k`: `min k r` rounds, and then the decision. -/
def countdown (p k r : Nat) : List CpuEvent :=
  (List.replicate (min k r) [.ran p, .nextSlot]).flatten ++
    [if r ≤ k then .finished p else .put p]

theorem countdown_finished (p k : Nat) : countdown p k 0 = [.finished p] := by
  simp [countdown]

theorem countdown_put (p : Nat) {r : Nat} (hr : 0 < r) : countdown p 0 r = [.put p] := by
  simp [countdown, Nat.ne_of_gt hr]

/-- One round of the loop. -/
theorem countdown_succ (p k r : Nat) :
    countdown p (k + 1) (r + 1) = .ran p :: .nextSlot :: countdown p k r := by
  simp [countdown, List.replicate_succ]

/-- The CPU is in the quantum of the process, with these events to come before the next `get_proc`. -/
inductive InQuantum (cfg : Config) (p : Nat) : Solo → List CpuEvent → Prop where
  /-- On the way to the check at the head of the loop. -/
  | deciding {s : Solo} (hphase : s.cpu.phase = .waiting ∨ s.cpu.phase = .check)
      (hproc : s.cpu.proc = some p) (hpc : s.pc p ≤ (cfg.code p).length) (htime : 0 ≤ s.cpu.timeLeft) :
      InQuantum cfg p s (countdown p s.cpu.timeLeft.toNat ((cfg.code p).length - s.pc p))
  /-- Between the check and the end of `run`. -/
  | running {s : Solo}
      (hphase : s.cpu.phase = .recheck ∨ s.cpu.phase = .run ∨ ∃ ins, s.cpu.phase = .exec ins)
      (hproc : s.cpu.proc = some p) (hpc : s.pc p < (cfg.code p).length) (htime : 0 < s.cpu.timeLeft) :
      InQuantum cfg p s (countdown p s.cpu.timeLeft.toNat ((cfg.code p).length - s.pc p))
  /-- Before `next_slot`. -/
  | slot {s : Solo} (hphase : s.cpu.phase = .slot) (hproc : s.cpu.proc = some p)
      (hpc : s.pc p ≤ (cfg.code p).length) (htime : 0 ≤ s.cpu.timeLeft) :
      InQuantum cfg p s
        (.nextSlot :: countdown p s.cpu.timeLeft.toNat ((cfg.code p).length - s.pc p))
  /-- The decision is made, and `get_proc` comes next. -/
  | decided {s : Solo}
      (hphase : s.cpu.phase = .getNext ∨
        s.cpu.proc = some p ∧ (s.cpu.phase = .putReady ∨ s.cpu.phase = .putMlq)) :
      InQuantum cfg p s []

/-- What the other threads do does not show in the quantum. -/
theorem InQuantum.others {s : Solo} {p : Nat} {rest : List CpuEvent} (h : InQuantum cfg p s rest)
    {pc : Nat → Nat} (hpc : ∀ r, s.cpu.held = some r → pc r = s.pc r) :
    InQuantum cfg p ⟨s.cpu, pc⟩ rest := by
  -- outside of `getNext` the CPU holds the process
  have hsame : s.cpu.proc = some p → s.cpu.phase ≠ .getNext → pc p = s.pc p := fun hproc hne =>
    hpc p (by unfold Cpu.held; split <;> simp_all)
  cases h with
  | deciding hphase hproc hle htime =>
      have heq := hsame hproc (by rcases hphase with h | h <;> simp [h])
      rw [← heq] at hle ⊢
      exact .deciding (s := ⟨s.cpu, pc⟩) hphase hproc hle htime
  | running hphase hproc hlt htime =>
      have heq := hsame hproc (by rcases hphase with h | h | ⟨ins, h⟩ <;> simp [h])
      rw [← heq] at hlt ⊢
      exact .running (s := ⟨s.cpu, pc⟩) hphase hproc hlt htime
  | slot hphase hproc hle htime =>
      have heq := hsame hproc (by simp [hphase])
      rw [← heq] at hle ⊢
      exact .slot (s := ⟨s.cpu, pc⟩) hphase hproc hle htime
  | decided hphase => exact .decided hphase

/-- At the check, the CPU decides if there is nothing left to count down, and goes on otherwise. -/
theorem InQuantum.check {s : Solo} {p : Nat} {l : Cpu} {pc : Nat → Nat} {es : List CpuEvent}
    {got : Option Nat} {done : Bool} (hphase : s.cpu.phase = .check) (hproc : s.cpu.proc = some p)
    (hpc : s.pc p ≤ (cfg.code p).length) (htime : 0 ≤ s.cpu.timeLeft)
    (h : s.cpu.act cfg s.pc got done = some (l, pc, es)) :
    ∃ rest', InQuantum cfg p ⟨l, pc⟩ rest' ∧
      countdown p s.cpu.timeLeft.toNat ((cfg.code p).length - s.pc p) = es ++ rest' := by
  simp only [Cpu.act, hphase, hproc] at h
  split at h
  · next hend =>
    cases h
    refine ⟨[], .decided (.inl rfl), ?_⟩
    rw [hend, Nat.sub_self, countdown_finished]
    rfl
  · next hend =>
    split at h
    · next hzero =>
      cases h
      refine ⟨[], .decided (.inr ⟨rfl, .inl rfl⟩), ?_⟩
      rw [hzero, Int.toNat_zero, countdown_put p (by omega)]
      rfl
    · next hzero =>
      cases h
      exact ⟨_, .running (.inl rfl) rfl (by show s.pc p < _; omega)
        (by show 0 < s.cpu.timeLeft; omega), rfl⟩

/-- In `run` one instruction is executed. -/
theorem InQuantum.run {s : Solo} {p : Nat} {l : Cpu} {pc : Nat → Nat} {es : List CpuEvent}
    {got : Option Nat} {done : Bool}
    (hphase : s.cpu.phase = .recheck ∨ s.cpu.phase = .run ∨ ∃ ins, s.cpu.phase = .exec ins)
    (hproc : s.cpu.proc = some p) (hpc : s.pc p < (cfg.code p).length) (htime : 0 < s.cpu.timeLeft)
    (h : s.cpu.act cfg s.pc got done = some (l, pc, es)) :
    ∃ rest', InQuantum cfg p ⟨l, pc⟩ rest' ∧
      countdown p s.cpu.timeLeft.toNat ((cfg.code p).length - s.pc p) = es ++ rest' := by
  rcases hphase with hphase | hphase | ⟨ins, hphase⟩
  · simp only [Cpu.act, hphase, hproc, if_neg htime.ne'] at h
    cases h
    exact ⟨_, .running (.inr (.inl rfl)) rfl hpc htime, rfl⟩
  · simp only [Cpu.act, hphase, hproc, List.getElem?_eq_getElem hpc] at h
    cases h
    exact ⟨_, .running (.inr (.inr ⟨_, rfl⟩)) rfl hpc htime, rfl⟩
  · simp only [Cpu.act, hphase, hproc] at h
    cases h
    refine ⟨_, .slot rfl rfl ?_ ?_, ?_⟩
    · show Function.update s.pc p (s.pc p + 1) p ≤ _
      rw [Function.update_self]
      exact hpc
    · show 0 ≤ s.cpu.timeLeft - 1
      omega
    · show _ = .ran p :: .nextSlot :: countdown p (s.cpu.timeLeft - 1).toNat
        ((cfg.code p).length - Function.update s.pc p (s.pc p + 1) p)
      rw [← countdown_succ, Function.update_self]
      congr 1 <;> omega

/-- **Every action takes its events from the front of what is to come**, until `get_proc`. -/
theorem InQuantum.step {s t : Solo} {p : Nat} {rest es : List CpuEvent}
    (h : InQuantum cfg p s rest) (hstep : Step cfg s es t) :
    (∃ rest', InQuantum cfg p t rest' ∧ rest = es ++ rest') ∨ (rest = [] ∧ ∃ o, es = [.got o]) := by
  cases hstep with
  | others hpc => exact .inl ⟨rest, h.others hpc, rfl⟩
  | own got done hact =>
      cases h with
      | deciding hphase hproc hpc htime =>
          rcases hphase with hphase | hphase
          · simp only [Cpu.act, hphase] at hact
            cases hact
            exact .inl ⟨_, .deciding (.inr rfl) hproc hpc htime, rfl⟩
          · exact .inl (InQuantum.check hphase hproc hpc htime hact)
      | running hphase hproc hpc htime =>
          exact .inl (InQuantum.run hphase hproc hpc htime hact)
      | slot hphase hproc hpc htime =>
          simp only [Cpu.act, hphase] at hact
          cases hact
          exact .inl ⟨_, .deciding (.inl rfl) hproc hpc htime, rfl⟩
      | decided hphase =>
          rcases hphase with hphase | ⟨hproc, hphase | hphase⟩
          · simp only [Cpu.act, hphase] at hact
            cases hact
            exact .inr ⟨rfl, got, rfl⟩
          · simp only [Cpu.act, hphase, hproc] at hact
            cases hact
            exact .inl ⟨[], .decided (.inr ⟨rfl, .inr rfl⟩), rfl⟩
          · simp only [Cpu.act, hphase, hproc] at hact
            cases hact
            exact .inl ⟨[], .decided (.inl rfl), rfl⟩

/-- From a state of a quantum on, the CPU does what is to come and then calls `get_proc`. -/
theorem InQuantum.steps {s u : Solo} {p : Nat} {rest : List CpuEvent} {tr : List (List CpuEvent)}
    (h : InQuantum cfg p s rest) (hrun : Steps (Step cfg) s tr u) :
    tr.flatten <+: rest ∨ ∃ o, rest ++ [.got o] <+: tr.flatten := by
  suffices hsplit : (∃ rest', InQuantum cfg p u rest' ∧ rest = tr.flatten ++ rest') ∨
      ∃ o, rest ++ [.got o] <+: tr.flatten by
    exact hsplit.imp_left fun ⟨rest', _, heq⟩ => ⟨rest', heq.symm⟩
  refine hrun.invariant (motive := fun tr u => (∃ rest', InQuantum cfg p u rest' ∧
    rest = tr.flatten ++ rest') ∨ ∃ o, rest ++ [.got o] <+: tr.flatten) (.inl ⟨rest, h, rfl⟩) ?_
  intro tr t es u hmotive hstep
  rw [List.flatten_append, List.flatten_singleton]
  rcases hmotive with ⟨rest', hin, heq⟩ | ⟨o, hover⟩
  · rcases hin.step hstep with ⟨rest'', hin', heq'⟩ | ⟨hnil, o, hgot⟩
    · exact .inl ⟨rest'', hin', by rw [heq, heq', List.append_assoc]⟩
    · refine .inr ⟨o, ?_⟩
      rw [heq, hnil, List.append_nil, hgot]
  · exact .inr ⟨o, hover.trans (List.prefix_append _ _)⟩

/-! ## Nothing is left over -/

/-- While the CPU holds nobody, and while it returns somebody, `time_left` is `0`. -/
structure Spent (l : Cpu) : Prop where
  held : l.held = none → l.timeLeft = 0
  putting : l.phase = .putReady ∨ l.phase = .putMlq → l.timeLeft = 0

theorem Spent.of_zero {l : Cpu} (h : l.timeLeft = 0) : Spent l := ⟨fun _ => h, fun _ => h⟩

theorem Spent.act {l l' : Cpu} {pc pc' : Nat → Nat} {got : Option Nat} {done : Bool}
    {es : List CpuEvent} (hl : Spent l) (h : l.act cfg pc got done = some (l', pc', es)) :
    Spent l' := by
  unfold Cpu.act at h
  split at h
  · next hphase hproc =>
    cases h
    exact .of_zero (hl.held (by simp [Cpu.held, hphase, hproc]))
  · next p hphase hproc =>
    split at h
    · cases h
      exact .of_zero rfl
    · split at h
      · next hzero =>
        cases h
        exact .of_zero hzero
      · cases h
        exact ⟨by simp [Cpu.held, hproc], by simp⟩
  · next p hphase hproc =>
    cases h
    exact .of_zero (hl.putting (.inl hphase))
  · next p hphase hproc =>
    cases h
    exact .of_zero (hl.putting (.inr hphase))
  · next hphase =>
    cases h
    exact .of_zero (hl.held (by simp [Cpu.held, hphase]))
  · next hphase hproc =>
    have hzero := hl.held (by simp [Cpu.held, hphase, hproc])
    split at h
    all_goals
      cases h
      exact .of_zero hzero
  · next p hphase hproc =>
    split at h
    all_goals
      cases h
      exact ⟨by simp [Cpu.held, hproc], by simp⟩
  · next p hphase hproc =>
    split at h
    all_goals
      cases h
      exact ⟨by simp [Cpu.held, hproc], by simp⟩
  · next ins p hphase hproc =>
    cases h
    exact ⟨by simp [Cpu.held, hproc], by simp⟩
  · next hphase =>
    cases h
    exact ⟨by simpa [Cpu.held, hphase] using hl.held, by simp⟩
  · next hphase =>
    cases h
    exact ⟨by simpa [Cpu.held, hphase] using hl.held, by simp⟩
  · next hphase =>
    cases h
    exact ⟨by simpa [Cpu.held, hphase] using hl.held, by simp⟩
  · cases h

theorem spent_of_steps {pc : Nat → Nat} {s : Solo} {tr : List (List CpuEvent)}
    (hrun : Steps (Step cfg) (start pc) tr s) : Spent s.cpu := by
  refine hrun.state_invariant (motive := fun s => Spent s.cpu) (.of_zero rfl) ?_
  intro s es t hs hstep
  cases hstep with
  | own got done hact => exact hs.act hact
  | others => exact hs

/-- A dispatch begins a quantum. -/
theorem inQuantum_of_dispatched {s t : Solo} {p : Nat} (hts : 1 ≤ cfg.timeSlot)
    (hstep : Step cfg s [.dispatched p] t) (hpc : s.pc p < (cfg.code p).length) :
    InQuantum cfg p t (countdown p cfg.timeSlot.toNat ((cfg.code p).length - s.pc p)) := by
  cases hstep with
  | own got done hact =>
      unfold Cpu.act at hact
      split at hact
      case h_7 q hphase hproc =>
          split at hact
          · simp only [Option.some.injEq, Prod.mk.injEq, List.cons.injEq, CpuEvent.dispatched.injEq,
              and_true] at hact
            obtain ⟨rfl, rfl, rfl⟩ := hact
            exact .running (.inr (.inl rfl)) hproc hpc (by show 0 < cfg.timeSlot; omega)
          · cases hact
      all_goals (try split at hact) <;> (try split at hact) <;> cases hact

/-- **The time quantum.** In every run of `cpu_routine`, for every sequence of results of `get_proc`:
`time_left` is `0` whenever the CPU holds no process; and from a dispatch of a process with
`r ≥ 1` instructions left on, what is seen of the CPU is its `quantum`, `min time_slot r` rounds and
one decision, and the next thing is a `get_proc`. -/
theorem time_quantum (hts : 1 ≤ cfg.timeSlot) {pc : Nat → Nat} {s : Solo}
    {tr : List (List CpuEvent)} (hrun : Steps (Step cfg) (start pc) tr s) :
    (s.cpu.held = none → s.cpu.timeLeft = 0) ∧
      ∀ p t, Step cfg s [.dispatched p] t → s.pc p < (cfg.code p).length →
        ∀ tr' u, Steps (Step cfg) t tr' u →
          tr'.flatten <+: quantum cfg p ((cfg.code p).length - s.pc p) ∨
            ∃ o, quantum cfg p ((cfg.code p).length - s.pc p) ++ [.got o] <+: tr'.flatten := by
  refine ⟨(spent_of_steps hrun).held, fun p t hstep hpc tr' u hrest => ?_⟩
  have hquantum : quantum cfg p ((cfg.code p).length - s.pc p) =
      countdown p cfg.timeSlot.toNat ((cfg.code p).length - s.pc p) := by
    have hfits : (((cfg.code p).length - s.pc p : Nat) : Int) ≤ cfg.timeSlot ↔
        (cfg.code p).length - s.pc p ≤ cfg.timeSlot.toNat := by
      omega
    simp only [quantum, countdown, hfits]
  rw [hquantum]
  exact (inQuantum_of_dispatched hts hstep hpc).steps hrest

/-- A process of three instructions, in quanta of two. -/
abbrev threeInstructions : Config where
  timeSlot := 2
  numCpus := 1
  numProcesses := 1
  startTime := fun _ => 0
  prio := fun _ => 70
  code := fun _ => [⟨.calc, 0, 0, 0, 0⟩, ⟨.calc, 0, 0, 0, 0⟩, ⟨.calc, 0, 0, 0, 0⟩]

/-- The first quantum executes two instructions, and ends with `put_proc`. -/
theorem time_quantum_three_instructions :
    ∃ s t u tr tr', Steps (Step threeInstructions) (start fun _ => 0) tr s ∧
      Step threeInstructions s [.dispatched 0] t ∧ Steps (Step threeInstructions) t tr' u ∧
      tr'.flatten = [.ran 0, .nextSlot, .ran 0, .nextSlot, .put 0, .got none] ∧
      (tr'.flatten <+: quantum threeInstructions 0 3 ∨
        ∃ o, quantum threeInstructions 0 3 ++ [.got o] <+: tr'.flatten) := by
  have hrun : Steps (Step threeInstructions) (start fun _ => 0) [[.got (some 0)]]
      ⟨⟨.recheck, some 0, 0⟩, fun _ => 0⟩ :=
    .cons (.own (some 0) false rfl) (.nil _)
  have hdispatch : Step threeInstructions ⟨⟨.recheck, some 0, 0⟩, fun _ => 0⟩ [.dispatched 0]
      ⟨⟨.run, some 0, 2⟩, fun _ => 0⟩ :=
    .own none false rfl
  have hrest : Steps (Step threeInstructions) ⟨⟨.run, some 0, 2⟩, fun _ => 0⟩
      [[], [.ran 0], [.nextSlot], [], [], [], [], [.ran 0], [.nextSlot], [], [.put 0], [], [],
        [.got none]] _ :=
    .cons (.own none false rfl) <| .cons (.own none false rfl) <| .cons (.own none false rfl) <|
    .cons (.own none false rfl) <| .cons (.own none false rfl) <| .cons (.own none false rfl) <|
    .cons (.own none false rfl) <| .cons (.own none false rfl) <| .cons (.own none false rfl) <|
    .cons (.own none false rfl) <| .cons (.own none false rfl) <| .cons (.own none false rfl) <|
    .cons (.own none false rfl) <| .cons (.own none false rfl) <| .nil _
  exact ⟨_, _, _, _, _, hrun, hdispatch, hrest, rfl,
    (time_quantum (by decide) hrun).2 0 _ hdispatch (by decide) _ _ hrest⟩

end Solo

/-! ## The CPUs of the simulator -/

namespace Os

variable {cfg : Config}

/-- An action of a CPU in the simulator is one of `cpu_routine` on its own. -/
theorem act_cpuStep {s s' : Os cfg} {c : Fin cfg.numCpus} (h : CpuStep s c s') :
    ∃ got done es, (s.cpu c).act cfg s.pc got done = some (s'.cpu c, s'.pc, es) := by
  cases h with
  | @idleGet g hphase hproc hget => exact ⟨g.proc, false, _, by simp [Cpu.act, hphase, hproc]; rfl⟩
  | @nextGet g hphase hget => exact ⟨g.proc, false, _, by simp [Cpu.act, hphase]; rfl⟩
  | finish hphase hproc hpc => exact ⟨none, false, _, by simp [Cpu.act, hphase, hproc, hpc]; rfl⟩
  | expire hphase hproc hpc htime =>
      exact ⟨none, false, _, by simp [Cpu.act, hphase, hproc, hpc, htime]; rfl⟩
  | resume hphase hproc hpc htime =>
      exact ⟨none, false, _, by simp [Cpu.act, hphase, hproc, hpc, htime]; rfl⟩
  | putReady hphase hproc => exact ⟨none, false, _, by simp [Cpu.act, hphase, hproc]; rfl⟩
  | putMlq hphase hproc henq =>
      obtain ⟨sched, -, rfl⟩ := enqueueLevel_cases henq
      exact ⟨none, false, _, by simp [Cpu.act, hphase, hproc]; rfl⟩
  | exit hphase hproc hdone => exact ⟨none, true, _, by simp [Cpu.act, hphase, hproc]; rfl⟩
  | skip hphase hproc hdone => exact ⟨none, false, _, by simp [Cpu.act, hphase, hproc]; rfl⟩
  | dispatch hphase hproc =>
      by_cases htime : (s.cpu c).timeLeft = 0
      · exact ⟨none, false, _, by simp [Cpu.act, hphase, hproc, htime]; rfl⟩
      · exact ⟨none, false, _, by simp [Cpu.act, hphase, hproc, htime]; rfl⟩
  | runNothing hphase hproc hpc => exact ⟨none, false, _, by simp [Cpu.act, hphase, hproc, hpc]; rfl⟩
  | fetch hphase hproc hpc => exact ⟨none, false, _, by simp [Cpu.act, hphase, hproc, hpc]; rfl⟩
  | exec hphase hproc => exact ⟨none, false, _, by simp [Cpu.act, hphase, hproc]; rfl⟩
  | slot hphase => exact ⟨none, false, _, by simp [Cpu.act, hphase]; rfl⟩
  | detach hphase => exact ⟨none, false, _, by simp [Cpu.act, hphase]; rfl⟩

/-- Another CPU moves the `pc` of no process this one holds. -/
theorem pc_cpuStep_of_ne {s s' : Os cfg} {c d : Fin cfg.numCpus} {p : Nat} (hs : Owned s)
    (h : CpuStep s d s') (hne : c ≠ d) (hheld : (s.cpu c).held = some p) : s'.pc p = s.pc p := by
  rcases history_cpuStep h with ⟨hpc, -⟩ | ⟨r, ins, hphase, hproc, hpc, -⟩
  · rw [hpc]
  · rw [hpc, Function.update_of_ne]
    rintro rfl
    have htwo := two_le_heldBy hne hheld (held_of_exec hphase hproc)
    have hone := hs.one p
    unfold places at hone
    omega

/-- What one action of the simulator is to one of its CPUs. -/
theorem solo_of_step {s s' : Os cfg} {a : Act cfg} (hs : Owned s) (h : Step s a s')
    (c : Fin cfg.numCpus) : ∃ es, Solo.Step cfg ⟨s.cpu c, s.pc⟩ es ⟨s'.cpu c, s'.pc⟩ := by
  rcases step_cases h with ⟨d, -, hd⟩ | ⟨-, hl⟩ | ⟨-, ht⟩ | ⟨-, hk⟩
  · rcases eq_or_ne c d with rfl | hne
    · obtain ⟨got, done, es, hact⟩ := act_cpuStep hd
      exact ⟨es, .own got done hact⟩
    · rw [cpu_cpuStep_of_ne hd hne]
      exact ⟨[], .others fun p hp => pc_cpuStep_of_ne hs hd hne hp⟩
  · obtain ⟨hcpu, hpc, -⟩ := frame_ldStep hl
    rw [hcpu, hpc]
    exact ⟨[], .others fun _ _ => rfl⟩
  · obtain ⟨-, -, rfl⟩ := tick_cases ht
    by_cases hwait : (s.cpu c).phase = .waiting
    · -- the CPU returns from `next_slot`
      exact ⟨[], .own none false (by simp [Cpu.act, releaseCpu, hwait])⟩
    · simp only [releaseCpu, if_neg hwait]
      exact ⟨[], .others fun _ _ => rfl⟩
  · obtain ⟨hcpu, hpc, -⟩ := frame_killStep hk
    rw [hcpu, hpc]
    exact ⟨[], .others fun _ _ => rfl⟩

/-- **Every CPU of the simulator is a `cpu_routine` on its own**, under every interleaving. -/
theorem solo_of_steps {s : Os cfg} {as : List (Act cfg)} (hrun : Steps Step (init cfg) as s)
    (c : Fin cfg.numCpus) :
    ∃ tr, Steps (Solo.Step cfg) (Solo.start fun _ => 0) tr ⟨s.cpu c, s.pc⟩ := by
  suffices h : Owned s ∧ ∃ tr, Steps (Solo.Step cfg) (Solo.start fun _ => 0) tr ⟨s.cpu c, s.pc⟩ from
    h.2
  refine hrun.state_invariant (motive := fun s => Owned s ∧ ∃ tr, Steps (Solo.Step cfg)
    (Solo.start fun _ => 0) tr ⟨s.cpu c, s.pc⟩) ⟨owned_init cfg, [], .nil _⟩ ?_
  rintro s a s' ⟨hs, tr, hsolo⟩ hstep
  obtain ⟨es, hes⟩ := solo_of_step hs hstep c
  exact ⟨hs.step hstep, tr ++ [es], hsolo.snoc hes⟩

/-- In the simulator, a CPU that holds nobody has no time left. -/
theorem timeLeft_eq_zero {s : Os cfg} {as : List (Act cfg)} (hrun : Steps Step (init cfg) as s)
    {c : Fin cfg.numCpus} (hheld : (s.cpu c).held = none) : (s.cpu c).timeLeft = 0 := by
  obtain ⟨tr, hsolo⟩ := solo_of_steps hrun c
  exact (Solo.spent_of_steps hsolo).held hheld

end Os

end Ossim
