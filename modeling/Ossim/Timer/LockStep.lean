import Ossim.Library.Steps
import Ossim.Timer.Basic

/-!
# The timer and its devices run in lock step

The invariant depends on where the timer is. Outside of the second loop every device that has not
detached is `Current`: it has completed as many calls of `next_slot` as `_time` was incremented, or
one less if it was released and has not noticed yet. The devices the first loop has passed are stuck
in `next_slot` with `done` raised and seen. After the increment the second loop turns each of them
from `Held` back into `Current`.

`Good s` says this for every device, through `Fits`, which says it for one. Each action changes the
timer or one device, and the lemmas on `Fits` treat the devices it leaves alone.
-/

namespace Ossim.Timer

variable {n : Nat}

/-- A device in step with `t` ticks, whose flag the first loop has not looked at yet. -/
def Device.Current (t : Nat) (d : Device) : Prop :=
  d.seen = false ∧
    ((d.phase = .working ∧ d.done = false ∧ d.completed = t) ∨
      (d.phase = .waiting ∧ d.done = true ∧ d.completed = t) ∨
      (d.phase = .waiting ∧ d.done = false ∧ d.completed + 1 = t))

/-- A device that waits with its flag raised and seen, after `t` completed calls. -/
def Device.Held (t : Nat) (d : Device) : Prop :=
  d.seen = true ∧ d.phase = .waiting ∧ d.done = true ∧ d.completed = t

/-- What a device number `k` that has not detached looks like, when the timer is at `phase` and has
incremented `_time` for the `t`-th time. -/
def Fits (t k : Nat) (d : Device) : TimerPhase → Prop
  | .head | .exited => d.Current t
  | .collect i _ _ => if k < i then d.Held t else d.Current t
  | .advance _ _ => d.Held t
  | .release i _ _ => if k < i then d.Current t else ∃ t', t = t' + 1 ∧ d.Held t'

/-- The invariant. -/
structure Good (s : State n) : Prop where
  time_eq : s.time = BitVec.ofNat 64 s.ticks
  gone_iff : ∀ k, (s.dev k).phase = .gone ↔ (s.dev k).fsh = true
  fits : ∀ k, (s.dev k).fsh = false → Fits s.ticks k (s.dev k) s.timer

theorem good_init (n : Nat) : Good (init n) where
  time_eq := rfl
  gone_iff k := by simp [init, attachEvent]
  fits k _ := by simp [init, attachEvent, Fits, Device.Current]

/-- A device the timer holds can do nothing. -/
theorem Device.Held.stuck {t : Nat} {d : Device} (h : d.Held t) :
    ¬ (d.phase = .working ∨ d.done = false) := by
  rintro (hwork | hdone)
  · cases hwork.symm.trans h.2.1
  · cases hdone.symm.trans h.2.2.1

/-- A device that can act is current: the timer has neither passed it nor is about to release it. -/
theorem Fits.current {t k : Nat} {d : Device} {phase : TimerPhase} (h : Fits t k d phase)
    (hact : d.phase = .working ∨ d.done = false) : d.Current t := by
  cases phase with
  | head | exited => exact h
  | collect i fsh event =>
      simp only [Fits] at h
      split at h
      · exact absurd hact h.stuck
      · exact h
  | advance fsh event => exact absurd hact h.stuck
  | release i fsh event =>
      simp only [Fits] at h
      split at h
      · exact h
      · obtain ⟨t', -, hd⟩ := h
        exact absurd hact hd.stuck

/-- A device may go from one current state to another wherever the timer is, if it could act. -/
theorem Fits.of_current {t k : Nat} {d d' : Device} {phase : TimerPhase} (h : Fits t k d phase)
    (hact : d.phase = .working ∨ d.done = false) (hd' : d'.Current t) : Fits t k d' phase := by
  cases phase with
  | head | exited => exact hd'
  | collect i fsh event =>
      simp only [Fits] at h ⊢
      split at h
      · exact absurd hact h.stuck
      · next hk => rwa [if_neg hk]
  | advance fsh event => exact absurd hact h.stuck
  | release i fsh event =>
      simp only [Fits] at h ⊢
      split at h
      · next hk => rwa [if_pos hk]
      · obtain ⟨t', -, hd⟩ := h
        exact absurd hact hd.stuck

/-- An action of one device keeps the invariant, if it takes that device to a current state or out
of the system. -/
theorem Good.update_dev {s : State n} (hs : Good s) {k : Fin n} {d' : Device}
    (hgone : d'.phase = .gone ↔ d'.fsh = true)
    (hfits : d'.fsh = false → Fits s.ticks k d' s.timer) :
    Good { s with dev := Function.update s.dev k d' } := by
  refine ⟨hs.time_eq, fun j => ?_, fun j hj => ?_⟩
  · rcases eq_or_ne j k with rfl | hne
    · simpa using hgone
    · simpa [Function.update_of_ne hne] using hs.gone_iff j
  · rcases eq_or_ne j k with rfl | hne
    · simp only [Function.update_self] at hj ⊢
      exact hfits hj
    · simp only [Function.update_of_ne hne] at hj ⊢
      exact hs.fits j hj

theorem not_fsh_of_phase {s : State n} (hs : Good s) {k : Fin n} {p : DevPhase}
    (hphase : (s.dev k).phase = p) (hp : p ≠ .gone) : (s.dev k).fsh = false := by
  cases hf : (s.dev k).fsh with
  | false => rfl
  | true => exact absurd (hphase.symm.trans ((hs.gone_iff k).mpr hf)) hp

theorem Good.raise {s s' : State n} {k : Fin n} (hs : Good s) (h : Step s (.raise k) s') :
    Good s' := by
  simp only [Step, step] at h
  split at h
  · next hphase =>
    cases h
    have hf := not_fsh_of_phase hs hphase (by simp)
    have hfits := hs.fits k hf
    obtain ⟨hseen, hcur⟩ := hfits.current (.inl hphase)
    -- a working device has completed a call for every tick
    refine hs.update_dev (by simp [hf]) fun _ => hfits.of_current (.inl hphase) ⟨hseen, ?_⟩
    rcases hcur with ⟨-, -, hcompleted⟩ | ⟨hwait, -⟩ | ⟨hwait, -⟩
    · exact .inr (.inl ⟨rfl, rfl, hcompleted⟩)
    · cases hphase.symm.trans hwait
    · cases hphase.symm.trans hwait
  · cases h

theorem Good.pass {s s' : State n} {k : Fin n} (hs : Good s) (h : Step s (.pass k) s') :
    Good s' := by
  simp only [Step, step] at h
  split at h
  · next hphase =>
    cases h
    have hf := not_fsh_of_phase hs hphase.1 (by simp)
    have hfits := hs.fits k hf
    obtain ⟨hseen, hcur⟩ := hfits.current (.inr hphase.2)
    -- a waiting device whose flag is down was released by the last tick
    refine hs.update_dev (by simp [hf]) fun _ => hfits.of_current (.inr hphase.2) ⟨hseen, ?_⟩
    rcases hcur with ⟨hwork, -⟩ | ⟨-, hdone, -⟩ | ⟨-, -, hcompleted⟩
    · cases hphase.1.symm.trans hwork
    · cases hphase.2.symm.trans hdone
    · exact .inl ⟨rfl, hphase.2, hcompleted⟩
  · cases h

theorem Good.detach {s s' : State n} {k : Fin n} (hs : Good s) (h : Step s (.detach k) s') :
    Good s' := by
  simp only [Step, step] at h
  split at h
  · cases h
    exact hs.update_dev (by simp) (by simp)
  · cases h

/-- In the first loop: the timer has found the flag of device `i` raised, or the device gone. -/
theorem Good.collect {s : State n} (hs : Good s) {i fsh event fsh' event' : Nat} (hi : i < n)
    (htimer : s.timer = .collect i fsh event)
    (hflag : (s.dev ⟨i, hi⟩).done = true ∨ (s.dev ⟨i, hi⟩).fsh = true) :
    Good { s with
      dev := Function.update s.dev ⟨i, hi⟩ { s.dev ⟨i, hi⟩ with seen := (s.dev ⟨i, hi⟩).done }
      timer := .collect (i + 1) fsh' event' } := by
  refine ⟨hs.time_eq, fun j => ?_, fun j hj => ?_⟩
  · rcases eq_or_ne j ⟨i, hi⟩ with rfl | hne
    · simpa using hs.gone_iff ⟨i, hi⟩
    · simpa [Function.update_of_ne hne] using hs.gone_iff j
  · rcases eq_or_ne j ⟨i, hi⟩ with rfl | hne
    · simp only [Function.update_self] at hj ⊢
      have hdone := hflag.resolve_right (by simp [hj])
      have hcur := hs.fits _ hj
      simp only [htimer, Fits, Nat.lt_irrefl, if_false] at hcur
      simp only [Fits, Nat.lt_succ_self, if_true]
      exact ⟨hdone, by simpa [hdone] using hcur.2⟩
    · have hne' : (j : Nat) ≠ i := fun h => hne (Fin.ext h)
      simp only [Function.update_of_ne hne] at hj ⊢
      have hfits := hs.fits j hj
      have hlt : ((j : Nat) < i + 1) ↔ (j : Nat) < i := by omega
      simpa only [htimer, Fits, hlt] using hfits

/-- In the second loop: the timer clears the flag of device `i`. -/
theorem Good.release {s : State n} (hs : Good s) {i fsh event : Nat} (hi : i < n)
    (htimer : s.timer = .release i fsh event) :
    Good { s with
      dev := Function.update s.dev ⟨i, hi⟩ { s.dev ⟨i, hi⟩ with done := false, seen := false }
      timer := .release (i + 1) fsh event } := by
  refine ⟨hs.time_eq, fun j => ?_, fun j hj => ?_⟩
  · rcases eq_or_ne j ⟨i, hi⟩ with rfl | hne
    · simpa using hs.gone_iff ⟨i, hi⟩
    · simpa [Function.update_of_ne hne] using hs.gone_iff j
  · rcases eq_or_ne j ⟨i, hi⟩ with rfl | hne
    · simp only [Function.update_self] at hj ⊢
      have hheld := hs.fits _ hj
      simp only [htimer, Fits, Nat.lt_irrefl, if_false] at hheld
      obtain ⟨t', ht, -, hphase, -, hcompleted⟩ := hheld
      simp only [Fits, Nat.lt_succ_self, if_true]
      exact ⟨rfl, .inr (.inr ⟨hphase, rfl, by simp only; omega⟩)⟩
    · have hne' : (j : Nat) ≠ i := fun h => hne (Fin.ext h)
      simp only [Function.update_of_ne hne] at hj ⊢
      have hfits := hs.fits j hj
      have hlt : ((j : Nat) < i + 1) ↔ (j : Nat) < i := by omega
      simpa only [htimer, Fits, hlt] using hfits

/-- Moving the timer alone keeps the invariant, if what it asks of the devices does not change. -/
theorem Good.move_timer {s : State n} (hs : Good s) {phase : TimerPhase}
    (h : ∀ k : Fin n, Fits s.ticks k (s.dev k) s.timer → Fits s.ticks k (s.dev k) phase) :
    Good { s with timer := phase } :=
  ⟨hs.time_eq, hs.gone_iff, fun k hk => h k (hs.fits k hk)⟩

/-- **Every section of the timer keeps the invariant.** -/
theorem Good.timerRoutine {s s' : State n} (hs : Good s) (h : Step s .timer s') : Good s' := by
  simp only [Step, step, Timer.timerRoutine] at h
  split at h
  · next htimer =>
    split at h
    · cases h
      exact hs.move_timer fun k hk => by simpa [htimer, Fits] using hk
    · cases h
      exact hs.move_timer fun k hk => by simpa [htimer, Fits] using hk
  · next i fsh event htimer =>
    split at h
    · next hi =>
      split at h
      · next hflag =>
        cases h
        exact hs.collect hi htimer (by simpa using hflag)
      · cases h
    · next hi =>
      -- past the last device: everybody has been collected
      cases h
      refine hs.move_timer fun k hk => ?_
      have := k.isLt
      simpa [htimer, Fits, show (k : Nat) < i by omega] using hk
  · next fsh event htimer =>
    -- `_time++`: held for tick `t` becomes held for one tick before `t + 1`
    cases h
    refine ⟨?_, hs.gone_iff, fun k hk => ?_⟩
    · rw [hs.time_eq]
      simp [BitVec.ofNat_add]
    · have hheld := hs.fits k hk
      simp only [htimer, Fits] at hheld
      simpa [Fits] using hheld
  · next i fsh event htimer =>
    split at h
    · next hi =>
      cases h
      exact hs.release hi htimer
    · next hi =>
      -- past the last device: everybody has been released
      have hall : ∀ k : Fin n, Fits s.ticks k (s.dev k) s.timer → (s.dev k).Current s.ticks :=
        fun k hk => by
          have := k.isLt
          simpa [htimer, Fits, show (k : Nat) < i by omega] using hk
      split at h
      · cases h
        exact hs.move_timer hall
      · cases h
        exact hs.move_timer hall
  · cases h

theorem Good.step {s s' : State n} {a : Act n} (hs : Good s) (h : Step s a s') : Good s' := by
  cases a with
  | timer => exact hs.timerRoutine h
  | raise k => exact hs.raise h
  | pass k => exact hs.pass h
  | detach k => exact hs.detach h
  | stop =>
      cases h
      exact ⟨hs.time_eq, hs.gone_iff, hs.fits⟩

theorem good_of_run {s : State n} {as : List (Act n)} (hrun : Steps Step (init n) as s) : Good s :=
  hrun.state_invariant (good_init n) fun _ _ _ => Good.step

/-! ## What the invariant says -/

/-- A device has completed as many calls of `next_slot` as there were ticks, or one less. -/
theorem Fits.completed {t k : Nat} {d : Device} {phase : TimerPhase} (h : Fits t k d phase) :
    d.completed = t ∨ d.completed + 1 = t := by
  have hcur : d.Current t → d.completed = t ∨ d.completed + 1 = t := by
    rintro ⟨-, ⟨-, -, h⟩ | ⟨-, -, h⟩ | ⟨-, -, h⟩⟩
    · exact .inl h
    · exact .inl h
    · exact .inr h
  cases phase with
  | head | exited => exact hcur h
  | collect i fsh event =>
      simp only [Fits] at h
      split at h
      · exact .inl h.2.2.2
      · exact hcur h
  | advance fsh event => exact .inl h.2.2.2
  | release i fsh event =>
      simp only [Fits] at h
      split at h
      · exact hcur h
      · obtain ⟨t', rfl, hd⟩ := h
        exact .inr (by rw [hd.2.2.2])

/-- Only the section before the second loop changes `_time`, by one. -/
theorem advance_of_time_ne {s s' : State n} {a : Act n} (h : Step s a s') (hne : s'.time ≠ s.time) :
    (∃ fsh event, s.timer = .advance fsh event) ∧ s'.ticks = s.ticks + 1 := by
  cases a with
  | timer =>
      simp only [Step, step, Timer.timerRoutine] at h
      split at h
      · split at h <;> cases h <;> exact absurd rfl hne
      · split at h
        · split at h <;> cases h
          exact absurd rfl hne
        · cases h
          exact absurd rfl hne
      · next fsh event htimer =>
        cases h
        exact ⟨⟨fsh, event, htimer⟩, rfl⟩
      · split at h
        · cases h
          exact absurd rfl hne
        · split at h <;> cases h <;> exact absurd rfl hne
      · cases h
  | raise k | pass k | detach k =>
      simp only [Step, step] at h
      split at h <;> cases h
      exact absurd rfl hne
  | stop =>
      cases h
      exact absurd rfl hne

/-- Only the second loop clears a `done` flag, of the device it is at. -/
theorem release_of_done_cleared {s s' : State n} {a : Act n} {k : Fin n} (h : Step s a s')
    (hdone : (s.dev k).done = true) (hclear : (s'.dev k).done = false) :
    ∃ fsh event, s.timer = .release k fsh event := by
  have hsame : s'.dev k = s.dev k → False := fun he => by
    rw [he, hdone] at hclear
    cases hclear
  -- A device that changes without losing the flag, or another device that changes.
  have hupdate : ∀ (j : Fin n) (d' : Device), (j = k → d'.done = true) →
      s'.dev = Function.update s.dev j d' → False := fun j d' hd' he => by
    rcases eq_or_ne k j with rfl | hkj
    · rw [he, Function.update_self, hd' rfl] at hclear
      cases hclear
    · exact hsame (by rw [he, Function.update_of_ne hkj])
  cases a with
  | timer =>
      simp only [Step, step, Timer.timerRoutine] at h
      split at h
      · split at h <;> cases h <;> exact (hsame rfl).elim
      · split at h
        · split at h <;> cases h
          exact (hupdate _ _ (fun hj => by simpa [hj] using hdone) rfl).elim
        · cases h
          exact (hsame rfl).elim
      · cases h
        exact (hsame rfl).elim
      · next i fsh event htimer =>
        split at h
        · next hi =>
          cases h
          rcases eq_or_ne k ⟨i, hi⟩ with rfl | hki
          · exact ⟨fsh, event, htimer⟩
          · exact (hsame (by simp [Function.update_of_ne hki])).elim
        · split at h <;> cases h <;> exact (hsame rfl).elim
      · cases h
  | raise j =>
      simp only [Step, step] at h
      split at h <;> cases h
      exact (hupdate j _ (fun _ => rfl) rfl).elim
  | pass j =>
      simp only [Step, step] at h
      split at h <;> cases h
      next hj =>
      exact (hupdate j _ (fun hjk => absurd (hjk ▸ hdone) (by simp [hj.2])) rfl).elim
  | detach j =>
      simp only [Step, step] at h
      split at h <;> cases h
      exact (hupdate j _ (fun hjk => by simpa [hjk] using hdone) rfl).elim
  | stop =>
      cases h
      exact (hsame rfl).elim

/-- **The devices run in lock step with the timer**, in every interleaving: a device that has not
detached has completed as many calls of `next_slot` as `_time` has ticks or one less; `_time`
advances only while each of them waits in `next_slot` with its flag raised, having completed one
call for each earlier tick; and a raised flag is cleared only after the timer has seen it. -/
theorem lock_step {s : State n} {as : List (Act n)} (hrun : Steps Step (init n) as s) :
    (s.time = BitVec.ofNat 64 s.ticks ∧
      ∀ k, (s.dev k).phase ≠ .gone →
        (s.dev k).completed = s.ticks ∨ (s.dev k).completed + 1 = s.ticks) ∧
    (∀ a s', Step s a s' → s'.time ≠ s.time →
      s'.ticks = s.ticks + 1 ∧
      ∀ k, (s.dev k).phase ≠ .gone →
        (s.dev k).phase = .waiting ∧ (s.dev k).done = true ∧ (s.dev k).completed = s.ticks) ∧
    (∀ a s' k, Step s a s' → (s.dev k).phase ≠ .gone → (s.dev k).done = true →
      (s'.dev k).done = false → (s.dev k).seen = true) := by
  have hs := good_of_run hrun
  have hfits : ∀ k, (s.dev k).phase ≠ .gone → Fits s.ticks k (s.dev k) s.timer := fun k hk =>
    hs.fits k (not_fsh_of_phase hs rfl hk)
  refine ⟨⟨hs.time_eq, fun k hk => (hfits k hk).completed⟩, fun a s' hstep hne => ?_,
    fun a s' k hstep hk hdone hclear => ?_⟩
  · obtain ⟨⟨fsh, event, htimer⟩, hticks⟩ := advance_of_time_ne hstep hne
    refine ⟨hticks, fun k hk => ?_⟩
    have hheld := hfits k hk
    rw [htimer] at hheld
    exact hheld.2
  · obtain ⟨fsh, event, htimer⟩ := release_of_done_cleared hstep hdone hclear
    have hheld := hfits k hk
    simp only [htimer, Fits, Nat.lt_irrefl, if_false] at hheld
    obtain ⟨t', -, hseen, -⟩ := hheld
    exact hseen

/-- Two devices: the second one is slow, the timer waits for it, and the first one may not call
`next_slot` again in between. -/
theorem lock_step_two_devices :
    ∃ s : State 2,
      Steps Step (init 2) [.raise 0, .timer, .timer, .raise 1, .timer, .timer] s ∧
      ∃ s', Step s .timer s' ∧ s'.ticks = s.ticks + 1 ∧
        ∀ k, (s.dev k).phase ≠ .gone →
          (s.dev k).phase = .waiting ∧ (s.dev k).done = true ∧ (s.dev k).completed = s.ticks := by
  have hrun : Steps Step (init 2) [.raise 0, .timer, .timer, .raise 1, .timer, .timer] _ :=
    .cons rfl (.cons rfl (.cons rfl (.cons rfl (.cons rfl (.cons rfl (.nil _))))))
  obtain ⟨-, htick, -⟩ := lock_step hrun
  exact ⟨_, hrun, _, rfl, htick .timer _ rfl (by decide)⟩

end Ossim.Timer
