import Mathlib.Logic.Relation

/-!
# Runs of a labelled transition relation

A program that takes one action after another is a relation `R s a t`: from state `s` the action
`a` leads to `t`. `Steps R s as t` is a run of it that performs the actions `as`, oldest first. A
run grows at its newest end, so an invariant may speak about the state *and* about everything that
was done so far; `Steps.invariant` is the one induction every safety result goes through.

Runs that meet a side condition at every step are the runs of the restricted relation
`Meeting pre R`.
-/

namespace Steps

variable {σ α : Type*}

/-- The steps of `R` whose source state and action meet `pre`. -/
def Meeting (pre : σ → α → Prop) (R : σ → α → σ → Prop) : σ → α → σ → Prop :=
  fun s a t => pre s a ∧ R s a t

end Steps

/-- `Steps R s as t`: performing the actions `as` one after another leads from `s` to `t`. -/
inductive Steps {σ α : Type*} (R : σ → α → σ → Prop) : σ → List α → σ → Prop
  | nil (s : σ) : Steps R s [] s
  | snoc {s t u : σ} {as : List α} {a : α} : Steps R s as t → R t a u → Steps R s (as ++ [a]) u

namespace Steps

variable {σ α : Type*} {R R' : σ → α → σ → Prop} {s t u : σ} {as bs : List α}

/-- A run may also be extended at its oldest end. -/
theorem cons {a : α} (hR : R s a t) (hrun : Steps R t as u) : Steps R s (a :: as) u := by
  induction hrun with
  | nil => exact show Steps R s ([] ++ [a]) _ from .snoc (.nil s) hR
  | @snoc v w bs b _ hR' ih => exact show Steps R s ((a :: bs) ++ [b]) w from .snoc ih hR'

/-- One run after another. -/
theorem append (hrun : Steps R s as t) (hrun' : Steps R t bs u) : Steps R s (as ++ bs) u := by
  induction hrun' with
  | nil => rwa [List.append_nil]
  | snoc _ hR ih =>
      rw [← List.append_assoc]
      exact .snoc ih hR

/-- An invariant of the history and the state holds along every run from a state where it holds
of the empty history. -/
theorem invariant {motive : List α → σ → Prop} (hinit : motive [] s)
    (hstep : ∀ as t a u, motive as t → R t a u → motive (as ++ [a]) u) (hrun : Steps R s as t) :
    motive as t := by
  induction hrun with
  | nil => exact hinit
  | snoc _ hR ih => exact hstep _ _ _ _ ih hR

/-- The case of `invariant` where the history does not matter. -/
theorem state_invariant {motive : σ → Prop} (hinit : motive s)
    (hstep : ∀ t a u, motive t → R t a u → motive u) (hrun : Steps R s as t) : motive t :=
  hrun.invariant (motive := fun _ => motive) hinit fun _ => hstep

/-- A run of `R` is a run of any relation that contains it. -/
theorem mono (h : ∀ s a t, R s a t → R' s a t) (hrun : Steps R s as t) : Steps R' s as t := by
  induction hrun with
  | nil => exact .nil _
  | snoc _ hR ih => exact .snoc ih (h _ _ _ hR)

/-- A run all of whose actions meet a condition is a run of the restricted relation. -/
theorem meeting_of_forall {P : α → Prop} (hrun : Steps R s as t) (h : ∀ a ∈ as, P a) :
    Steps (Meeting (fun _ a => P a) R) s as t := by
  induction hrun with
  | nil => exact .nil _
  | snoc _ hR ih =>
      exact .snoc (ih fun a ha => h a (List.mem_append_left _ ha)) ⟨h _ (by simp), hR⟩

/-- **Forward simulation.** If every step of `R` can be followed by a step of `R'` with the same action,
then so can every run. -/
theorem simulate {τ : Type*} {Q : τ → α → τ → Prop} {s' : τ} (rel : σ → τ → Prop) (hinit : rel s s')
    (hstep : ∀ s a t s', rel s s' → R s a t → ∃ t', Q s' a t' ∧ rel t t') (hrun : Steps R s as t) :
    ∃ t', Steps Q s' as t' ∧ rel t t' := by
  induction hrun with
  | nil => exact ⟨s', .nil s', hinit⟩
  | snoc _ hR ih =>
      obtain ⟨u', hrun', hrel⟩ := ih
      obtain ⟨t', hQ, hrel'⟩ := hstep _ _ _ _ hrel hR
      exact ⟨t', .snoc hrun' hQ, hrel'⟩

/-- A rank that no step raises and every counted action lowers pays for the counted actions of a
run. -/
theorem countP_add_rank_le (counted : α → Bool) (rank : σ → Int) (inv : σ → Prop) (hinit : inv s)
    (hstep : ∀ s a t, inv s → R s a t →
      inv t ∧ rank t + (if counted a then 1 else 0) ≤ rank s) (hrun : Steps R s as t) :
    inv t ∧ rank t + (as.countP counted : Nat) ≤ rank s := by
  induction hrun with
  | nil => exact ⟨hinit, by simp⟩
  | snoc _ hR ih =>
      obtain ⟨hinv, hle⟩ := ih
      obtain ⟨hinv', hle'⟩ := hstep _ _ _ hinv hR
      refine ⟨hinv', ?_⟩
      rw [List.countP_append, List.countP_singleton]
      split at hle'
      · next hcounted =>
        rw [if_pos hcounted]
        omega
      · next hcounted =>
        rw [if_neg hcounted]
        omega

/-- **Rounds that cost something.** A clock divides a run into rounds. No action raises the outstanding
cost, and a round that ends at the cost it began with was quiet to its end. If a quiet round can only
end by time `m` as long as the run is live, the clock of a live run is at most `m` and the cost of the
start. -/
theorem clock_add_cost_le {inv live quiet : σ → Prop} {clock : σ → Nat} {cost : σ → Int} {m : Nat}
    (hinit : inv s ∧ quiet s ∧ clock s ≤ m)
    (hstep : ∀ s a t, inv s → R s a t → inv t ∧ (live t → live s) ∧ cost t ≤ cost s ∧
      (clock t = clock s ∧ (cost t = cost s → quiet s → quiet t) ∨
        clock t = clock s + 1 ∧ quiet t ∧ (quiet s → live s → clock t ≤ m)))
    (hrun : Steps R s as t) (hlive : live t) : clock t + cost t ≤ m + cost s := by
  -- `start` is the cost with which the current round has begun
  suffices h : inv t ∧ cost t ≤ cost s ∧ (live t → ∃ start, clock t + start ≤ m + cost s ∧
      cost t ≤ start ∧ (cost t = start → quiet t)) by
    obtain ⟨-, -, hround⟩ := h
    obtain ⟨start, hclock, hle, -⟩ := hround hlive
    omega
  refine hrun.state_invariant (motive := fun t => inv t ∧ cost t ≤ cost s ∧ (live t → ∃ start,
    clock t + start ≤ m + cost s ∧ cost t ≤ start ∧ (cost t = start → quiet t))) ?_ ?_
  · exact ⟨hinit.1, Int.le_refl _, fun _ => ⟨cost s, by omega, Int.le_refl _, fun _ => hinit.2.1⟩⟩
  · rintro u a v ⟨hinv, hspent, hround⟩ hR
    obtain ⟨hinv', hback, hle, hwithin | ⟨htick, hquiet, hidle⟩⟩ := hstep u a v hinv hR
    · refine ⟨hinv', by omega, fun hv => ?_⟩
      obtain ⟨start, hclock, hstart, hq⟩ := hround (hback hv)
      refine ⟨start, by omega, by omega, fun heq => ?_⟩
      exact hwithin.2 (by omega) (hq (by omega))
    · refine ⟨hinv', by omega, fun hv => ⟨cost v, ?_, Int.le_refl _, fun _ => hquiet⟩⟩
      obtain ⟨start, hclock, hstart, hq⟩ := hround (hback hv)
      by_cases hsame : cost u = start
      · have := hidle (hq hsame) (hback hv)
        omega
      · omega

/-! ### Executing a list of actions -/

/-- Execute actions with a partial step function. -/
def exec (f : σ → α → Option σ) : σ → List α → Option σ
  | s, [] => some s
  | s, a :: as => (f s a).bind fun t => exec f t as

/-- An execution that goes through is a run. -/
theorem of_exec {f : σ → α → Option σ} (h : exec f s as = some t) :
    Steps (fun s a t => f s a = some t) s as t := by
  induction as generalizing s with
  | nil =>
      cases h
      exact .nil _
  | cons a as ih =>
      obtain ⟨u, hu, ht⟩ := Option.bind_eq_some_iff.mp h
      exact .cons hu (ih ht)

/-- A rank that no step lowers is not lowered by an execution. -/
theorem exec_le {f : σ → α → Option σ} (rank : σ → Nat)
    (hstep : ∀ s a t, f s a = some t → rank s ≤ rank t) (h : exec f s as = some t) :
    rank s ≤ rank t :=
  (of_exec h).state_invariant (motive := fun t => rank s ≤ rank t) (Nat.le_refl _)
    fun _ _ _ hle hf => Nat.le_trans hle (hstep _ _ _ hf)

/-- A step function that refuses the steps that do not meet a side condition. -/
def checked (pre : σ → α → Prop) [∀ s a, Decidable (pre s a)] (f : σ → α → Option σ) :
    σ → α → Option σ :=
  fun s a => if pre s a then f s a else none

/-- An execution that is not refused is a run of the restricted relation. -/
theorem of_exec_checked {pre : σ → α → Prop} [∀ s a, Decidable (pre s a)] {f : σ → α → Option σ}
    (h : exec (checked pre f) s as = some t) :
    Steps (Meeting pre fun s a t => f s a = some t) s as t := by
  refine (of_exec h).mono fun s a t hstep => ?_
  unfold checked at hstep
  split at hstep
  · next hpre => exact ⟨hpre, hstep⟩
  · cases hstep

end Steps
