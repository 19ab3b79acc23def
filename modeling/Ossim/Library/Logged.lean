import Mathlib.Logic.Basic

/-!
# Programs that log what they touch

A program that can fail is an `Except ε α`. A `Logged bad ε α` is such a program that also writes down
what it touches on the way, in order, until it fails. Some things are `bad` to touch: no program gets
past one of them, and that is a field, so whoever builds a program from `pure`, `lift`, `emit` and
`bind` has proved it.

Forgetting the log, `Logged.result`, is a morphism of monads: the logged program computes what the
program computes that is written in the same way without a log.
-/

/-- A program that can fail, with the log of what it touches. -/
structure Logged {ω : Type} (bad : ω → Prop) (ε α : Type) where
  log : List ω
  result : Except ε α
  ends : ∀ w ∈ log, bad w → ∃ e, result = .error e

namespace Logged

variable {ω ε α β : Type} {bad : ω → Prop}

/-- A program that touches nothing. -/
def lift (x : Except ε α) : Logged bad ε α := ⟨[], x, fun _ h => absurd h List.not_mem_nil⟩

/-- A program that touches one thing, and fails if that is bad. -/
def emit (w : ω) (x : Except ε α) (h : bad w → ∃ e, x = .error e) : Logged bad ε α :=
  ⟨[w], x, fun _ hmem hbad => h (List.mem_singleton.mp hmem ▸ hbad)⟩

/-- What the second of two programs touches: nothing if it does not come to it. -/
def logNext (x : Except ε α) (f : α → Logged bad ε β) : List ω :=
  match x with
  | .error _ => []
  | .ok a => (f a).log

theorem mem_logNext {x : Except ε α} {f : α → Logged bad ε β} {w : ω} :
    w ∈ logNext x f ↔ ∃ a, x = .ok a ∧ w ∈ (f a).log := by
  cases x with
  | error e => simp [logNext]
  | ok a => simp [logNext]

instance : Monad (Logged bad ε) where
  pure a := lift (.ok a)
  bind x f :=
    { log := x.log ++ logNext x.result f
      result := x.result >>= fun a => (f a).result
      ends := by
        intro w hmem hbad
        rcases List.mem_append.mp hmem with hfirst | hsecond
        · obtain ⟨e, he⟩ := x.ends w hfirst hbad
          exact ⟨e, by rw [he]; rfl⟩
        · obtain ⟨a, ha, hlog⟩ := mem_logNext.mp hsecond
          obtain ⟨e, he⟩ := (f a).ends w hlog hbad
          exact ⟨e, by rw [ha]; exact he⟩ }

/-! ## What is computed -/

@[simp] theorem result_lift (x : Except ε α) : (lift x : Logged bad ε α).result = x := rfl

@[simp] theorem result_bind (x : Logged bad ε α) (f : α → Logged bad ε β) :
    (x >>= f).result = x.result >>= fun a => (f a).result := rfl

@[simp] theorem result_ite (p : Prop) [Decidable p] (x y : Logged bad ε α) :
    (if p then x else y).result = if p then x.result else y.result := apply_ite result p x y

/-! ## What is touched -/

/-- A program touches only things with a property. -/
def Touches (P : ω → Prop) (x : Logged bad ε α) : Prop := ∀ w ∈ x.log, P w

variable {P Q : ω → Prop}

theorem Touches.mono {x : Logged bad ε α} (hx : Touches P x) (h : ∀ w, P w → Q w) : Touches Q x :=
  fun w hmem => h w (hx w hmem)

@[simp] theorem touches_pure (a : α) : Touches P (pure a : Logged bad ε α) :=
  fun _ hmem => absurd hmem List.not_mem_nil

@[simp] theorem touches_lift (x : Except ε α) : Touches P (lift x : Logged bad ε α) :=
  fun _ hmem => absurd hmem List.not_mem_nil

@[simp] theorem touches_emit {w : ω} {x : Except ε α} (h : bad w → ∃ e, x = .error e) :
    Touches P (emit w x h) ↔ P w := List.forall_mem_singleton

/-- One program after another touches what the first does, and what the second does if there is a
second. -/
@[simp] theorem touches_bind {x : Logged bad ε α} {f : α → Logged bad ε β} :
    Touches P (x >>= f) ↔ Touches P x ∧ ∀ a, x.result = .ok a → Touches P (f a) := by
  constructor
  · intro h
    refine ⟨fun w hmem => h w (List.mem_append_left _ hmem), ?_⟩
    intro a ha w hmem
    exact h w (List.mem_append_right _ (mem_logNext.mpr ⟨a, ha, hmem⟩))
  · rintro ⟨hx, hf⟩ w hmem
    rcases List.mem_append.mp hmem with hfirst | hsecond
    · exact hx w hfirst
    · obtain ⟨a, ha, hlog⟩ := mem_logNext.mp hsecond
      exact hf a ha w hlog

@[simp] theorem touches_ite {p : Prop} [Decidable p] {x y : Logged bad ε α} :
    Touches P (if p then x else y) ↔ (p → Touches P x) ∧ (¬ p → Touches P y) := by
  by_cases hp : p <;> simp [hp]

end Logged
