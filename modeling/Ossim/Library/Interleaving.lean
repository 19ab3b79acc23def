import Ossim.Library.Steps
import Mathlib.Logic.Function.Basic

/-!
# Independent components

Components `ι` of one kind run side by side, one action of one component at a time, and no component
sees another. In every interleaving a component goes through the states that it would go through
alone with its own actions, and the interleaving goes through if all the components would.
-/

namespace Interleaving

variable {ι σ α : Type*} [DecidableEq ι]

/-- The actions of one component. -/
def own (i : ι) (as : List (ι × α)) : List α := (as.filter fun a => a.1 = i).map Prod.snd

/-- One action of one component. -/
def step (f : σ → α → Option σ) (v : ι → σ) (a : ι × α) : Option (ι → σ) :=
  (f (v a.1) a.2).map (Function.update v a.1)

@[simp] theorem own_nil (i : ι) : own i ([] : List (ι × α)) = [] := rfl

theorem own_cons (i : ι) (a : ι × α) (as : List (ι × α)) :
    own i (a :: as) = if a.1 = i then a.2 :: own i as else own i as := by
  unfold own
  rw [List.filter_cons]
  by_cases h : a.1 = i
  · simp [h]
  · simp [h]

/-- **A component runs as if it were alone.** -/
theorem exec_eq_some {f : σ → α → Option σ} {v w : ι → σ} {as : List (ι × α)} :
    Steps.exec (step f) v as = some w ↔ ∀ i, Steps.exec f (v i) (own i as) = some (w i) := by
  induction as generalizing v with
  | nil =>
      simp only [Steps.exec, own_nil, Option.some.injEq]
      exact funext_iff
  | cons a as ih =>
      have hcons : Steps.exec (step f) v (a :: as) =
          (f (v a.1) a.2).bind fun x => Steps.exec (step f) (Function.update v a.1 x) as := by
        simp only [Steps.exec, step, Option.bind_map, Function.comp_def]
      rw [hcons]
      constructor
      · intro h i
        obtain ⟨x, hx, hrest⟩ := Option.bind_eq_some_iff.mp h
        have hi := ih.mp hrest i
        rw [own_cons]
        split
        · next heq =>
          subst heq
          rw [Function.update_self] at hi
          exact Option.bind_eq_some_iff.mpr ⟨x, hx, hi⟩
        · next hne => rwa [Function.update_of_ne (Ne.symm hne)] at hi
      · intro h
        have hself := h a.1
        rw [own_cons, if_pos rfl] at hself
        obtain ⟨x, hx, hrest⟩ := Option.bind_eq_some_iff.mp hself
        refine Option.bind_eq_some_iff.mpr ⟨x, hx, ih.mpr fun i => ?_⟩
        rcases eq_or_ne i a.1 with rfl | hne
        · rwa [Function.update_self]
        · have hi := h i
          rw [own_cons, if_neg hne.symm] at hi
          rwa [Function.update_of_ne hne]

end Interleaving
