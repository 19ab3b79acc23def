import Mathlib.Logic.Function.Basic

/-!
# A flat memory behind an address translation

Addresses `A` are translated to locations `L` of a store, some of them, and two different addresses
never to the same location. A history says what was last written to an address, if anything. The
store agrees with the history when every translated address finds its last value at its location.

Writing through the translation keeps the two in agreement, and so does every change of the
translation that gives locations only to addresses without a history.
-/

namespace Translation

variable {A L β α : Type*}

/-- Two addresses never share a location. -/
def Injective (tr : A → Option L) : Prop := ∀ a b l, tr a = some l → tr b = some l → a = b

/-- Every translated address with a last value has it at its location. -/
def Agrees (tr : A → Option L) (store : L → β) (hist : A → Option β) : Prop :=
  ∀ a l v, tr a = some l → hist a = some v → store l = v

/-- Nothing has been written yet. -/
theorem agrees_none (tr : A → Option L) (store : L → β) : Agrees tr store fun _ => none :=
  fun _ _ _ _ h => by cases h

/-- Writing to the location of an address is writing to the address. -/
theorem Agrees.write [DecidableEq A] [DecidableEq L] {tr : A → Option L} {store : L → β}
    {hist : A → Option β} (h : Agrees tr store hist) (hinj : Injective tr) {a : A} {l : L}
    (ha : tr a = some l) (v : β) :
    Agrees tr (Function.update store l v) (Function.update hist a (some v)) := by
  intro b k w hb hw
  rcases eq_or_ne b a with rfl | hne
  · rw [Function.update_self] at hw
    cases hw
    cases ha.symm.trans hb
    exact Function.update_self ..
  · rw [Function.update_of_ne hne] at hw
    have hk : k ≠ l := fun he => hne (hinj b a l (he ▸ hb) ha)
    rw [Function.update_of_ne hk]
    exact h b k w hb hw

/-- The translation may change, as long as it does not move an address that has a history. -/
theorem Agrees.remap {tr tr' : A → Option L} {store : L → β} {hist : A → Option β}
    (h : Agrees tr store hist) (htr : ∀ a l, tr' a = some l → tr a = some l ∨ hist a = none) :
    Agrees tr' store hist := by
  intro a l v ha hv
  rcases htr a l ha with hold | hnone
  · exact h a l v hold hv
  · cases hnone.symm.trans hv

/-! ## Histories -/

/-- What a list of actions, oldest first, last wrote to each address. -/
def latest [DecidableEq A] (writes : α → Option (A × β)) (as : List α) : A → Option β :=
  as.foldl
    (fun hist a =>
      match writes a with
      | some (x, v) => Function.update hist x (some v)
      | none => hist)
    fun _ => none

theorem latest_snoc_write [DecidableEq A] {writes : α → Option (A × β)} (as : List α) {a : α} {x : A}
    {v : β} (h : writes a = some (x, v)) :
    latest writes (as ++ [a]) = Function.update (latest writes as) x (some v) := by
  simp only [latest, List.foldl_append, List.foldl_cons, List.foldl_nil, h]

theorem latest_snoc_other [DecidableEq A] {writes : α → Option (A × β)} (as : List α) {a : α}
    (h : writes a = none) : latest writes (as ++ [a]) = latest writes as := by
  simp only [latest, List.foldl_append, List.foldl_cons, List.foldl_nil, h]

end Translation
