import Mathlib.Data.List.InsertIdx

/-!
# Waiting lines

A line of people who wait, each with the number under which they arrived. Numbers are given out in
order, so a smaller number means a longer wait. Whoever arrives at a line that is full goes away
again; being served is a matter of numbers, not of places: it takes the smallest number there is.

`Line.who` forgets the numbers, and what is left is a list that grows at its end. Serving takes its
head (`Line.Served.who`, `Line.served_of_who`), so a list on which a program does the same is first
in, first out.
-/

namespace Fifo

/-- A line, in the order of arrival. -/
structure Line (α : Type*) where
  items : List (Nat × α)
  next : Nat
  ordered : items.Pairwise fun x y => x.1 < y.1
  fresh : ∀ x ∈ items, x.1 < next

namespace Line

variable {α : Type*}

/-- Nobody waits. -/
def nil : Line α := ⟨[], 0, .nil, by simp⟩

/-- Who waits. -/
def who (l : Line α) : List α := l.items.map Prod.snd

/-- Somebody arrives at a line with room for `cap`. -/
def arrive (cap : Nat) (l : Line α) (a : α) : Line α :=
  if l.items.length < cap then
    { items := l.items ++ [(l.next, a)]
      next := l.next + 1
      ordered := List.pairwise_append.mpr ⟨l.ordered, List.pairwise_singleton _ _,
        fun x hx y hy => by rw [List.mem_singleton.mp hy]; exact l.fresh x hx⟩
      fresh := fun x hx => by
        rcases List.mem_append.mp hx with hx | hx
        · exact Nat.lt_succ_of_lt (l.fresh x hx)
        · rw [List.mem_singleton.mp hx]
          exact Nat.lt_succ_self _ }
  else l

/-- The one at place `k` gives up. -/
def leave (l : Line α) (k : Nat) : Line α where
  items := l.items.eraseIdx k
  next := l.next
  ordered := l.ordered.sublist (List.eraseIdx_sublist _ _)
  fresh x hx := l.fresh x ((List.eraseIdx_sublist _ _).mem hx)

/-- Somebody who has waited longest is served: `a` has the smallest number, and nobody else goes. -/
structure Served (l : Line α) (a : α) (l' : Line α) : Prop where
  longest : ∃ n, (n, a) ∈ l.items ∧ (∀ x ∈ l.items, n ≤ x.1) ∧
    l'.items = l.items.filter fun x => x.1 ≠ n
  next_eq : l'.next = l.next

@[simp] theorem who_nil : (nil : Line α).who = [] := rfl

@[simp] theorem length_who (l : Line α) : l.who.length = l.items.length := List.length_map ..

theorem who_arrive (cap : Nat) (l : Line α) (a : α) :
    (l.arrive cap a).who = if l.who.length < cap then l.who ++ [a] else l.who := by
  rw [length_who]
  unfold arrive
  split
  · exact List.map_append
  · rfl

theorem who_leave (l : Line α) (k : Nat) : (l.leave k).who = l.who.eraseIdx k :=
  (List.eraseIdx_map Prod.snd l.items k).symm

/-- The numbers behind the first are larger, so taking the first number out leaves the rest. -/
theorem filter_head {n : Nat} {a : α} {rest : List (Nat × α)}
    (h : ((n, a) :: rest).Pairwise fun x y => x.1 < y.1) :
    ((n, a) :: rest).filter (fun x => x.1 ≠ n) = rest := by
  rw [List.filter_cons_of_neg (by simp), List.filter_eq_self]
  intro x hx
  have hlt : n < x.1 := (List.pairwise_cons.mp h).1 x hx
  simpa using Nat.ne_of_gt hlt

/-- Who is first in the line can be served. -/
theorem served_of_who {l : Line α} {a : α} {rest : List α} (h : l.who = a :: rest) :
    ∃ l', l.Served a l' ∧ l'.who = rest := by
  obtain ⟨⟨n, b⟩, items, hitems, rfl, rfl⟩ := List.map_eq_cons_iff.mp h
  have hordered := l.ordered
  have hfresh := l.fresh
  rw [hitems] at hordered hfresh
  refine ⟨⟨items, l.next, (List.pairwise_cons.mp hordered).2,
    fun x hx => hfresh x (List.mem_cons_of_mem _ hx)⟩, ⟨⟨n, ?_, ?_, ?_⟩, rfl⟩, rfl⟩
  · rw [hitems]
    exact List.mem_cons_self
  · intro x hx
    rw [hitems] at hx
    rcases List.mem_cons.mp hx with rfl | hx
    · exact Nat.le_refl n
    · exact Nat.le_of_lt ((List.pairwise_cons.mp hordered).1 x hx)
  · rw [hitems, filter_head hordered]

/-- Who is served was first in the line, and the others keep their order. -/
theorem Served.who {l l' : Line α} {a : α} (h : l.Served a l') : l.who = a :: l'.who := by
  obtain ⟨n, hmem, hleast, hrest⟩ := h.longest
  have hordered := l.ordered
  unfold Line.who
  cases hitems : l.items with
  | nil =>
      rw [hitems] at hmem
      cases hmem
  | cons first items =>
      rw [hitems] at hmem hleast hrest hordered
      rcases List.mem_cons.mp hmem with rfl | hlater
      · rw [hrest, filter_head hordered]
        rfl
      · have hlt := (List.pairwise_cons.mp hordered).1 _ hlater
        have hle := hleast first List.mem_cons_self
        exact absurd hlt (Nat.not_lt.mpr hle)

end Line

end Fifo
