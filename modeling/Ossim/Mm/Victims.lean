import Ossim.Library.Nodes
import Ossim.Library.Steps
import Ossim.Mm.Access

/-!
# The queue of victims (`enlist_pgn_node`, `find_victim_page`)

`fifo_pgn` is a linked list of the mapped pages. A new page goes to the front; a victim is looked
for at the back, by a loop that keeps a second pointer one node behind, cuts the list there and
gives the last node back. Here both work on the nodes in memory. The numbers of the pages are only
carried along.

Read from back to front the list is a queue: what was there or has been enlisted is what has been
found, in the same order, followed by what is still there.
-/

namespace Ossim.Mm

open Nodes

/-- `mm->fifo_pgn`, with the memory its nodes (`struct pgn_t`) lie in. -/
structure PgnQueue (A P : Type) where
  fifoPgn : Option A
  heap : Heap A P

namespace PgnQueue

variable {A P : Type}

/-- The loop of `find_victim_page`: the last node from `pg` on, and the one before it. It may look
at `fuel` nodes. -/
def toLast (heap : Heap A P) (prev : Option A) (pg : A) : Nat → Option (Exec (Option A × A))
  | 0 => none
  | fuel + 1 =>
    match heap.load pg with
    | none => some (.error .uninitialized)
    | some node =>
      match node.next with
      | none => some (.ok (prev, pg))
      | some pgNext => toLast heap (some pg) pgNext fuel

/-- The loop ends at the last node, if it may look at all of them. -/
theorem toLast_eq {heap : Heap A P} {pg last : A} {as : List A}
    (has : Chain heap (some pg) (as ++ [last])) (prev : Option A) (fuel : Nat) :
    toLast heap prev pg fuel =
      if as.length < fuel then some (.ok (as.getLast?.or prev, last)) else none := by
  induction fuel generalizing prev pg as with
  | zero => rfl
  | succ fuel ih =>
      cases as with
      | nil =>
          obtain ⟨hpg, hlive, hrest⟩ := has.eq_some
          obtain rfl : pg = last := Option.some.inj hpg
          simp only [toLast, Heap.load_of_live hlive, hrest.eq_none]
          rfl
      | cons b as =>
          obtain ⟨hpg, hlive, hrest⟩ := has.eq_some
          obtain rfl : pg = b := Option.some.inj hpg
          obtain ⟨c, cs, hcs⟩ : ∃ c cs, as ++ [last] = c :: cs :=
            List.exists_cons_of_ne_nil (List.append_ne_nil_of_right_ne_nil as (by simp))
          have hnext : (heap.cell pg).next = some c := by
            rw [List.append_eq, hcs] at hrest
            exact hrest.eq_some.1
          rw [hnext] at hrest
          have hlast : (pg :: as).getLast?.or prev = as.getLast?.or (some pg) := by
            cases as <;> simp [List.getLast?_cons]
          simp only [toLast, Heap.load_of_live hlive, hnext, ih hrest (some pg), hlast,
            List.length_cons, Nat.succ_lt_succ_iff]

variable [DecidableEq A]

/-- `enlist_pgn_node`, where `malloc` returns `a`. -/
def enlistPgnNode (q : PgnQueue A P) (a : A) (pgn : P) : PgnQueue A P :=
  ⟨some a, (q.heap.alloc a).set a ⟨pgn, q.fifoPgn⟩⟩

/-- What `find_victim_page` does with the last node and the one before it. -/
def takeLast (q : PgnQueue A P) (prev : Option A) (pg : A) : Exec (Option P × PgnQueue A P) := do
  let node ← assigned (q.heap.load pg)
  match prev with
  | some prev =>
    let before ← assigned (q.heap.load prev)
    return (some node.val, ⟨q.fifoPgn, (q.heap.set prev ⟨before.val, none⟩).free pg⟩)
  | none => return (some node.val, ⟨none, q.heap.free pg⟩)

/-- `find_victim_page`. No page stands for the return code `-1`. -/
def findVictimPage (q : PgnQueue A P) (fuel : Nat) :
    Option (Exec (Option P × PgnQueue A P)) :=
  match q.fifoPgn with
  | none => some (.ok (none, q))
  | some pg => (toLast q.heap none pg fuel).map fun found => do
      let (prev, pg) ← found
      q.takeLast prev pg

/-! ## What one call does -/

/-- What is done with the last node takes it off. -/
theorem takeLast_eq {q : PgnQueue A P} {last : A} {as : List A}
    (has : Chain q.heap q.fifoPgn (as ++ [last])) :
    ∃ q', q.takeLast as.getLast? last = .ok (some (q.heap.cell last).val, q') ∧
      IsList q'.heap q'.fifoPgn (vals q.heap as) := by
  have hlast : q.heap.load last = some (q.heap.cell last) :=
    Heap.load_of_live (has.live (List.mem_append_right _ List.mem_cons_self))
  rcases List.eq_nil_or_concat' as with rfl | ⟨as, before, rfl⟩
  · refine ⟨⟨none, q.heap.free last⟩, ?_, .nil _⟩
    simp only [takeLast, hlast, assigned, List.getLast?_nil]
    rfl
  · rw [List.append_assoc, List.singleton_append] at has
    have hbefore : q.heap.load before = some (q.heap.cell before) :=
      Heap.load_of_live (has.live (List.mem_append_right _ List.mem_cons_self))
    refine ⟨⟨q.fifoPgn, _⟩, ?_, IsList.dropLast has⟩
    simp only [takeLast, hlast, assigned, List.getLast?_concat, hbefore]
    rfl

/-- Where the list has nodes, `find_victim_page` depends on its loop. -/
theorem findVictimPage_append {q : PgnQueue A P} {as : List A} {last : A}
    (has : Chain q.heap q.fifoPgn (as ++ [last])) (fuel : Nat) :
    q.findVictimPage fuel =
      if as.length < fuel then some (q.takeLast as.getLast? last) else none := by
  cases hpg : q.fifoPgn with
  | none =>
      rw [hpg] at has
      have hnil := has.unique .nil
      exact absurd hnil (by simp)
  | some pg =>
      rw [hpg] at has
      simp only [findVictimPage, hpg, toLast_eq has none fuel, Option.or_none]
      split <;> rfl

/-- `find_victim_page` takes the last page off, as soon as its loop may look at all nodes. -/
theorem findVictimPage_of_le {q : PgnQueue A P} {l : List P} {fuel : Nat}
    (hl : IsList q.heap q.fifoPgn l) (hfuel : l.length ≤ fuel) :
    ∃ q', q.findVictimPage fuel = some (.ok (l.getLast?, q')) ∧
      IsList q'.heap q'.fifoPgn l.dropLast := by
  obtain ⟨as, has, rfl⟩ := hl
  rcases List.eq_nil_or_concat' as with rfl | ⟨as, last, rfl⟩
  · refine ⟨q, ?_, [], has, rfl⟩
    rw [findVictimPage, has.eq_none]
    rfl
  · obtain ⟨q', htake, hq'⟩ := takeLast_eq has
    have hvals : vals q.heap (as ++ [last]) = vals q.heap as ++ [(q.heap.cell last).val] :=
      List.map_append
    rw [length_vals, List.length_append, List.length_singleton] at hfuel
    rw [hvals, List.getLast?_concat, List.dropLast_concat]
    refine ⟨q', ?_, hq'⟩
    rw [findVictimPage_append has, if_pos (Nat.lt_of_succ_le hfuel), htake]

/-- With less than that its loop does not come to the end. -/
theorem findVictimPage_of_lt {q : PgnQueue A P} {l : List P} {fuel : Nat}
    (hl : IsList q.heap q.fifoPgn l) (hfuel : fuel < l.length) : q.findVictimPage fuel = none := by
  obtain ⟨as, has, rfl⟩ := hl
  rcases List.eq_nil_or_concat' as with rfl | ⟨as, last, rfl⟩
  · exact absurd hfuel (Nat.not_lt_zero fuel)
  · rw [length_vals, List.length_append, List.length_singleton] at hfuel
    rw [findVictimPage_append has, if_neg (by omega)]

/-- What `find_victim_page` can do. -/
theorem findVictimPage_cases {q q' : PgnQueue A P} {l : List P} {fuel : Nat} {r : Option P}
    (hl : IsList q.heap q.fifoPgn l) (h : q.findVictimPage fuel = some (.ok (r, q'))) :
    r = l.getLast? ∧ IsList q'.heap q'.fifoPgn l.dropLast := by
  rcases Nat.lt_or_ge fuel l.length with hlt | hle
  · rw [findVictimPage_of_lt hl hlt] at h
    cases h
  · obtain ⟨q₁, hfind, hq₁⟩ := findVictimPage_of_le hl hle
    rw [hfind] at h
    cases h
    exact ⟨rfl, hq₁⟩

/-! ## Histories -/

/-- A call that is over: `enlist_pgn_node` with the address of its node, or `find_victim_page` with
its result. -/
inductive Event (A P : Type) where
  | enlist (a : A) (pgn : P)
  | find (victim : Option P)

/-- The calls, on addresses that `malloc` has in hand. -/
inductive Step : PgnQueue A P → Event A P → PgnQueue A P → Prop
  | enlist {q : PgnQueue A P} {a : A} (hfresh : q.heap.live a = false) (pgn : P) :
      Step q (.enlist a pgn) (q.enlistPgnNode a pgn)
  | find {q q' : PgnQueue A P} {victim : Option P} {fuel : Nat}
      (hfind : q.findVictimPage fuel = some (.ok (victim, q'))) : Step q (.find victim) q'

/-- The page an event enlists. -/
def Event.enlisted? : Event A P → Option P
  | .enlist _ pgn => some pgn
  | .find _ => none

/-- The page an event has found. -/
def Event.victim? : Event A P → Option P
  | .enlist _ _ => none
  | .find victim => victim

/-- The enlisted pages, oldest first. -/
def enlisted (es : List (Event A P)) : List P := es.filterMap Event.enlisted?

/-- The victims, in the order in which they came out. -/
def victims (es : List (Event A P)) : List P := es.filterMap Event.victim?

omit [DecidableEq A] in
theorem enlisted_concat (es : List (Event A P)) (e : Event A P) :
    enlisted (es ++ [e]) = enlisted es ++ e.enlisted?.toList := by
  rw [enlisted, List.filterMap_append]
  cases e <;> rfl

omit [DecidableEq A] in
theorem victims_concat (es : List (Event A P)) (e : Event A P) :
    victims (es ++ [e]) = victims es ++ e.victim?.toList := by
  rw [victims, List.filterMap_append]
  cases e with
  | enlist a pgn => rfl
  | find victim => cases victim <;> rfl

/-- What has been enlisted and is not there any more has come out, in order. -/
structure InOrder (l₀ : List P) (es : List (Event A P)) (q : PgnQueue A P) (l : List P) : Prop where
  isList : IsList q.heap q.fifoPgn l
  order : l₀.reverse ++ enlisted es = victims es ++ l.reverse

/-- Every call keeps the order. -/
theorem InOrder.step {l₀ l : List P} {es : List (Event A P)} {q q' : PgnQueue A P} {e : Event A P}
    (h : InOrder l₀ es q l) (hstep : Step q e q') : ∃ l', InOrder l₀ (es ++ [e]) q' l' := by
  cases hstep with
  | @enlist a hfresh pgn =>
      refine ⟨pgn :: l, h.isList.push hfresh pgn, ?_⟩
      calc l₀.reverse ++ enlisted (es ++ [.enlist a pgn])
          = (l₀.reverse ++ enlisted es) ++ [pgn] := by
            rw [enlisted_concat, List.append_assoc]
            rfl
        _ = victims (es ++ [.enlist a pgn]) ++ (pgn :: l).reverse := by
            rw [h.order, victims_concat, List.append_assoc, List.reverse_cons]
            simp [Event.victim?]
  | @find _ _ fuel hfind =>
      obtain ⟨rfl, hlist⟩ := findVictimPage_cases h.isList hfind
      refine ⟨l.dropLast, hlist, ?_⟩
      have hsplit : l.reverse = l.getLast?.toList ++ l.dropLast.reverse := by
        rcases List.eq_nil_or_concat' l with rfl | ⟨rest, oldest, rfl⟩
        · rfl
        · simp
      calc l₀.reverse ++ enlisted (es ++ [.find l.getLast?])
          = victims es ++ l.reverse := by
            rw [enlisted_concat, ← h.order]
            simp [Event.enlisted?]
        _ = victims (es ++ [.find l.getLast?]) ++ l.dropLast.reverse := by
            rw [victims_concat, hsplit, List.append_assoc]
            rfl

/-- **Victims come out in the order in which the pages went in.** After any calls on any list, what
was there from oldest to newest and what has been enlisted since is the victims, followed by what is
left. From there `find_victim_page` returns, with `-1` if the list is empty and else with the oldest
page, and leaves the rest in order. -/
theorem victims_in_order {q₀ q : PgnQueue A P} {l₀ : List P} {es : List (Event A P)}
    (hq₀ : IsList q₀.heap q₀.fifoPgn l₀) (hrun : Steps Step q₀ es q) :
    ∃ l, IsList q.heap q.fifoPgn l ∧ l₀.reverse ++ enlisted es = victims es ++ l.reverse ∧
      ∀ fuel, l.length ≤ fuel → ∃ q', q.findVictimPage fuel = some (.ok (l.getLast?, q')) ∧
        IsList q'.heap q'.fifoPgn l.dropLast := by
  have hinit : ∃ l, InOrder l₀ [] q₀ l := ⟨l₀, hq₀, List.append_nil _⟩
  have hinv : ∃ l, InOrder l₀ es q l := by
    refine hrun.invariant (motive := fun es q => ∃ l, InOrder l₀ es q l) hinit ?_
    rintro es q e q' ⟨l, h⟩ hstep
    exact h.step hstep
  obtain ⟨l, h⟩ := hinv
  exact ⟨l, h.isList, h.order, fun fuel hfuel => findVictimPage_of_le h.isList hfuel⟩

/-- Two pages go in and one comes out again. -/
theorem victims_in_order_two_pages :
    ∃ q : PgnQueue Nat Nat, ∃ l, IsList q.heap q.fifoPgn l ∧
      [] ++ [3, 5] = [3] ++ l.reverse ∧
      ∀ fuel, l.length ≤ fuel → ∃ q', q.findVictimPage fuel = some (.ok (l.getLast?, q')) ∧
        IsList q'.heap q'.fifoPgn l.dropLast := by
  let q₀ : PgnQueue Nat Nat := ⟨none, ⟨fun _ => ⟨0, none⟩, fun _ => false⟩⟩
  let q₁ := q₀.enlistPgnNode 0 3
  let q₂ := q₁.enlistPgnNode 1 5
  have hfind : ∃ q', q₂.findVictimPage 2 = some (.ok (some 3, q')) := ⟨_, rfl⟩
  obtain ⟨q₃, hfind⟩ := hfind
  have hrun : Steps Step q₀ [.enlist 0 3, .enlist 1 5, .find (some 3)] q₃ :=
    .snoc (.snoc (.snoc (.nil q₀) (.enlist rfl 3)) (.enlist rfl 5)) (.find hfind)
  have hempty : IsList q₀.heap q₀.fifoPgn [] := .nil _
  exact ⟨q₃, victims_in_order hempty hrun⟩

/-! ## The list of the address space -/

/-- On the nodes, `find_victim_page` does what it does on the list. -/
theorem findVictimPage_refines {q : PgnQueue A Pgn} {mm : MmStruct} {fuel : Nat}
    (hq : IsList q.heap q.fifoPgn mm.fifoPgn) (hfuel : mm.fifoPgn.length ≤ fuel) :
    ∃ q', q.findVictimPage fuel = some (.ok (mm.findVictimPage.1, q')) ∧
      IsList q'.heap q'.fifoPgn mm.findVictimPage.2.fifoPgn := by
  obtain ⟨q', hfind, hq'⟩ := findVictimPage_of_le hq hfuel
  unfold MmStruct.findVictimPage
  cases hlast : mm.fifoPgn.getLast? with
  | none =>
      rw [hlast] at hfind
      rw [List.getLast?_eq_none_iff.mp hlast] at hq' ⊢
      exact ⟨q', hfind, hq'⟩
  | some oldest =>
      rw [hlast] at hfind
      exact ⟨q', hfind, hq'⟩

/-- And so does `enlist_pgn_node`. -/
theorem enlistPgnNode_refines {q : PgnQueue A Pgn} {fifo : List Pgn} {a : A}
    (hq : IsList q.heap q.fifoPgn fifo) (hfresh : q.heap.live a = false) (pgn : Pgn) :
    IsList (q.enlistPgnNode a pgn).heap (q.enlistPgnNode a pgn).fifoPgn
      (Mm.enlistPgnNode fifo pgn) :=
  hq.push hfresh pgn

end PgnQueue

end Ossim.Mm
