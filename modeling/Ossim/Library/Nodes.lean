import Mathlib.Data.List.Nodup
import Mathlib.Logic.Function.Basic

/-!
# Linked lists in memory

A node holds a value and a link, and lies at an address. A `Heap` is what is at each address, and
which addresses are in use. An address that is not in use has some content too: what was left there
when it was given back, and this is what the next user finds.

`Chain h p as` says that the link `p` begins a list that comes to an end, through the nodes at `as`,
all of them in use. A chain is determined by its beginning, so no node is on it twice, and a change
anywhere else does not touch it. `IsList` forgets the addresses: pushing, popping and cutting off
the last node of a list in memory are `::`, `tail` and `dropLast` on the values.
-/

namespace Nodes

/-- A value and a link to the next node. No address is the null pointer. -/
structure Node (A α : Type*) where
  val : α
  next : Option A

/-- Memory for nodes. -/
structure Heap (A α : Type*) where
  cell : A → Node A α
  live : A → Bool

variable {A α : Type*}

namespace Heap

/-- The node at `a`, to be looked at. What is not in use must not be. -/
def load (h : Heap A α) (a : A) : Option (Node A α) := if h.live a then some (h.cell a) else none

theorem load_of_live {h : Heap A α} {a : A} (hlive : h.live a = true) :
    h.load a = some (h.cell a) := if_pos hlive

variable [DecidableEq A]

/-- The memory after `a` has been handed out. What is there does not change. -/
def alloc (h : Heap A α) (a : A) : Heap A α := { h with live := Function.update h.live a true }

/-- The memory after `a` has been given back. -/
def free (h : Heap A α) (a : A) : Heap A α := { h with live := Function.update h.live a false }

/-- The memory after the node at `a` has been written. -/
def set (h : Heap A α) (a : A) (node : Node A α) : Heap A α :=
  { h with cell := Function.update h.cell a node }

@[simp] theorem cell_alloc (h : Heap A α) (a : A) : (h.alloc a).cell = h.cell := rfl

@[simp] theorem cell_free (h : Heap A α) (a : A) : (h.free a).cell = h.cell := rfl

@[simp] theorem set_set (h : Heap A α) (a : A) (node node' : Node A α) :
    (h.set a node).set a node' = h.set a node' := by
  rw [set, set, set, Function.update_idem]

@[simp] theorem live_alloc_self (h : Heap A α) (a : A) : (h.alloc a).live a = true :=
  Function.update_self ..

theorem live_alloc_of_ne (h : Heap A α) {a b : A} (hne : b ≠ a) : (h.alloc a).live b = h.live b :=
  Function.update_of_ne hne ..

theorem live_free_of_ne (h : Heap A α) {a b : A} (hne : b ≠ a) : (h.free a).live b = h.live b :=
  Function.update_of_ne hne ..

@[simp] theorem cell_set_self (h : Heap A α) (a : A) (node : Node A α) :
    (h.set a node).cell a = node := Function.update_self ..

theorem cell_set_of_ne (h : Heap A α) {a b : A} (hne : b ≠ a) (node : Node A α) :
    (h.set a node).cell b = h.cell b := Function.update_of_ne hne ..

end Heap

/-- The link `p` begins a list of the nodes at `as`, which ends with a null pointer. -/
inductive Chain (h : Heap A α) : Option A → List A → Prop
  | nil : Chain h none []
  | cons {a : A} {as : List A} (hlive : h.live a = true) (hrest : Chain h (h.cell a).next as) :
      Chain h (some a) (a :: as)

namespace Chain

variable {h h' : Heap A α} {p : Option A} {a : A} {as bs : List A}

/-- A list without nodes begins with a null pointer. -/
theorem eq_none (has : Chain h p []) : p = none := by
  cases has
  rfl

/-- A list with a node begins there. -/
theorem eq_some (has : Chain h p (a :: as)) :
    p = some a ∧ h.live a = true ∧ Chain h (h.cell a).next as := by
  cases has with
  | cons hlive hrest => exact ⟨rfl, hlive, hrest⟩

/-- A link begins one list at most. -/
theorem unique (has : Chain h p as) (hbs : Chain h p bs) : as = bs := by
  induction has generalizing bs with
  | nil =>
      cases hbs
      rfl
  | cons hlive hrest ih =>
      cases hbs with
      | cons _ hrest' => rw [ih hrest']

/-- Every node of a list is in use. -/
theorem live (has : Chain h p as) (ha : a ∈ as) : h.live a = true := by
  induction has with
  | nil => cases ha
  | cons hlive hrest ih =>
      rcases List.mem_cons.mp ha with rfl | hlater
      · exact hlive
      · exact ih hlater

/-- From every node of a list on, there is the rest of it. -/
theorem suffix_of_mem (has : Chain h p as) (ha : a ∈ as) :
    ∃ bs, Chain h (some a) bs ∧ bs.length ≤ as.length := by
  induction has with
  | nil => cases ha
  | @cons b as hlive hrest ih =>
      rcases List.mem_cons.mp ha with rfl | hlater
      · exact ⟨_, .cons hlive hrest, Nat.le_refl _⟩
      · obtain ⟨bs, hbs, hle⟩ := ih hlater
        exact ⟨bs, hbs, Nat.le_succ_of_le hle⟩

/-- A list that ends does not come back to a node. -/
theorem nodup (has : Chain h p as) : as.Nodup := by
  induction has with
  | nil => exact List.nodup_nil
  | @cons b as hlive hrest ih =>
      refine List.nodup_cons.mpr ⟨?_, ih⟩
      intro hmem
      obtain ⟨bs, hbs, hle⟩ := hrest.suffix_of_mem hmem
      have hlen := congrArg List.length (unique (.cons hlive hrest) hbs)
      rw [List.length_cons] at hlen
      omega

/-- What is written elsewhere does not matter. -/
theorem congr (has : Chain h p as)
    (hsame : ∀ a ∈ as, h'.live a = h.live a ∧ h'.cell a = h.cell a) : Chain h' p as := by
  induction has with
  | nil => exact .nil
  | @cons a as hlive hrest ih =>
      obtain ⟨hlive', hcell⟩ := hsame a List.mem_cons_self
      refine .cons (hlive'.trans hlive) ?_
      rw [hcell]
      exact ih fun b hb => hsame b (List.mem_cons_of_mem _ hb)

/-- A list can be cut off behind any of its nodes. -/
theorem cut [DecidableEq A] {q last : A} (has : Chain h p (as ++ [q, last])) :
    Chain (h.set q ⟨(h.cell q).val, none⟩) p (as ++ [q]) := by
  induction as generalizing p with
  | nil =>
      cases has with
      | cons hlive hrest =>
          refine .cons hlive ?_
          rw [Heap.cell_set_self]
          exact .nil
  | cons b as ih =>
      have hne : b ≠ q := by
        have hnodup := has.nodup
        rintro rfl
        simp at hnodup
      cases has with
      | cons hlive hrest =>
          refine .cons hlive ?_
          rw [Heap.cell_set_of_ne h hne]
          exact ih hrest

end Chain

/-- The values at the addresses. -/
def vals (h : Heap A α) (as : List A) : List α := as.map fun a => (h.cell a).val

@[simp] theorem length_vals (h : Heap A α) (as : List A) : (vals h as).length = as.length :=
  List.length_map ..

theorem vals_congr {h h' : Heap A α} {as : List A} (hsame : ∀ a ∈ as, h'.cell a = h.cell a) :
    vals h' as = vals h as := List.map_congr_left fun a ha => by rw [hsame a ha]

/-- The link `p` begins a list with the values `l`. -/
def IsList (h : Heap A α) (p : Option A) (l : List α) : Prop := ∃ as, Chain h p as ∧ vals h as = l

namespace IsList

variable {h h' : Heap A α} {p : Option A} {a : A} {v : α} {l : List α}

theorem nil (h : Heap A α) : IsList h none [] := ⟨[], .nil, rfl⟩

theorem eq_nil (hl : IsList h none l) : l = [] := by
  obtain ⟨as, has, rfl⟩ := hl
  cases has
  rfl

theorem cons (hlive : h.live a = true) (hl : IsList h (h.cell a).next l) :
    IsList h (some a) ((h.cell a).val :: l) := by
  obtain ⟨as, has, rfl⟩ := hl
  exact ⟨a :: as, .cons hlive has, rfl⟩

variable [DecidableEq A]

/-- A node that was not in use is put in front. -/
theorem push (hl : IsList h p l) (hfresh : h.live a = false) (v : α) :
    IsList ((h.alloc a).set a ⟨v, p⟩) (some a) (v :: l) := by
  obtain ⟨as, has, rfl⟩ := hl
  have hne : ∀ b ∈ as, b ≠ a := by
    rintro b hb rfl
    have hlive := has.live hb
    rw [hfresh] at hlive
    cases hlive
  have hcell : ∀ b ∈ as, ((h.alloc a).set a ⟨v, p⟩).cell b = h.cell b :=
    fun b hb => Heap.cell_set_of_ne _ (hne b hb) _
  refine ⟨a :: as, .cons (Heap.live_alloc_self h a) ?_, ?_⟩
  · rw [Heap.cell_set_self]
    exact has.congr fun b hb => ⟨Heap.live_alloc_of_ne h (hne b hb), hcell b hb⟩
  · rw [← vals_congr hcell]
    simp [vals]

/-- A list that begins at a new node goes on as a list of old ones. -/
theorem of_push (hfresh : h.live a = false) {v : α}
    (hl : IsList ((h.alloc a).set a ⟨v, p⟩) (some a) l) : ∃ l', l = v :: l' ∧ IsList h p l' := by
  obtain ⟨bs, hbs, rfl⟩ := hl
  have hnodup := hbs.nodup
  cases hbs with
  | @cons _ as hlive hrest =>
      rw [Heap.cell_set_self] at hrest
      have hsame : ∀ b ∈ as, h.live b = ((h.alloc a).set a ⟨v, p⟩).live b ∧
          h.cell b = ((h.alloc a).set a ⟨v, p⟩).cell b := by
        intro b hb
        have hne : b ≠ a := by
          rintro rfl
          exact (List.nodup_cons.mp hnodup).1 hb
        exact ⟨(Heap.live_alloc_of_ne h hne).symm, (Heap.cell_set_of_ne _ hne _).symm⟩
      refine ⟨vals h as, ?_, as, hrest.congr hsame, rfl⟩
      rw [vals_congr fun b hb => (hsame b hb).2]
      simp [vals]

/-- The first node is taken off and given back. -/
theorem pop (hl : IsList h (some a) l) :
    h.live a = true ∧ ∃ l', l = (h.cell a).val :: l' ∧ IsList (h.free a) (h.cell a).next l' := by
  obtain ⟨as, has, rfl⟩ := hl
  have hnodup := has.nodup
  cases has with
  | @cons _ as hlive hrest =>
      have hne : ∀ b ∈ as, b ≠ a := by
        rintro b hb rfl
        exact (List.nodup_cons.mp hnodup).1 hb
      refine ⟨hlive, vals h as, rfl, as, ?_, rfl⟩
      exact hrest.congr fun b hb => ⟨Heap.live_free_of_ne h (hne b hb), rfl⟩

/-- The node behind `q` is the last one. It is cut off and given back. -/
theorem dropLast {as : List A} {q last : A} (has : Chain h p (as ++ [q, last])) :
    IsList ((h.set q ⟨(h.cell q).val, none⟩).free last) p (vals h (as ++ [q])) := by
  have hnodup : (as ++ [q] ++ [last]).Nodup := by
    rw [List.append_assoc]
    exact has.nodup
  have hne : ∀ b ∈ as ++ [q], b ≠ last := by
    rintro b hb rfl
    exact List.disjoint_of_nodup_append hnodup hb List.mem_cons_self
  refine ⟨as ++ [q], ?_, ?_⟩
  · exact has.cut.congr fun b hb => ⟨Heap.live_free_of_ne _ (hne b hb), rfl⟩
  · refine List.map_congr_left fun b hb => ?_
    by_cases hq : b = q
    · rw [hq, Heap.cell_free, Heap.cell_set_self]
    · rw [Heap.cell_free, Heap.cell_set_of_ne _ hq]

end IsList

end Nodes
