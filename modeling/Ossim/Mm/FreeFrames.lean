import Ossim.Library.Nodes
import Ossim.Library.Steps
import Ossim.Mm.Memphy

/-!
# The free frames of a device, in memory (`mm-memphy.c`)

The free frames are a linked list too: `MEMPHY_get_freefp` takes its first node, and
`MEMPHY_put_freefp` puts a new one in front. `MEMPHY_format` builds the list. Every node it makes in
its loop is linked to the one before and gets a null link of its own; the first node is made before
the loop and gets none. With two frames or more the loop then links it. A device of one frame keeps
in it what `malloc` has left there, and a device without a frame keeps the list it had before.

Where the list ends as it should, the free frames and the taken ones are all the frames, each once,
over any gets and puts.
-/

namespace Ossim.Mm

open Nodes

/-- `struct memphy_struct`, with the memory the nodes of its free frames (`struct framephy_struct`)
lie in. -/
structure FrameDev (A : Type) where
  storage : Nat → Byte
  maxsz : Nat
  rdmflg : Bool
  cursor : Nat
  freeFpList : Option A
  heap : Heap A Nat

namespace FrameDev

variable {A : Type} [DecidableEq A]

/-- One round of the loop of `MEMPHY_format`: a node for frame `iter`, linked to the one before. -/
def linkFrame (heap : Heap A Nat) (fst newfst : A) (iter : Nat) : Heap A Nat :=
  let heap := (heap.alloc newfst).set newfst ⟨iter, none⟩
  heap.set fst ⟨(heap.cell fst).val, some newfst⟩

/-- The loop of `MEMPHY_format` from `iter` on, for `n` more frames. `fst` is the last node so far,
and `malloc` returns `addrs iter` for frame `iter`. -/
def formatRest (addrs : Nat → A) (heap : Heap A Nat) (fst : A) (iter : Nat) : Nat → Heap A Nat
  | 0 => heap
  | n + 1 => formatRest addrs (linkFrame heap fst (addrs iter) iter) (addrs iter) (iter + 1) n

/-- `MEMPHY_format`, with its return code. The link of the first node is what it was. -/
def format (d : FrameDev A) (addrs : Nat → A) (pagesz : Nat) : Int × FrameDev A :=
  let numfp := d.maxsz / pagesz
  if numfp = 0 then (-1, d)
  else
    let fst := addrs 0
    let heap := (d.heap.alloc fst).set fst ⟨0, (d.heap.cell fst).next⟩
    (0, { d with freeFpList := some fst, heap := formatRest addrs heap fst 1 (numfp - 1) })

/-- `init_memphy`. The bytes of the device are those `malloc` returns. -/
def initMemphy (d : FrameDev A) (addrs : Nat → A) (maxSize : Nat) (randomflg : Int) : FrameDev A :=
  let (_, d) := format { d with maxsz := maxSize } addrs pagingPagesz
  let d := { d with rdmflg := decide (randomflg ≠ 0) }
  if !d.rdmflg then { d with cursor := 0 } else d

/-- `MEMPHY_get_freefp`. No frame stands for the return code `-1`. -/
def getFreefp (d : FrameDev A) : Exec (Option Nat × FrameDev A) :=
  match d.freeFpList with
  | none => .ok (none, d)
  | some fp => do
    let node ← assigned (d.heap.load fp)
    return (some node.val, { d with freeFpList := node.next, heap := d.heap.free fp })

/-- `MEMPHY_put_freefp`, where `malloc` returns `a`. -/
def putFreefp (d : FrameDev A) (a : A) (fpn : Nat) : FrameDev A :=
  { d with
    freeFpList := some a
    heap := (d.heap.alloc a).set a ⟨fpn, d.freeFpList⟩ }

/-- Calls of `MEMPHY_get_freefp` one after another, with what they return. -/
def getFrames (d : FrameDev A) : Nat → Exec (List (Option Nat) × FrameDev A)
  | 0 => .ok ([], d)
  | k + 1 => do
    let (fpn, d) ← d.getFreefp
    let (fpns, d) ← d.getFrames k
    return (fpn :: fpns, d)

/-! ## Histories -/

/-- A call that is over: `MEMPHY_get_freefp` with its result, or `MEMPHY_put_freefp` with the
address of its node. -/
inductive FrameCall (A : Type) where
  | got (fpn : Option Nat)
  | put (a : A) (fpn : Nat)

/-- A device, and the frames that have been handed out and not been put back. -/
structure InUse (A : Type) where
  dev : FrameDev A
  taken : List Nat

/-- The calls of callers who put back only what they have taken. -/
inductive FrameStep : InUse A → FrameCall A → InUse A → Prop
  | got {s : InUse A} {fpn : Option Nat} {dev : FrameDev A}
      (hget : s.dev.getFreefp = .ok (fpn, dev)) :
      FrameStep s (.got fpn) ⟨dev, fpn.toList ++ s.taken⟩
  | put {s : InUse A} {a : A} {fpn : Nat} (hfresh : s.dev.heap.live a = false)
      (htaken : fpn ∈ s.taken) : FrameStep s (.put a fpn) ⟨s.dev.putFreefp a fpn, s.taken.erase fpn⟩

/-- A device of `n` frames hands out each of them once, in order, and none that is still taken. -/
structure HandsOutOnce (d : FrameDev A) (n : Nat) : Prop where
  inOrder : ∀ k, ∃ d', d.getFrames k =
    .ok ((List.range k).map fun i => if i < n then some i else none, d')
  untaken : ∀ calls s, Steps FrameStep ⟨d, []⟩ calls s →
    ∃ fpn dev, s.dev.getFreefp = .ok (fpn, dev) ∧ ∀ f, fpn = some f → f ∉ s.taken

/-! ## Devices whose list ends -/

/-- The first frame of the list is handed out. -/
theorem getFreefp_cons {d : FrameDev A} {f : Nat} {l : List Nat}
    (hl : IsList d.heap d.freeFpList (f :: l)) :
    ∃ fp heap, d.getFreefp = .ok (some f, { d with freeFpList := fp, heap := heap }) ∧
      IsList heap fp l := by
  cases hfp : d.freeFpList with
  | none =>
      rw [hfp] at hl
      cases hl.eq_nil
  | some fp =>
      rw [hfp] at hl
      obtain ⟨hlive, l', hcons, hrest⟩ := hl.pop
      cases hcons
      refine ⟨_, _, ?_, hrest⟩
      simp only [getFreefp, hfp, Heap.load_of_live hlive, assigned]
      rfl

/-- From an empty list nothing is. -/
theorem getFreefp_nil {d : FrameDev A} (hl : IsList d.heap d.freeFpList []) :
    d.getFreefp = .ok (none, d) := by
  obtain ⟨as, has, hnil⟩ := hl
  obtain rfl := List.map_eq_nil_iff.mp hnil
  rw [getFreefp, has.eq_none]

/-- Gets go through the list, and find nothing from there on. -/
theorem getFrames_eq {d : FrameDev A} {l : List Nat} (hl : IsList d.heap d.freeFpList l) (k : Nat) :
    ∃ d', d.getFrames k = .ok ((List.range k).map fun i => l[i]?, d') := by
  induction k generalizing d l with
  | zero => exact ⟨d, rfl⟩
  | succ k ih =>
      rw [List.range_succ_eq_map, List.map_cons, List.map_map]
      cases l with
      | nil =>
          obtain ⟨d', hrest⟩ := ih hl
          refine ⟨d', ?_⟩
          simp only [getFrames, getFreefp_nil hl, bind, Except.bind, hrest]
          rfl
      | cons f l =>
          obtain ⟨fp, heap, hget, hl'⟩ := getFreefp_cons hl
          obtain ⟨d', hrest⟩ := @ih { d with freeFpList := fp, heap := heap } l hl'
          refine ⟨d', ?_⟩
          simp only [getFrames, hget, bind, Except.bind, hrest]
          rfl

/-- The free frames and the taken ones are the frames below `n`, each once. -/
def Accounted (n : Nat) (s : InUse A) : Prop :=
  ∃ l, IsList s.dev.heap s.dev.freeFpList l ∧ (l ++ s.taken).Perm (List.range n)

/-- Every call keeps the account. -/
theorem Accounted.step {n : Nat} {s t : InUse A} {c : FrameCall A} (h : Accounted n s)
    (hstep : FrameStep s c t) : Accounted n t := by
  obtain ⟨l, hl, hperm⟩ := h
  cases hstep with
  | @got fpn dev hget =>
      cases l with
      | nil =>
          rw [getFreefp_nil hl] at hget
          cases hget
          exact ⟨[], hl, hperm⟩
      | cons f l =>
          obtain ⟨fp, heap, hget', hl'⟩ := getFreefp_cons hl
          rw [hget'] at hget
          cases hget
          exact ⟨l, hl', List.perm_middle.trans hperm⟩
  | @put a fpn hfresh htaken =>
      refine ⟨fpn :: l, hl.push hfresh fpn, ?_⟩
      have hback : (l ++ fpn :: s.taken.erase fpn).Perm (l ++ s.taken) :=
        (List.perm_cons_erase htaken).symm.append_left l
      exact List.perm_middle.symm.trans (hback.trans hperm)

/-- From an accounted state the next frame handed out is not taken. -/
theorem Accounted.untaken {n : Nat} {s : InUse A} (h : Accounted n s) :
    ∃ fpn dev, s.dev.getFreefp = .ok (fpn, dev) ∧ ∀ f, fpn = some f → f ∉ s.taken := by
  obtain ⟨l, hl, hperm⟩ := h
  cases l with
  | nil => exact ⟨none, s.dev, getFreefp_nil hl, by simp⟩
  | cons f l =>
      obtain ⟨fp, heap, hget, -⟩ := getFreefp_cons hl
      refine ⟨some f, _, hget, ?_⟩
      rintro g ⟨⟩ htaken
      have hnodup : (f :: l ++ s.taken).Nodup := hperm.nodup_iff.mpr List.nodup_range
      exact List.disjoint_of_nodup_append hnodup List.mem_cons_self htaken

/-- A device that lists its frames in order hands each out once. -/
theorem handsOutOnce_of_isList {d : FrameDev A} {n : Nat}
    (hl : IsList d.heap d.freeFpList (List.range n)) : HandsOutOnce d n where
  inOrder k := by
    obtain ⟨d', hget⟩ := getFrames_eq hl k
    refine ⟨d', ?_⟩
    rw [hget]
    have hsame : ∀ i, (List.range n)[i]? = if i < n then some i else none := by
      intro i
      split
      · next hi => rw [List.getElem?_range hi]
      · next hi => exact List.getElem?_eq_none (by simpa using hi)
    simp only [hsame]
  untaken calls s hrun := by
    have hinit : Accounted n (⟨d, []⟩ : InUse A) := ⟨List.range n, hl, by simp⟩
    exact (hrun.state_invariant hinit fun _ _ _ h hstep => h.step hstep).untaken

/-! ## What the formatting builds -/

/-- `malloc` returns `addrs i` for frame `i`: memory that is not in use, for every frame another. -/
structure Handed (heap : Heap A Nat) (addrs : Nat → A) (lo hi : Nat) : Prop where
  fresh : ∀ i, lo ≤ i → i < hi → heap.live (addrs i) = false
  distinct : ∀ i j, lo ≤ i → i < hi → lo ≤ j → j < hi → addrs i = addrs j → i = j

section LinkFrame

variable (heap : Heap A Nat) (iter : Nat) {fst newfst b : A}

theorem linkFrame_live_new : (linkFrame heap fst newfst iter).live newfst = true :=
  Heap.live_alloc_self heap newfst

theorem linkFrame_live_of_ne (hne : b ≠ newfst) :
    (linkFrame heap fst newfst iter).live b = heap.live b :=
  Heap.live_alloc_of_ne heap hne

theorem linkFrame_cell_fst (hne : fst ≠ newfst) :
    (linkFrame heap fst newfst iter).cell fst = ⟨(heap.cell fst).val, some newfst⟩ := by
  rw [linkFrame, Heap.cell_set_self, Heap.cell_set_of_ne _ hne, Heap.cell_alloc]

theorem linkFrame_cell_new (hne : newfst ≠ fst) :
    (linkFrame heap fst newfst iter).cell newfst = ⟨iter, none⟩ := by
  rw [linkFrame, Heap.cell_set_of_ne _ hne, Heap.cell_set_self]

theorem linkFrame_cell_of_ne (hfst : b ≠ fst) (hnew : b ≠ newfst) :
    (linkFrame heap fst newfst iter).cell b = heap.cell b := by
  rw [linkFrame, Heap.cell_set_of_ne _ hfst, Heap.cell_set_of_ne _ hnew, Heap.cell_alloc]

end LinkFrame

/-- What has been handed out for one frame leaves the rest. -/
theorem Handed.linkFrame {heap : Heap A Nat} {addrs : Nat → A} {iter n : Nat} (fst : A)
    (h : Handed heap addrs iter (iter + (n + 1))) :
    Handed (FrameDev.linkFrame heap fst (addrs iter) iter) addrs (iter + 1) (iter + 1 + n) where
  fresh i hlo hhi := by
    have hne : addrs i ≠ addrs iter := by
      intro he
      have hi := h.distinct i iter (by omega) (by omega) (by omega) (by omega) he
      omega
    rw [linkFrame_live_of_ne heap iter hne]
    exact h.fresh i (by omega) (by omega)
  distinct i j hi hi' hj hj' := h.distinct i j (by omega) (by omega) (by omega) (by omega)

/-- The loop lists the frames from `iter` on behind the node it starts at, provided that this node
has a null link where there are no more frames. What else is in use it leaves. -/
theorem formatRest_isList {addrs : Nat → A} {heap : Heap A Nat} {fst : A} {iter n : Nat}
    (hlive : heap.live fst = true) (hend : n = 0 → (heap.cell fst).next = none)
    (haddrs : Handed heap addrs iter (iter + n)) :
    IsList (formatRest addrs heap fst iter n) (some fst)
        ((heap.cell fst).val :: List.range' iter n) ∧
      ∀ b, heap.live b = true → b ≠ fst → (formatRest addrs heap fst iter n).live b = true ∧
        (formatRest addrs heap fst iter n).cell b = heap.cell b := by
  induction n generalizing heap fst iter with
  | zero =>
      refine ⟨?_, fun b hb _ => ⟨hb, rfl⟩⟩
      refine IsList.cons hlive ?_
      rw [formatRest, hend rfl]
      exact .nil heap
  | succ n ih =>
      have hnew : ∀ b, heap.live b = true → b ≠ addrs iter := by
        rintro b hb rfl
        rw [haddrs.fresh iter le_rfl (by omega)] at hb
        cases hb
      have hfst := hnew fst hlive
      have hcell := linkFrame_cell_fst heap iter hfst
      have hcell' := linkFrame_cell_new heap iter hfst.symm
      obtain ⟨hrest, hframe⟩ := ih (linkFrame_live_new heap iter)
        (fun _ => by rw [hcell']) (haddrs.linkFrame fst)
      rw [hcell'] at hrest
      have hkeep : ∀ b, heap.live b = true →
          (formatRest addrs heap fst iter (n + 1)).live b = true ∧
            (formatRest addrs heap fst iter (n + 1)).cell b =
              (linkFrame heap fst (addrs iter) iter).cell b := by
        intro b hb
        refine hframe b ?_ (hnew b hb)
        rw [linkFrame_live_of_ne heap iter (hnew b hb), hb]
      obtain ⟨hlive', hlink⟩ := hkeep fst hlive
      rw [hcell] at hlink
      constructor
      · have hlist := IsList.cons (l := iter :: List.range' (iter + 1) n) hlive' (by
          rw [hlink]
          exact hrest)
        rw [hlink] at hlist
        exact hlist
      · intro b hb hne
        obtain ⟨hb', hcellb⟩ := hkeep b hb
        exact ⟨hb', hcellb.trans (linkFrame_cell_of_ne heap iter hne (hnew b hb))⟩

/-- A device without a frame keeps its list. -/
theorem initMemphy_zero (d : FrameDev A) (addrs : Nat → A) {maxSize : Nat} (randomflg : Int)
    (hn : maxSize / pagingPagesz = 0) :
    (d.initMemphy addrs maxSize randomflg).freeFpList = d.freeFpList ∧
      (d.initMemphy addrs maxSize randomflg).heap = d.heap := by
  unfold initMemphy format
  simp only [if_pos hn]
  split <;> exact ⟨rfl, rfl⟩

/-- The memory in which the loop of the formatting starts. -/
def firstFrame (d : FrameDev A) (addrs : Nat → A) : Heap A Nat :=
  (d.heap.alloc (addrs 0)).set (addrs 0) ⟨0, (d.heap.cell (addrs 0)).next⟩

theorem firstFrame_live (d : FrameDev A) (addrs : Nat → A) :
    (d.firstFrame addrs).live (addrs 0) = true := Heap.live_alloc_self d.heap (addrs 0)

theorem firstFrame_cell (d : FrameDev A) (addrs : Nat → A) :
    (d.firstFrame addrs).cell (addrs 0) = ⟨0, (d.heap.cell (addrs 0)).next⟩ :=
  Heap.cell_set_self ..

/-- The addresses of the other nodes are still to be used. -/
theorem Handed.firstFrame {d : FrameDev A} {addrs : Nat → A} {n : Nat}
    (h : Handed d.heap addrs 0 (n + 1)) : Handed (d.firstFrame addrs) addrs 1 (1 + n) where
  fresh i hlo hhi := by
    have hne : addrs i ≠ addrs 0 := by
      intro he
      have hi := h.distinct i 0 (by omega) (by omega) (by omega) (by omega) he
      omega
    exact (Heap.live_alloc_of_ne d.heap hne).trans (h.fresh i (by omega) (by omega))
  distinct i j hi hi' hj hj' := h.distinct i j (by omega) (by omega) (by omega) (by omega)

/-- With a frame the list begins at its node. -/
theorem initMemphy_succ (d : FrameDev A) (addrs : Nat → A) {maxSize n : Nat} (randomflg : Int)
    (hn : maxSize / pagingPagesz = n + 1) :
    (d.initMemphy addrs maxSize randomflg).freeFpList = some (addrs 0) ∧
      (d.initMemphy addrs maxSize randomflg).heap =
        formatRest addrs (d.firstFrame addrs) (addrs 0) 1 n := by
  unfold initMemphy format
  simp only [hn, if_neg (Nat.succ_ne_zero n)]
  split <;> exact ⟨rfl, rfl⟩

/-- The list comes to an end: there are two frames or more, or the link that nobody sets is null. -/
def Terminated (d : FrameDev A) (addrs : Nat → A) (n : Nat) : Prop :=
  2 ≤ n ∨ n = 1 ∧ (d.heap.cell (addrs 0)).next = none ∨ n = 0 ∧ d.freeFpList = none

/-- Then it lists the frames in order. -/
theorem initMemphy_isList {d : FrameDev A} {addrs : Nat → A} {maxSize : Nat} (randomflg : Int)
    (haddrs : Handed d.heap addrs 0 (maxSize / pagingPagesz))
    (hterm : d.Terminated addrs (maxSize / pagingPagesz)) :
    IsList (d.initMemphy addrs maxSize randomflg).heap
      (d.initMemphy addrs maxSize randomflg).freeFpList
      (List.range (maxSize / pagingPagesz)) := by
  cases hn : maxSize / pagingPagesz with
  | zero =>
      obtain ⟨hlist, hheap⟩ := d.initMemphy_zero addrs randomflg hn
      have hnull : d.freeFpList = none := by
        rcases hterm with htwo | ⟨hone, -⟩ | ⟨-, hnull⟩
        · omega
        · omega
        · exact hnull
      rw [hlist, hheap, hnull]
      exact .nil d.heap
  | succ n =>
      obtain ⟨hlist, hheap⟩ := d.initMemphy_succ addrs randomflg hn
      have hcell := d.firstFrame_cell addrs
      have hend : n = 0 → ((d.firstFrame addrs).cell (addrs 0)).next = none := by
        rintro rfl
        rw [hcell]
        rcases hterm with htwo | ⟨-, hnull⟩ | ⟨hzero, -⟩
        · omega
        · exact hnull
        · omega
      rw [hn] at haddrs
      have hall := (formatRest_isList (d.firstFrame_live addrs) hend haddrs.firstFrame).1
      rw [hcell] at hall
      rw [hlist, hheap, List.range_eq_range', List.range'_succ]
      exact hall

/-! ## When each frame is handed out once -/

/-- Only a null link gives the return code `-1`. -/
theorem freeFpList_of_getFreefp {d d' : FrameDev A} (h : d.getFreefp = .ok (none, d')) :
    d.freeFpList = none := by
  unfold getFreefp at h
  split at h
  · assumption
  · obtain ⟨node, -, h⟩ := Exec.bind_eq_ok.mp h
    cases h

theorem getFrames_succ {d d' : FrameDev A} {k : Nat} {fpn : Option Nat} {fpns : List (Option Nat)}
    (h : d.getFrames (k + 1) = .ok (fpn :: fpns, d')) :
    ∃ d₁, d.getFreefp = .ok (fpn, d₁) ∧ d₁.getFrames k = .ok (fpns, d') := by
  obtain ⟨⟨fpn₁, d₁⟩, hget, h⟩ := Exec.bind_eq_ok.mp h
  obtain ⟨⟨fpns₁, d₂⟩, hrest, h⟩ := Exec.bind_eq_ok.mp h
  cases h
  exact ⟨d₁, hget, hrest⟩

/-- **A formatted device hands out each frame once, exactly if its list of free frames comes to an
end.** That is so for two frames and more. With one frame the memory of its node must happen to hold
a null link, and without one the device must have had an empty list before. -/
theorem handsOutOnce_iff {d : FrameDev A} {addrs : Nat → A} {maxSize : Nat} (randomflg : Int)
    (haddrs : Handed d.heap addrs 0 (maxSize / pagingPagesz)) :
    HandsOutOnce (d.initMemphy addrs maxSize randomflg) (maxSize / pagingPagesz) ↔
      d.Terminated addrs (maxSize / pagingPagesz) := by
  refine ⟨fun h => ?_, fun hterm =>
    handsOutOnce_of_isList (initMemphy_isList randomflg haddrs hterm)⟩
  cases hn : maxSize / pagingPagesz with
  | zero =>
      obtain ⟨d', hget⟩ := h.inOrder 1
      rw [hn] at hget
      obtain ⟨d₁, hnone, -⟩ := getFrames_succ hget
      have hnull := freeFpList_of_getFreefp hnone
      rw [(d.initMemphy_zero addrs randomflg hn).1] at hnull
      exact .inr (.inr ⟨rfl, hnull⟩)
  | succ n =>
      cases n with
      | succ n => exact .inl (by omega)
      | zero =>
          obtain ⟨hlist, hheap⟩ := d.initMemphy_succ addrs randomflg hn
          obtain ⟨d', hget⟩ := h.inOrder 2
          rw [hn] at hget
          obtain ⟨d₁, hfirst, hrest⟩ := getFrames_succ hget
          obtain ⟨d₂, hnone, -⟩ := getFrames_succ hrest
          have hnull := freeFpList_of_getFreefp hnone
          have hload := Heap.load_of_live (d.firstFrame_live addrs)
          rw [d.firstFrame_cell] at hload
          simp only [getFreefp, hlist, hheap, formatRest, hload, assigned] at hfirst
          cases hfirst
          exact .inr (.inl ⟨rfl, hnull⟩)

/-- Two frames, wherever their nodes go. -/
theorem handsOutOnce_iff_two_frames :
    let d : FrameDev Nat :=
      ⟨fun _ => 0, 0, false, 0, some 7, ⟨fun _ => ⟨9, some 7⟩, fun _ => false⟩⟩
    HandsOutOnce (d.initMemphy id 512 1) 2 := by
  intro d
  have haddrs : Handed d.heap id 0 (512 / pagingPagesz) :=
    ⟨fun _ _ _ => rfl, fun _ _ _ _ _ _ he => he⟩
  exact (handsOutOnce_iff 1 haddrs).mpr (.inl (by decide))

/-- One frame, and `malloc` returns memory with something in it: the second get follows it. -/
theorem one_frame_not_handsOutOnce :
    ∃ (d : FrameDev Nat) (addrs : Nat → Nat), Handed d.heap addrs 0 (256 / pagingPagesz) ∧
      ¬ HandsOutOnce (d.initMemphy addrs 256 1) (256 / pagingPagesz) := by
  refine ⟨⟨fun _ => 0, 0, false, 0, none, ⟨fun _ => ⟨9, some 7⟩, fun _ => false⟩⟩, id,
    ⟨fun _ _ _ => rfl, fun _ _ _ _ _ _ he => he⟩, fun h => ?_⟩
  obtain ⟨d', hget⟩ := h.inOrder 2
  cases hget

/-! ## The list of the device -/

/-- The nodes of `d` hold the free frames of `mp`, and the rest is the same. -/
structure Represents (d : FrameDev A) (mp : Memphy) : Prop where
  frames : IsList d.heap d.freeFpList mp.freeFpList
  storage : d.storage = mp.storage
  maxsz : d.maxsz = mp.maxsz
  rdmflg : d.rdmflg = mp.rdmflg
  cursor : d.cursor = mp.cursor

/-- On the nodes, `MEMPHY_get_freefp` does what it does on the list. -/
theorem Represents.getFreefp {d : FrameDev A} {mp : Memphy} (h : Represents d mp) :
    ∃ d', d.getFreefp = .ok (mp.getFreefp.1, d') ∧ Represents d' mp.getFreefp.2 := by
  unfold Memphy.getFreefp
  cases hfree : mp.freeFpList with
  | nil =>
      have hnil := h.frames
      rw [hfree] at hnil
      exact ⟨d, getFreefp_nil hnil, h⟩
  | cons fpn rest =>
      have hcons := h.frames
      rw [hfree] at hcons
      obtain ⟨fp, heap, hget, hrest⟩ := getFreefp_cons hcons
      exact ⟨_, hget, hrest, h.storage, h.maxsz, h.rdmflg, h.cursor⟩

/-- And so does `MEMPHY_put_freefp`. -/
theorem Represents.putFreefp {d : FrameDev A} {mp : Memphy} (h : Represents d mp) {a : A}
    (hfresh : d.heap.live a = false) (fpn : Nat) :
    Represents (d.putFreefp a fpn) (mp.putFreefp fpn) :=
  ⟨h.frames.push hfresh fpn, h.storage, h.maxsz, h.rdmflg, h.cursor⟩

/-- A device whose list comes to an end is formatted as the list says. -/
theorem Represents.initMemphy {d : FrameDev A} {addrs : Nat → A} {mp : Memphy} {maxSize : Nat}
    (hmax : maxSize < 2 ^ 31) (randomflg : Int)
    (haddrs : Handed d.heap addrs 0 (maxSize / pagingPagesz))
    (hterm : d.Terminated addrs (maxSize / pagingPagesz)) (hstorage : d.storage = mp.storage)
    (hcursor : d.cursor = mp.cursor) (hnone : maxSize / pagingPagesz = 0 → mp.freeFpList = []) :
    Represents (d.initMemphy addrs maxSize randomflg) (mp.initMemphy maxSize hmax randomflg) where
  frames := by
    have hlist := initMemphy_isList randomflg haddrs hterm
    have hfree : (mp.initMemphy maxSize hmax randomflg).freeFpList =
        List.range (maxSize / pagingPagesz) := by
      by_cases hzero : maxSize / pagingPagesz = 0
      · rw [hzero, List.range_zero, ← hnone hzero]
        unfold Memphy.initMemphy Memphy.format
        simp only [if_pos hzero]
        split <;> rfl
      · exact mp.initMemphy_freeFpList (Nat.div_ne_zero_iff.mp hzero).2 hmax randomflg
    rw [hfree]
    exact hlist
  storage := by
    simp only [FrameDev.initMemphy, FrameDev.format, Memphy.initMemphy, Memphy.format]
    split <;> split <;> exact hstorage
  maxsz := by
    simp only [FrameDev.initMemphy, FrameDev.format, Memphy.initMemphy, Memphy.format]
    split <;> split <;> rfl
  rdmflg := by
    simp only [FrameDev.initMemphy, FrameDev.format, Memphy.initMemphy, Memphy.format]
    split <;> split <;> rfl
  cursor := by
    simp only [FrameDev.initMemphy, FrameDev.format, Memphy.initMemphy, Memphy.format]
    split <;> split <;> first | exact hcursor | rfl

end FrameDev

end Ossim.Mm
