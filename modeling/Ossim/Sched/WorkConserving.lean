import Ossim.Sched.Bypass

/-!
# When `get_proc` returns a process

As long as somebody waits, `get_proc` should hand out a process: the head of the first level with
slots, and if the slots of all waiting levels are spent, all slots are there again first. But the
branch of `get_mlq_proc` that fills the slots does not look at the queues again. It returns `NULL`,
although somebody waits. `work_conserving_iff` says that this branch is the only exception.
-/

namespace Ossim

variable {π : Type}

namespace Sched

/-- The slots that `get_proc` should go by: if no waiting level has any, all of them again. -/
def slotsLeft (s : Sched π) : Level → Int :=
  if ∃ p, s.waiting p ≠ [] ∧ 0 < s.slot p then s.slot else fullSlots

/-- Level `p` is the smallest level with a process and a slot. -/
structure IsNext (s : Sched π) (p : Level) : Prop where
  waits : s.waiting p ≠ []
  slot_pos : 0 < s.slotsLeft p
  first : ∀ k < p, s.waiting k ≠ [] → s.slotsLeft k ≤ 0

/-- A `get_proc` that leaves nobody waiting for nothing: it returns `NULL` only if nobody waits, and
otherwise the head of the next level, which pays for it with a slot. -/
structure Conserves (s : Sched π) (g : Got π) : Prop where
  null : g.proc = none → ∀ p, s.waiting p = []
  next : (∃ p, s.waiting p ≠ []) → ∃ p, s.IsNext p ∧ (s.waiting p).head? = some g.proc ∧
    g.sched.slot = Function.update s.slotsLeft p (s.slotsLeft p - 1)

variable {prio : π → Nat} {s : Sched π}

/-- The outcome of one `get_mlq_proc`: as it should be, except for the branch that fills the slots. -/
theorem conserves_iff {g : Got π} (h : GetOutcome s g) :
    Conserves s g ↔ (∀ p, s.waiting p = []) ∨ ∃ p, s.waiting p ≠ [] ∧ 0 < s.slot p := by
  cases h with
  | idle hnone =>
      refine ⟨fun _ => .inl hnone, fun _ => ⟨fun _ => hnone, ?_⟩⟩
      rintro ⟨p, hwait⟩
      exact absurd (hnone p) hwait
  | replenish hsome hspent =>
      constructor
      · intro hcons
        exact .inl (hcons.null rfl)
      · rintro (hnone | ⟨p, hwait, hslot⟩)
        · obtain ⟨p, hwait⟩ := hsome
          exact absurd (hnone p) hwait
        · exact absurd (hspent p hwait) (not_le.mpr hslot)
  | @dispatch p x rest q hhead hslot hfirst hq =>
      have hwait : s.waiting p ≠ [] := by
        rw [hhead]
        exact List.cons_ne_nil _ _
      have hleft : s.slotsLeft = s.slot := by
        unfold slotsLeft
        exact if_pos ⟨p, hwait, hslot⟩
      have hnext : s.IsNext p := by
        refine ⟨hwait, ?_, ?_⟩
        · rwa [hleft]
        · rwa [hleft]
      refine ⟨fun _ => .inr ⟨p, hwait, hslot⟩, fun _ => ⟨?_, fun _ => ⟨p, hnext, ?_, ?_⟩⟩⟩
      · intro hnone
        cases hnone
      · rw [hhead]
        rfl
      · rw [hleft]

/-- **`get_proc` is work-conserving exactly when nobody waits or a waiting level has slots left**, in
every state reached from `init_scheduler`. -/
theorem work_conserving_iff {es : List (SchedEvent π)}
    (hrun : Steps (Emits prio) initScheduler es s) :
    (∃ g, s.getMlqProc prio = .ok g ∧ Conserves s g) ↔
      (∀ p, s.waiting p = []) ∨ ∃ p, s.waiting p ≠ [] ∧ 0 < s.slot p := by
  have hs : s.Funded prio :=
    hrun.state_invariant (funded_initScheduler prio) fun _ _ _ hs h => hs.emits h
  obtain ⟨g, hg, hout⟩ := getMlqProc_outcome hs.sorted
  rw [← conserves_iff hout]
  constructor
  · rintro ⟨g', hg', hcons⟩
    cases hg.symm.trans hg'
    exact hcons
  · intro hcons
    exact ⟨g, hg, hcons⟩

/-- The slot of level 139 is spent, and its process waits again. -/
theorem spentLevel_reached :
    ∃ s : Sched Unit, Steps (Emits fun _ => 139) initScheduler
        [.add (), .got (some ()), .put ()] s ∧
      s.waiting ⟨139, by decide⟩ ≠ [] ∧ s.getMlqProc (fun _ => 139) =
        .ok ⟨none, true, { s with slot := fullSlots }⟩ :=
  ⟨_, .cons rfl (.cons ⟨_, rfl, rfl, rfl⟩ (.cons rfl (.nil _))), by decide, rfl⟩

theorem work_conserving_iff_spent_level :
    ∃ s : Sched Unit, Steps (Emits fun _ => 139) initScheduler
        [.add (), .got (some ()), .put ()] s ∧
      ((∃ g, s.getMlqProc (fun _ => 139) = .ok g ∧ Conserves s g) ↔
        (∀ p, s.waiting p = []) ∨ ∃ p, s.waiting p ≠ [] ∧ 0 < s.slot p) := by
  obtain ⟨s, hrun, -, -⟩ := spentLevel_reached
  exact ⟨s, hrun, work_conserving_iff hrun⟩

/-- The next `get_proc` returns `NULL`. -/
theorem null_while_waiting :
    ∃ s : Sched Unit, Steps (Emits fun _ => 139) initScheduler
        [.add (), .got (some ()), .put ()] s ∧
      ¬ ∃ g, s.getMlqProc (fun _ => 139) = .ok g ∧ Conserves s g := by
  obtain ⟨s, hrun, hwait, hget⟩ := spentLevel_reached
  refine ⟨s, hrun, ?_⟩
  rintro ⟨g, hg, hcons⟩
  cases hget.symm.trans hg
  exact hwait (hcons.null rfl _)

end Sched

end Ossim
