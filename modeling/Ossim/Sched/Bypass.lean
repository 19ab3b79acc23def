import Mathlib.Order.Interval.Finset.Fin
import Ossim.Library.Sum
import Ossim.Sched.SlotPolicy

/-!
# Nobody waits forever

`get_proc` always prefers the first level that has slots, so arrivals at better levels can overtake a
waiting level again and again. But every process that overtakes spends a slot, and slots come back
only when every waiting level has spent all of its own. `debt p` is what the other levels can still
spend before `p` has its turn: while `p` has slots, the slots of the better levels; when it has none,
the slots of all the others, one call for the replenishment, and then the full quota of the better
levels. Every `get_proc` that does not serve `p` lowers it, and nothing raises it.
-/

namespace Ossim

variable {π : Type}

/-- An operation with what it returned. -/
inductive SchedEvent (π : Type) where
  | add (p : π)
  | put (p : π)
  | got (proc : Option π)

namespace SchedEvent

/-- A call of `get_proc`. -/
def isGet : SchedEvent π → Bool
  | .got _ => true
  | _ => false

/-- A call of `get_proc` that returns a process of level `p`. -/
def Serves (prio : π → Nat) (p : Level) : SchedEvent π → Prop
  | .got (some x) => prio x = p
  | _ => False

end SchedEvent

namespace Sched

/-- One operation on the scheduler, with what it returned. -/
def Emits (prio : π → Nat) (s : Sched π) : SchedEvent π → Sched π → Prop
  | .add p, s' => s.addProc prio p = .ok s'
  | .put p, s' => s.putProc prio p = .ok s'
  | .got proc, s' => ∃ g, s.getMlqProc prio = .ok g ∧ g.proc = proc ∧ g.sched = s'

/-- The levels are sorted, and every slot counter is between zero and the quota of its level. -/
structure Funded (prio : π → Nat) (s : Sched π) : Prop where
  sorted : s.Sorted prio
  nonneg : ∀ p, 0 ≤ s.slot p
  le_quota : ∀ p, s.slot p ≤ fullSlots p

theorem fullSlots_pos (p : Level) : 0 < fullSlots p := by
  have := p.isLt
  unfold fullSlots
  omega

theorem funded_initScheduler (prio : π → Nat) : (initScheduler : Sched π).Funded prio where
  sorted := sorted_initScheduler prio
  nonneg p := (fullSlots_pos p).le
  le_quota _ := le_rfl

variable {prio : π → Nat} {s s' : Sched π}

/-- Entering a process touches no slot, and no queue gets shorter. -/
structure Entered (s s' : Sched π) : Prop where
  slot : s'.slot = s.slot
  waiting : ∀ p, s.waiting p ≠ [] → s'.waiting p ≠ []

theorem entered_of_enqueueMlq {x : π} (h : enqueueMlq prio s x = .ok s') : Entered s s' := by
  obtain ⟨hx, rfl⟩ := enqueueMlq_cases h
  refine ⟨rfl, ?_⟩
  intro p hp
  unfold waiting at hp ⊢
  rcases eq_or_ne p ⟨prio x, hx⟩ with rfl | hne
  · simp only [Function.update_self, Queue.entries_enqueue]
    split
    · simp
    · exact hp
  · simpa only [Function.update_of_ne hne] using hp

theorem Funded.enqueueMlq {x : π} (hs : s.Funded prio) (h : Sched.enqueueMlq prio s x = .ok s') :
    s'.Funded prio := by
  refine ⟨hs.sorted.enqueueMlq h, ?_, ?_⟩
  · rw [(entered_of_enqueueMlq h).slot]
    exact hs.nonneg
  · rw [(entered_of_enqueueMlq h).slot]
    exact hs.le_quota

theorem Funded.getMlqProc {g : Got π} (hs : s.Funded prio) (h : GetOutcome s g) :
    g.sched.Funded prio := by
  have hsorted := hs.sorted.getMlqProc h
  cases h with
  | idle => exact hs
  | replenish => exact ⟨hsorted, fun p => (fullSlots_pos p).le, fun _ => le_rfl⟩
  | @dispatch p x rest q hhead hslot hfirst hq =>
      refine ⟨hsorted, ?_, ?_⟩
      · intro k
        rcases eq_or_ne k p with rfl | hne
        · simp only [Function.update_self]
          omega
        · simpa only [Function.update_of_ne hne] using hs.nonneg k
      · intro k
        have hle := hs.le_quota k
        rcases eq_or_ne k p with rfl | hne
        · simp only [Function.update_self]
          omega
        · simpa only [Function.update_of_ne hne] using hle

/-- The two ways to enter a process differ only in the legacy queue they use. -/
theorem Emits.enters {x : π} (h : Emits prio s (.add x) s' ∨ Emits prio s (.put x) s') :
    ∃ s₁, s₁.mlqReadyQueue = s.mlqReadyQueue ∧ s₁.slot = s.slot ∧
      Sched.enqueueMlq prio s₁ x = .ok s' := by
  rcases h with hadd | hput
  · exact ⟨s.addRunning x, rfl, rfl, hadd⟩
  · exact ⟨s.putReady x, rfl, rfl, hput⟩

theorem Funded.emits {e : SchedEvent π} (hs : s.Funded prio) (h : Emits prio s e s') :
    s'.Funded prio := by
  have henter : ∀ x, (Emits prio s (.add x) s' ∨ Emits prio s (.put x) s') → s'.Funded prio := by
    intro x hx
    obtain ⟨s₁, hqueues, hslots, henq⟩ := Emits.enters hx
    have hs₁ : s₁.Funded prio := by
      refine ⟨?_, ?_, ?_⟩
      · unfold Sorted
        rw [hqueues]
        exact hs.sorted
      · rw [hslots]
        exact hs.nonneg
      · rw [hslots]
        exact hs.le_quota
    exact hs₁.enqueueMlq henq
  cases e with
  | add x => exact henter x (.inl h)
  | put x => exact henter x (.inr h)
  | got proc =>
      obtain ⟨g, hg, -, rfl⟩ := h
      exact hs.getMlqProc (getMlqProc_cases hs.sorted hg)

/-! ## The debt -/

/-- How many calls of `get_proc` can serve others before level `p` has its turn. -/
def debt (p : Level) (s : Sched π) : Int :=
  if 0 < s.slot p then ∑ q ∈ Finset.Iio p, s.slot q
  else ∑ q ∈ Finset.univ.erase p, s.slot q + 1 + ∑ q ∈ Finset.Iio p, fullSlots q

/-- The largest debt: all other levels have their quota, and then the better ones have it again. -/
def bypassBound (p : Level) : Int :=
  ∑ q ∈ Finset.univ.erase p, ((maxPrio : Int) - (q : Nat)) + 1 +
    ∑ q ∈ Finset.Iio p, ((maxPrio : Int) - (q : Nat))

theorem Funded.debt_nonneg (hs : s.Funded prio) (p : Level) : 0 ≤ s.debt p := by
  have hother : 0 ≤ ∑ q ∈ Finset.univ.erase p, s.slot q := Finset.sum_nonneg fun q _ => hs.nonneg q
  have hbetter : 0 ≤ ∑ q ∈ Finset.Iio p, s.slot q := Finset.sum_nonneg fun q _ => hs.nonneg q
  have hquota : 0 ≤ ∑ q ∈ Finset.Iio p, fullSlots q :=
    Finset.sum_nonneg fun q _ => (fullSlots_pos q).le
  unfold debt
  split <;> omega

theorem Funded.debt_le (hs : s.Funded prio) (p : Level) : s.debt p ≤ bypassBound p := by
  have hother : ∑ q ∈ Finset.univ.erase p, s.slot q ≤ ∑ q ∈ Finset.univ.erase p, fullSlots q :=
    Finset.sum_le_sum fun q _ => hs.le_quota q
  have hbetter : ∑ q ∈ Finset.Iio p, s.slot q ≤ ∑ q ∈ Finset.Iio p, fullSlots q :=
    Finset.sum_le_sum fun q _ => hs.le_quota q
  have hquota : 0 ≤ ∑ q ∈ Finset.univ.erase p, fullSlots q :=
    Finset.sum_nonneg fun q _ => (fullSlots_pos q).le
  have hbound : bypassBound p =
      ∑ q ∈ Finset.univ.erase p, fullSlots q + 1 + ∑ q ∈ Finset.Iio p, fullSlots q := rfl
  rw [hbound]
  unfold debt
  split <;> omega

theorem debt_congr {p : Level} (h : s'.slot = s.slot) : s'.debt p = s.debt p := by
  unfold debt
  rw [h]

/-- A slot of another level is spent. -/
theorem sum_spend {S : Finset Level} {q : Level} (hq : q ∈ S) (slot : Level → Int) :
    ∑ k ∈ S, Function.update slot q (slot q - 1) k = ∑ k ∈ S, slot k - 1 := by
  have := FamilySum.sum_update_add_of_mem hq slot (slot q - 1)
  omega

/-- **A call of `get_proc` that does not serve a waiting level lowers its debt**, and the level goes
on waiting. -/
theorem Funded.debt_lt (hs : s.Funded prio) {p : Level} (hp : s.waiting p ≠ []) {g : Got π}
    (h : GetOutcome s g) (hno : ∀ x, g.proc = some x → prio x ≠ p) :
    g.sched.debt p + 1 ≤ s.debt p ∧ g.sched.waiting p ≠ [] := by
  cases h with
  | idle hnone => exact absurd (hnone p) hp
  | replenish hsome hspent =>
      -- all slots are back, and the better levels go first
      have hzero := hspent p hp
      have hother : 0 ≤ ∑ q ∈ Finset.univ.erase p, s.slot q :=
        Finset.sum_nonneg fun q _ => hs.nonneg q
      refine ⟨?_, hp⟩
      unfold debt
      rw [if_pos (fullSlots_pos p), if_neg (by omega)]
      simp only
      omega
  | @dispatch q x rest queue hhead hslot hfirst hqueue =>
      have hprio : prio x = q := hs.sorted.prio_head hhead
      have hne : q ≠ p := by
        rintro rfl
        exact hno x rfl hprio
      have hslotp : Function.update s.slot q (s.slot q - 1) p = s.slot p :=
        Function.update_of_ne hne.symm _ _
      refine ⟨?_, ?_⟩
      · unfold debt
        simp only [hslotp]
        by_cases hpos : 0 < s.slot p
        · -- level `p` was eligible, so only a better level can have been taken
          have hlt : q < p := by
            by_contra hge
            have hpq : p < q := lt_of_le_of_ne (not_lt.mp hge) hne.symm
            have := hfirst p hpq hp
            omega
          rw [if_pos hpos, if_pos hpos, sum_spend (Finset.mem_Iio.mpr hlt)]
          omega
        · rw [if_neg hpos, if_neg hpos,
            sum_spend (Finset.mem_erase.mpr ⟨hne, Finset.mem_univ q⟩)]
          omega
      · unfold waiting at hp ⊢
        simpa only [Function.update_of_ne hne.symm] using hp

/-- An operation that does not serve a waiting level lowers its debt if it is a `get_proc`, and does
not raise it otherwise. -/
theorem Funded.debt_step (hs : s.Funded prio) {p : Level} (hp : s.waiting p ≠ [])
    {e : SchedEvent π} (hno : ¬ e.Serves prio p) (h : Emits prio s e s') :
    s'.waiting p ≠ [] ∧ s'.debt p + (if e.isGet then 1 else 0) ≤ s.debt p := by
  have henter : ∀ x, (Emits prio s (.add x) s' ∨ Emits prio s (.put x) s') →
      s'.waiting p ≠ [] ∧ s'.debt p = s.debt p := by
    intro x hx
    obtain ⟨s₁, hqueues, hslots, henq⟩ := Emits.enters hx
    have hentered := entered_of_enqueueMlq henq
    refine ⟨hentered.waiting p ?_, debt_congr (hentered.slot.trans hslots)⟩
    unfold waiting
    rw [hqueues]
    exact hp
  cases e with
  | add x =>
      obtain ⟨hwait, hdebt⟩ := henter x (.inl h)
      exact ⟨hwait, by simp [SchedEvent.isGet, hdebt]⟩
  | put x =>
      obtain ⟨hwait, hdebt⟩ := henter x (.inr h)
      exact ⟨hwait, by simp [SchedEvent.isGet, hdebt]⟩
  | got proc =>
      obtain ⟨g, hg, rfl, rfl⟩ := h
      obtain ⟨hdebt, hwait⟩ := hs.debt_lt hp (getMlqProc_cases hs.sorted hg) fun x hx heq =>
        hno (by rw [hx]; exact heq)
      exact ⟨hwait, by simpa [SchedEvent.isGet] using hdebt⟩

/-- **Bounded bypass.** From any reachable scheduler in which level `p` waits, in any continuation
without a `get_proc` that returns a process of level `p`, there are no more calls of `get_proc` than
the other levels have slots, plus one, plus the slots of the better levels. And the next `get_proc`
goes through. -/
theorem bounded_bypass {es es' : List (SchedEvent π)} {p : Level}
    (hreach : Steps (Emits prio) initScheduler es s) (hp : s.waiting p ≠ [])
    (hrun : Steps (Emits prio) s es' s') (hno : ∀ e ∈ es', ¬ e.Serves prio p) :
    (es'.countP SchedEvent.isGet : Int) ≤
        (∑ q ∈ Finset.univ.erase p, ((maxPrio : Int) - (q : Nat))) + 1 +
          ∑ q ∈ Finset.Iio p, ((maxPrio : Int) - (q : Nat)) ∧
      ∃ g, s'.getMlqProc prio = .ok g := by
  have hs : s.Funded prio :=
    hreach.state_invariant (funded_initScheduler prio) fun _ _ _ hs h => hs.emits h
  obtain ⟨⟨hs', -⟩, hrank⟩ := (hrun.meeting_of_forall hno).countP_add_rank_le
    SchedEvent.isGet (debt p) (fun s => s.Funded prio ∧ s.waiting p ≠ []) ⟨hs, hp⟩
    fun t e t' ⟨ht, hwait⟩ ⟨hserve, hstep⟩ =>
      ⟨⟨ht.emits hstep, (ht.debt_step hwait hserve hstep).1⟩, (ht.debt_step hwait hserve hstep).2⟩
  have hbound : s.debt p ≤ bypassBound p := hs.debt_le p
  have hnonneg := hs'.debt_nonneg p
  unfold bypassBound at hbound
  obtain ⟨g, hg, -⟩ := getMlqProc_outcome hs'.sorted
  exact ⟨by omega, g, hg⟩

/-- A process of level 139 waits and one of level 0 is served before it. -/
theorem bounded_bypass_level_139 :
    ∃ s s', Steps (Emits fun urgent : Bool => if urgent then 0 else 139) initScheduler
        [.add false, .add true] s ∧
      Steps (Emits fun urgent : Bool => if urgent then 0 else 139) s [.got (some true)] s' ∧
      (1 : Int) ≤ (∑ q ∈ Finset.univ.erase (⟨139, by decide⟩ : Level), ((maxPrio : Int) - (q : Nat))) +
        1 + ∑ q ∈ Finset.Iio (⟨139, by decide⟩ : Level), ((maxPrio : Int) - (q : Nat)) := by
  obtain ⟨s, hreach, hwait, g, hg, hproc⟩ : ∃ s,
      Steps (Emits fun urgent : Bool => if urgent then 0 else 139) initScheduler
        [.add false, .add true] s ∧
      s.waiting ⟨139, by decide⟩ ≠ [] ∧
      ∃ g, s.getMlqProc (fun urgent : Bool => if urgent then 0 else 139) = .ok g ∧
        g.proc = some true :=
    ⟨_, .cons rfl (.cons rfl (.nil _)), by decide, _, rfl, rfl⟩
  have hget : Steps (Emits fun urgent : Bool => if urgent then 0 else 139) s
      [.got (some true)] g.sched := .cons ⟨g, hg, hproc, rfl⟩ (.nil _)
  have hno : ∀ e ∈ [SchedEvent.got (some true)],
      ¬ e.Serves (fun urgent : Bool => if urgent then 0 else 139) ⟨139, by decide⟩ := by
    intro e he
    obtain rfl := List.mem_singleton.mp he
    simp [SchedEvent.Serves]
  exact ⟨s, g.sched, hreach, hget, (bounded_bypass hreach hwait hget hno).1⟩

end Sched

end Ossim
