import Ossim.Mm.Translate

/-!
# Demand paging

A process that touches more pages than it has frames evicts the oldest one to swap. As long as it
does not come back to an evicted page, paging is invisible: every address reads the byte last
written to it. The store is RAM, the translation is the page directory, and a fault changes the
translation in two places: the victim loses its addresses, and the new page, which nobody has
written to, gets its frame.

Coming back fails. The entry of an evicted page is still present, so no fault happens, and the
encoded swap offset is read as a frame number. `evicted_page_lost` shows the smallest such run.
-/

namespace Ossim.Mm

/-- A process with a resident page: its list of mapped pages is exact, its pages have frames of
their own, and the free frames of swap exist. -/
structure Ready (c : Pcb) : Prop where
  ramRandom : c.mram.rdmflg = true
  swapRandom : c.activeMswp.rdmflg = true
  fifo : FifoExact c.mm.pgd c.mm.fifoPgn
  fifo_ne : c.mm.fifoPgn ≠ []
  frames : (residentFrames c.mm.pgd).Nodup
  hasFrame : ∀ f ∈ residentFrames c.mm.pgd, c.mram.HasFrame f
  swapFrame : ∀ f ∈ c.activeMswp.freeFpList, c.activeMswp.HasFrame f

/-- Swap has a frame for the victim of a fault at page `p`, and the frames of the second copy exist:
the one that the entry of `p` encodes in RAM, and the one with the number of the victim's frame in
swap. -/
structure FaultOk (c : Pcb) (p : Pgn) : Prop where
  swap_ne : c.activeMswp.freeFpList ≠ []
  source : c.mram.HasFrame (pagingPteSwp (c.mm.pgd p))
  target : ∀ v ∈ c.mm.fifoPgn.getLast?, c.activeMswp.HasFrame (pagingFpn (c.mm.pgd v))

/-- An access to a page that is resident or was never touched. -/
structure AccessOk (c : Pcb) (addr : BitVec 32) : Prop where
  lt : addr.toNat < 2 ^ 22
  not_swappedOut : swappedOut (c.mm.pgd (pagingPgn addr)) = false
  fault : pagingPagePresent (c.mm.pgd (pagingPgn addr)) = false → FaultOk c (pagingPgn addr)

/-- The page accesses to such pages. -/
def DemandOp (c : Pcb) : MemOp → Prop
  | .setval addr _ => AccessOk c addr
  | .getval addr => AccessOk c addr
  | _ => False

instance (c : Pcb) (p : Pgn) : Decidable (FaultOk c p) :=
  decidable_of_iff (c.activeMswp.freeFpList ≠ [] ∧ c.mram.HasFrame (pagingPteSwp (c.mm.pgd p)) ∧
      c.mm.fifoPgn.getLast?.all (fun v => c.activeMswp.HasFrame (pagingFpn (c.mm.pgd v))) = true)
    ⟨fun ⟨h1, h2, h3⟩ => ⟨h1, h2, by simpa [Option.all_eq_true] using h3⟩,
      fun ⟨h1, h2, h3⟩ => ⟨h1, h2, by simpa [Option.all_eq_true] using h3⟩⟩

instance (c : Pcb) (addr : BitVec 32) : Decidable (AccessOk c addr) :=
  decidable_of_iff (addr.toNat < 2 ^ 22 ∧ swappedOut (c.mm.pgd (pagingPgn addr)) = false ∧
      (pagingPagePresent (c.mm.pgd (pagingPgn addr)) = false → FaultOk c (pagingPgn addr)))
    ⟨fun ⟨h1, h2, h3⟩ => ⟨h1, h2, h3⟩, fun ⟨h1, h2, h3⟩ => ⟨h1, h2, h3⟩⟩

instance (c : Pcb) : (op : MemOp) → Decidable (DemandOp c op)
  | .setval addr _ | .getval addr => inferInstanceAs (Decidable (AccessOk c addr))
  | .alloc _ _ | .free _ | .read _ _ | .write _ _ _ | .memmap _ => .isFalse id

/-- The directory after a fault at `p`, with the victim `v` sent to the swap frame `s`. -/
def faultPgd (pgd : Pgn → Pte) (p v : Pgn) (s : Nat) : Pgn → Pte :=
  Function.update (Function.update pgd v (pteSetSwap (pgd v) 0 s)) p
    (pteSetFpn (Function.update pgd v (pteSetSwap (pgd v) 0 s) p) (pagingFpn (pgd v)))

/-- After a fault an address keeps its place, loses it, or belongs to the new page. -/
theorem translate_faultPgd {pgd : Pgn → Pte} {p v : Pgn} {s : Nat} {a : BitVec 32} {l : Nat}
    (h : translate (faultPgd pgd p v s) a = some l) : translate pgd a = some l ∨ pagingPgn a = p := by
  rcases eq_or_ne (pagingPgn a) p with hp | hp
  · exact .inr hp
  · left
    rcases eq_or_ne (pagingPgn a) v with hv | hv
    · -- The victim is not resident any more.
      obtain ⟨-, hres, -⟩ := translate_eq_some.mp h
      unfold faultPgd at hres
      rw [Function.update_of_ne hp, hv, Function.update_self, resident_pteSetSwap] at hres
      cases hres
    · have hentry : faultPgd pgd p v s (pagingPgn a) = pgd (pagingPgn a) := by
        unfold faultPgd
        rw [Function.update_of_ne hp, Function.update_of_ne hv]
      rwa [translate_congr hentry] at h

theorem resident_faultPgd (pgd : Pgn → Pte) (p v : Pgn) (s : Nat) :
    resident (faultPgd pgd p v s p) = true := by
  unfold faultPgd
  rw [Function.update_self, resident_pteSetFpn]

/-- A fault never makes a page absent. -/
theorem present_faultPgd {pgd : Pgn → Pte} {q : Pgn} (p v : Pgn) (s : Nat)
    (h : pagingPagePresent (pgd q) = true) : pagingPagePresent (faultPgd pgd p v s q) = true := by
  unfold faultPgd
  rcases eq_or_ne q p with rfl | hp
  · rw [Function.update_self, pagingPagePresent_pteSetFpn]
  · rw [Function.update_of_ne hp]
    rcases eq_or_ne q v with rfl | hv
    · rw [Function.update_self, pagingPagePresent_pteSetSwap]
    · rwa [Function.update_of_ne hv]

/-! ## The invariant -/

/-- RAM holds the last byte written to every address of a resident page, and a page that is not
present has never been written to. -/
structure Demand (hist : BitVec 32 → Option Byte) (c : Pcb) : Prop extends Ready c where
  agrees : Translation.Agrees (translate c.mm.pgd) c.mram.storage hist
  written : ∀ a v, hist a = some v → pagingPagePresent (c.mm.pgd (pagingPgn a)) = true

theorem Ready.demand {c : Pcb} (h : Ready c) : Demand (fun _ => none) c :=
  ⟨h, Translation.agrees_none _ _, fun _ _ hv => by cases hv⟩

namespace Demand

variable {hist : BitVec 32 → Option Byte} {c : Pcb}

/-- The address space after a fault, on devices that have only lost a frame of swap. -/
theorem fault (h : Demand hist c) {p v : Pgn} {newer : List Pgn} {s : Nat} {rest : List Nat}
    {storage : Nat → Byte} (habsent : pagingPagePresent (c.mm.pgd p) = false)
    (hfifo : c.mm.fifoPgn = newer ++ [v]) (hswap : c.activeMswp.freeFpList = s :: rest) :
    Demand hist
      { c with
        mm := { c.mm with pgd := faultPgd c.mm.pgd p v s, fifoPgn := p :: newer }
        activeMswp := { c.activeMswp with storage := storage, freeFpList := rest } } := by
  have hexact := h.fifo
  rw [hfifo] at hexact
  have hv : resident (c.mm.pgd v) = true := (hexact.mem_iff v).mp (by simp)
  have hp : resident (Function.update c.mm.pgd v (pteSetSwap (c.mm.pgd v) 0 s) p) = false := by
    rcases eq_or_ne p v with rfl | hne
    · simp
    · rw [Function.update_of_ne hne]
      exact not_resident_of_absent habsent
  have hframes : residentFrames (faultPgd c.mm.pgd p v s) = residentFrames c.mm.pgd :=
    residentFrames_fault habsent hv _ _ s
  constructor
  · exact {
      ramRandom := h.ramRandom
      swapRandom := h.swapRandom
      fifo := (hexact.evict _ s).map_page hp _ _
      fifo_ne := List.cons_ne_nil _ _
      frames := hframes ▸ h.frames
      hasFrame := hframes ▸ h.hasFrame
      swapFrame := fun f hf => h.swapFrame f (hswap ▸ List.mem_cons_of_mem _ hf) }
  · refine h.agrees.remap fun a l hl => (translate_faultPgd hl).imp_right fun hpage => ?_
    -- Nobody has written to the new page.
    cases hhist : hist a with
    | none => rfl
    | some w =>
        have hpresent := h.written a w hhist
        rw [hpage, habsent] at hpresent
        cases hpresent
  · exact fun a w hw => present_faultPgd p v s (h.written a w hw)

/-- **Fetching a page goes through**, and the page is resident afterwards. -/
theorem pgGetpage (h : Demand hist c) {addr : BitVec 32} (hok : AccessOk c addr) :
    ∃ c', c.pgGetpage (pagingPgn addr) = .ok (0, pagingFpn (c'.mm.pgd (pagingPgn addr)), c') ∧
      Demand hist c' ∧ resident (c'.mm.pgd (pagingPgn addr)) = true := by
  cases hpresent : pagingPagePresent (c.mm.pgd (pagingPgn addr)) with
  | true =>
      exact ⟨c, Pcb.pgGetpage_of_present hpresent, h,
        resident_of_present hpresent hok.not_swappedOut⟩
  | false =>
      obtain ⟨hfree, hsource, htarget⟩ := hok.fault hpresent
      obtain ⟨newer, v, hfifo⟩ : ∃ newer v, c.mm.fifoPgn = newer ++ [v] :=
        ⟨_, _, (List.dropLast_append_getLast h.fifo_ne).symm⟩
      obtain ⟨s, rest, hswap⟩ := List.exists_cons_of_ne_nil hfree
      have hv : resident (c.mm.pgd v) = true := (h.fifo.mem_iff v).mp (by simp [hfifo])
      obtain ⟨c', hrun⟩ := Pcb.pageFault_of_hasFrame hfifo hswap h.ramRandom h.swapRandom
        (h.hasFrame _ (mem_residentFrames hv)) (h.swapFrame s (by simp [hswap])) hsource
        (htarget v (by simp [hfifo]))
      refine ⟨c', Pcb.pgGetpage_of_fault hpresent hrun, ?_⟩
      cases Pcb.pageFault_cases hrun with
      | intro hfifo' hswap' hstorage =>
          refine ⟨h.fault hpresent hfifo' hswap', ?_⟩
          exact resident_faultPgd c.mm.pgd (pagingPgn addr) _ _

/-- Where the byte of a resident page is. -/
theorem translate_of_resident {addr : BitVec 32} (hlt : addr.toNat < 2 ^ 22)
    (hres : resident (c.mm.pgd (pagingPgn addr)) = true) :
    translate c.mm.pgd addr =
      some (pagingFpn (c.mm.pgd (pagingPgn addr)) * 256 + pagingOffst addr) :=
  translate_eq_some.mpr ⟨hlt, hres, rfl⟩

/-- Reading. -/
theorem pgGetval (h : Demand hist c) {addr : BitVec 32} (hok : AccessOk c addr) :
    ∃ data c', c.pgGetval addr = .ok (0, some data, c') ∧ Demand hist c' ∧
      ∀ v, hist addr = some v → data = v := by
  obtain ⟨c', hpage, h', hres⟩ := h.pgGetpage hok
  refine ⟨_, c', Pcb.pgGetval_of_getpage hpage h'.ramRandom (h'.hasFrame _ (mem_residentFrames hres)),
    h', fun v hv => h'.agrees addr _ v (translate_of_resident hok.lt hres) hv⟩

/-- Writing. -/
theorem pgSetval (h : Demand hist c) {addr : BitVec 32} (hok : AccessOk c addr) (value : Byte) :
    ∃ c', c.pgSetval addr value = .ok (0, c') ∧
      Demand (Function.update hist addr (some value)) c' := by
  obtain ⟨c', hpage, h', hres⟩ := h.pgGetpage hok
  refine ⟨_, Pcb.pgSetval_of_getpage hpage h'.ramRandom (h'.hasFrame _ (mem_residentFrames hres))
    value, ?_⟩
  constructor
  · exact ⟨h'.ramRandom, h'.swapRandom, h'.fifo, h'.fifo_ne, h'.frames, h'.hasFrame, h'.swapFrame⟩
  · exact h'.agrees.write (translate_injective h'.frames) (translate_of_resident hok.lt hres) value
  · intro a w hw
    rcases eq_or_ne a addr with rfl | hne
    · exact present_of_resident hres
    · rw [Function.update_of_ne hne] at hw
      exact h'.written a w hw

/-- An admissible access goes through and keeps the invariant. -/
theorem exec {ops : List MemOp} (h : Demand (Translation.latest MemOp.writes ops) c) {op : MemOp}
    (hop : DemandOp c op) :
    ∃ c', op.exec c = .ok c' ∧ Demand (Translation.latest MemOp.writes (ops ++ [op])) c' := by
  cases op with
  | setval addr value =>
      obtain ⟨c', hrun, h'⟩ := h.pgSetval hop value
      rw [Translation.latest_snoc_write ops rfl]
      exact ⟨c', (MemOp.Call.setval hrun).exec, h'⟩
  | getval addr =>
      obtain ⟨data, c', hrun, h', -⟩ := h.pgGetval hop
      rw [Translation.latest_snoc_other ops rfl]
      exact ⟨c', (MemOp.Call.getval hrun).exec, h'⟩
  | alloc | free | read | write | memmap => exact hop.elim

end Demand

/-! ## Runs -/

/-- **Demand paging is transparent** in every run that does not come back to an evicted page: the
next such access goes through, and a read returns the byte of the latest write. -/
theorem demand_paging {c₀ c : Pcb} {ops : List MemOp} (hready : Ready c₀)
    (hrun : Steps (Steps.Meeting DemandOp MemOp.Step) c₀ ops c) :
    (∀ op, DemandOp c op → ∃ c', MemOp.Step c op c') ∧
    ∀ addr v, AccessOk c addr → Translation.latest MemOp.writes ops addr = some v →
      ∃ c', c.pgGetval addr = .ok (0, some v, c') := by
  have h : Demand (Translation.latest MemOp.writes ops) c :=
    hrun.invariant (motive := fun ops c => Demand (Translation.latest MemOp.writes ops) c)
      hready.demand fun ops c op c' h ⟨hop, hstep⟩ => by
        obtain ⟨c₁, hexec, h₁⟩ := h.exec hop
        cases hstep.symm.trans hexec
        exact h₁
  refine ⟨fun op hop => ?_, fun addr v hok hv => ?_⟩
  · obtain ⟨c', hexec, -⟩ := h.exec hop
    exact ⟨c', hexec⟩
  · obtain ⟨data, c', hget, -, hdata⟩ := h.pgGetval hok
    obtain rfl := hdata v hv
    exact ⟨c', hget⟩

/-- A process with page 0 in the only frame of RAM. -/
def onePage : Pcb where
  mm := freshMm.mapPage (pagingPgn 0) 0
  mram := { oneFrame with freeFpList := [] }
  activeMswp := fourFrames

theorem onePage_frames : residentFrames onePage.mm.pgd = {0} := by
  have hnone : residentFrames freshMm.pgd = 0 :=
    Finset.sum_eq_zero fun _ _ => frameOf_of_not_resident resident_zero
  have hone := residentFrames_update freshMm.pgd (pagingPgn 0) (pteSetFpn 0 0)
  rw [hnone, zero_add, frameOf_pteSetFpn _ (by decide)] at hone
  exact (add_zero _).symm.trans hone

theorem fifoExact_freshMm : FifoExact freshMm.pgd freshMm.fifoPgn where
  nodup := List.nodup_nil
  mem_iff p := by
    show p ∈ [] ↔ resident 0 = true
    rw [resident_zero]
    simp

theorem ready_onePage : Ready onePage where
  ramRandom := rfl
  swapRandom := rfl
  fifo := fifoExact_freshMm.map_page resident_zero 0 0
  fifo_ne := List.cons_ne_nil _ _
  frames := onePage_frames ▸ Multiset.nodup_singleton 0
  hasFrame := fun f hf => by
    rw [onePage_frames, Multiset.mem_singleton] at hf
    subst hf
    decide
  swapFrame := by decide

/-- A second page takes the only frame, and reads its own byte. -/
theorem demand_paging_one_fault :
    ∃ c, Steps (Steps.Meeting DemandOp MemOp.Step) onePage [.setval 5 7, .getval 5, .setval 256 9] c ∧
      ∃ c', c.pgGetval 256 = .ok (0, some 9, c') := by
  have hcheck : (Steps.exec (Steps.checked DemandOp MemOp.tryStep) onePage
      [.setval 5 7, .getval 5, .setval 256 9]).any (fun c => decide (AccessOk c 256)) = true := by
    decide +kernel
  obtain ⟨c, hc, hok⟩ := (Option.any_eq_true _ _).mp hcheck
  have hrun := MemOp.steps_of_exec_checked hc
  obtain ⟨-, hread⟩ := demand_paging ready_onePage hrun
  exact ⟨c, hrun, hread 256 9 (of_decide_eq_true hok) rfl⟩

/-- The byte 7 of page 0 goes to swap; the read that should bring it back finds the byte 9 of
page 1. -/
theorem evicted_page_lost :
    ∃ c c', Ready onePage ∧ Steps MemOp.Step onePage [.setval 0 7, .setval 256 9] c ∧
      Translation.latest MemOp.writes [.setval 0 7, .setval 256 9] 0 = some 7 ∧
      c.pgGetval 0 = .ok (0, some 9, c') := by
  have hcheck : (Steps.exec MemOp.tryStep onePage [.setval 0 7, .setval 256 9]).any (fun c =>
      match c.pgGetval 0 with
      | .ok (r, data, _) => decide (r = 0 ∧ data = some 9)
      | .error _ => false) = true := by
    decide +kernel
  obtain ⟨c, hc, hread⟩ := (Option.any_eq_true _ _).mp hcheck
  split at hread
  · next r data c' hget =>
    obtain ⟨rfl, rfl⟩ := of_decide_eq_true hread
    exact ⟨c, c', ready_onePage, MemOp.steps_of_exec hc, rfl, hget⟩
  · cases hread

end Ossim.Mm
