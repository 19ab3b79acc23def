import Ossim.Mm.MemOp

/-!
# Page faults: what they move and how they fail (`pg_getpage`)

A fault is meant to exchange two pages: the oldest page `v` of the process leaves its RAM frame `f`
for the first free frame `s` of the swap device, and the missing page comes from its swap offset `o`
into frame `f`. But `SYSMEM_SWP_OP` copies in one direction only, from RAM to swap. So the second
call copies RAM frame `o` over swap frame `f`, and the missing page finds what the victim left in its
frame. `faultSwap` is the swap device after the two copies; `pages_exchanged_iff` says on which
contents the exchange takes place all the same.

The return codes of `find_victim_page` and `MEMPHY_get_freefp` are dropped. Without a victim or
without a free swap frame the branch goes on with a variable nobody assigned, so there is no failure
to report: `missing_resource_not_reported`.
-/

namespace Ossim.Mm

namespace Pcb

/-! ## The exchange of two pages -/

/-- The state in which a page fault finds everything it needs: page `pgn` is missing, the oldest page
`v` is in RAM, `s` is the first free swap frame, and the frames that the exchange is about lie in
their devices. Both devices are random access, as `main` creates them. -/
structure FaultReady (c : Pcb) (pgn v : Pgn) (s : Nat) : Prop where
  absent : pagingPagePresent (c.mm.pgd pgn) = false
  oldest : c.mm.fifoPgn.getLast? = some v
  victim : resident (c.mm.pgd v) = true
  firstFree : c.activeMswp.freeFpList.head? = some s
  fresh : s ≠ pagingPteSwp (c.mm.pgd pgn)
  ramRandom : c.mram.rdmflg = true
  swapRandom : c.activeMswp.rdmflg = true
  victimFrame : c.mram.HasFrame (pagingFpn (c.mm.pgd v))
  freeFrame : c.activeMswp.HasFrame s
  targetFrame : c.activeMswp.HasFrame (pagingPteSwp (c.mm.pgd pgn))

/-- What a page fault is for: `v` is in swap frame `s`, `pgn` in the RAM frame of `v`, and nothing
else has moved. -/
structure PagesExchanged (c : Pcb) (pgn v : Pgn) (s fpn : Nat) (c' : Pcb) : Prop where
  returned : fpn = pagingFpn (c.mm.pgd v)
  movedOut : ∀ k < 256, c'.activeMswp.cell s k = c.mram.cell (pagingFpn (c.mm.pgd v)) k
  movedIn : ∀ k < 256, c'.mram.cell (pagingFpn (c.mm.pgd v)) k =
    c.activeMswp.cell (pagingPteSwp (c.mm.pgd pgn)) k
  otherRam : ∀ h ≠ pagingFpn (c.mm.pgd v), ∀ k < 256, c'.mram.cell h k = c.mram.cell h k
  otherSwap : ∀ h ≠ s, ∀ k < 256, c'.activeMswp.cell h k = c.activeMswp.cell h k
  otherPtes : ∀ p, p ≠ v → p ≠ pgn → c'.mm.pgd p = c.mm.pgd p

/-- The swap device after the two copies of a page fault, with `f` the frame of the victim and `o`
the swap offset of the missing page. -/
def faultSwap (c : Pcb) (f s o : Nat) : Memphy :=
  Memphy.copied c.mram o (Memphy.copied c.mram f c.activeMswp s 0 256) f 0 256

/-- The second copy leaves RAM frame `o` in swap frame `f`. -/
theorem faultSwap_cell_frame (c : Pcb) (f s o : Nat) {k : Nat} (hk : k < 256) :
    (c.faultSwap f s o).cell f k = c.mram.cell o k :=
  Memphy.copied_cell_self (Nat.zero_le k) hk hk

/-- Unless that is the frame of the victim's copy, the copy stays. -/
theorem faultSwap_cell_free (c : Pcb) {f s o k : Nat} (hne : s ≠ f) (hk : k < 256) :
    (c.faultSwap f s o).cell s k = c.mram.cell f k := by
  unfold faultSwap
  rw [Memphy.copied_cell_of_ne hne hk]
  exact Memphy.copied_cell_self (Nat.zero_le k) hk hk

theorem faultSwap_cell_other (c : Pcb) {f s o h k : Nat} (hf : h ≠ f) (hs : h ≠ s) (hk : k < 256) :
    (c.faultSwap f s o).cell h k = c.activeMswp.cell h k := by
  unfold faultSwap
  rw [Memphy.copied_cell_of_ne hf hk, Memphy.copied_cell_of_ne hs hk]

variable {c c' : Pcb} {pgn v : Pgn} {s fpn : Nat}

/-- A fault that goes through accesses RAM frame `o` and swap frame `f`. It leaves RAM as it is and
swap as `faultSwap` says. -/
theorem pageFault_moves (h : c.FaultReady pgn v s) (hfault : c.pageFault pgn = .ok c') :
    c.mram.HasFrame (pagingPteSwp (c.mm.pgd pgn)) ∧
      c.activeMswp.HasFrame (pagingFpn (c.mm.pgd v)) ∧ c'.mram = c.mram ∧
      ∀ g k, c'.activeMswp.cell g k =
        (c.faultSwap (pagingFpn (c.mm.pgd v)) s (pagingPteSwp (c.mm.pgd pgn))).cell g k := by
  obtain ⟨newer, hfifo⟩ := List.getLast?_eq_some_iff.mp h.oldest
  obtain ⟨rest, hfree⟩ := List.head?_eq_some_iff.mp h.firstFree
  have hvictim : c.mm.findVictimPage = (some v, { c.mm with fifoPgn := newer }) := by
    simp only [MmStruct.findVictimPage, hfifo, List.getLast?_concat, List.dropLast_concat]
  have hswpfp : c.activeMswp.getFreefp = (some s, { c.activeMswp with freeFpList := rest }) := by
    simp only [Memphy.getFreefp, hfree]
  unfold pageFault at hfault
  simp only [hvictim, hswpfp, assigned] at hfault
  obtain ⟨vicpgn, hvic, hbody⟩ := Exec.bind_eq_ok.mp hfault
  obtain rfl := Except.ok.inj hvic
  obtain ⟨swpfpn, hswp, hcopies⟩ := Exec.bind_eq_ok.mp hbody
  obtain rfl := Except.ok.inj hswp
  obtain ⟨⟨r, regs, c₁⟩, hfirst, hrest⟩ := Exec.bind_eq_ok.mp hcopies
  obtain ⟨⟨r', regs', c₂⟩, hsecond, hret⟩ := Exec.bind_eq_ok.mp hrest
  -- the victim's frame goes to swap frame `s`
  rw [sysMemmap_swp] at hfirst
  obtain ⟨copy₁, hcopy₁, hdone₁⟩ := Exec.bind_eq_ok.mp hfirst
  obtain ⟨-, -, rfl⟩ := (Memphy.swapCpPage_eq_ok h.ramRandom (by exact h.swapRandom)
    h.victimFrame.lt h.freeFrame.lt).mp hcopy₁
  cases hdone₁
  -- RAM frame `o` goes to swap frame `f`
  rw [sysMemmap_swp] at hsecond
  obtain ⟨copy₂, hcopy₂, hdone₂⟩ := Exec.bind_eq_ok.mp hsecond
  obtain ⟨hram, hswap, rfl⟩ := (Memphy.swapCpPage_eq_ok h.ramRandom (by exact h.swapRandom)
    h.targetFrame.lt h.victimFrame.lt).mp hcopy₂
  cases hdone₂
  cases hret
  exact ⟨hram, hswap, rfl, fun _ _ => rfl⟩

/-- A fault changes the entries of the victim and of the missing page only. -/
theorem pageFault_pgd_other (hfault : c.pageFault pgn = .ok c')
    (hv : c.mm.fifoPgn.getLast? = some v) {p : Pgn} (hpv : p ≠ v) (hp : p ≠ pgn) :
    c'.mm.pgd p = c.mm.pgd p := by
  cases pageFault_cases hfault with
  | @intro w newer t rest storage hfifo hswap hstorage =>
      rw [hfifo, List.getLast?_concat] at hv
      obtain rfl := Option.some.inj hv
      simp only [MmStruct.setPte]
      rw [Function.update_of_ne hp, Function.update_of_ne hpv]

/-- The frame number it hands out is the victim's. -/
theorem pageFault_pagingFpn (hfault : c.pageFault pgn = .ok c')
    (hv : c.mm.fifoPgn.getLast? = some v) :
    pagingFpn (c'.mm.pgd pgn) = pagingFpn (c.mm.pgd v) := by
  cases pageFault_cases hfault with
  | @intro w newer t rest storage hfifo hswap hstorage =>
      rw [hfifo, List.getLast?_concat] at hv
      obtain rfl := Option.some.inj hv
      simp only [MmStruct.setPte, Function.update_self]
      exact pagingFpn_pteSetFpn _ (pagingFpn_lt _)

theorem pageFault_of_pgGetpage {r : Int} (habsent : pagingPagePresent (c.mm.pgd pgn) = false)
    (h : c.pgGetpage pgn = .ok (r, fpn, c')) :
    c.pageFault pgn = .ok c' ∧ fpn = pagingFpn (c'.mm.pgd pgn) := by
  unfold pgGetpage at h
  simp only [habsent, Bool.false_eq_true, if_false] at h
  obtain ⟨c₁, hfault, hret⟩ := Exec.bind_eq_ok.mp h
  cases hret
  exact ⟨hfault, rfl⟩

/-- On what contents the two copies amount to an exchange: the RAM frame `f` of the victim already
has what swap frame `o` holds, and copying RAM frame `o` over swap frame `f` changes nothing there. -/
structure ExchangeFits (c : Pcb) (f s o : Nat) : Prop where
  ramFrame : c.mram.HasFrame o
  swapFrame : c.activeMswp.HasFrame f
  already : ∀ k < 256, c.mram.cell f k = c.activeMswp.cell o k
  harmless : ∀ k < 256, c.mram.cell o k = if f = s then c.mram.cell f k else c.activeMswp.cell f k

/-- On such contents the victim's copy is whole in swap frame `s`. -/
theorem ExchangeFits.faultSwap_cell_free {f o : Nat} (h : c.ExchangeFits f s o) {k : Nat}
    (hk : k < 256) : (c.faultSwap f s o).cell s k = c.mram.cell f k := by
  by_cases hfs : f = s
  · have hharmless := h.harmless k hk
    rw [if_pos hfs] at hharmless
    rw [← hharmless, ← hfs]
    exact faultSwap_cell_frame c f f o hk
  · exact Pcb.faultSwap_cell_free c (Ne.symm hfs) hk

/-- No other swap frame has changed. -/
theorem ExchangeFits.faultSwap_cell_other {f o : Nat} (h : c.ExchangeFits f s o) {g k : Nat}
    (hg : g ≠ s) (hk : k < 256) : (c.faultSwap f s o).cell g k = c.activeMswp.cell g k := by
  by_cases hgf : g = f
  · subst hgf
    have hharmless := h.harmless k hk
    rw [if_neg hg] at hharmless
    rw [faultSwap_cell_frame c g s o hk, hharmless]
  · exact Pcb.faultSwap_cell_other c hgf hg hk

/-- **A page fault with everything at hand exchanges the two pages exactly if their contents already
fit.** -/
theorem pages_exchanged_iff (h : c.FaultReady pgn v s) :
    (∃ fpn c', c.pgGetpage pgn = .ok (0, fpn, c') ∧ c.PagesExchanged pgn v s fpn c') ↔
      c.ExchangeFits (pagingFpn (c.mm.pgd v)) s (pagingPteSwp (c.mm.pgd pgn)) := by
  constructor
  · rintro ⟨fpn, c', hpage, hmoved⟩
    obtain ⟨hfault, -⟩ := pageFault_of_pgGetpage h.absent hpage
    obtain ⟨hram, hswap, hmram, hcell⟩ := pageFault_moves h hfault
    refine ⟨hram, hswap, ?_, ?_⟩
    · intro k hk
      rw [← hmoved.movedIn k hk, hmram]
    · intro k hk
      split
      · next hfs =>
        rw [← hmoved.movedOut k hk, hcell, ← hfs, faultSwap_cell_frame _ _ _ _ hk]
      · next hfs =>
        rw [← hmoved.otherSwap _ hfs k hk, hcell, faultSwap_cell_frame _ _ _ _ hk]
  · intro hfits
    obtain ⟨newer, hfifo⟩ := List.getLast?_eq_some_iff.mp h.oldest
    obtain ⟨rest, hfree⟩ := List.head?_eq_some_iff.mp h.firstFree
    obtain ⟨c', hfault⟩ := pageFault_of_hasFrame hfifo hfree h.ramRandom h.swapRandom h.victimFrame
      h.freeFrame hfits.ramFrame hfits.swapFrame
    obtain ⟨-, -, hmram, hcell⟩ := pageFault_moves h hfault
    refine ⟨_, c', pgGetpage_of_fault h.absent hfault, ?_⟩
    refine ⟨pageFault_pagingFpn hfault h.oldest, ?_, ?_, ?_, ?_, ?_⟩
    · intro k hk
      rw [hcell, hfits.faultSwap_cell_free hk]
    · intro k hk
      rw [hmram]
      exact hfits.already k hk
    · intro g _ k _
      rw [hmram]
    · intro g hg k hk
      rw [hcell, hfits.faultSwap_cell_other hg hk]
    · intro p hpv hp
      exact pageFault_pgd_other hfault h.oldest hpv hp

/-- Page 0 is in the only RAM frame with a byte 7 in it, and page 1 is missing. Swap frame 0 has
been handed out before. -/
def sevenInRam : Pcb where
  mm := freshMm.mapPage (pagingPgn 0) 0
  mram := { oneFrame.setByte 0 7 with freeFpList := [] }
  activeMswp := { fourFrames with freeFpList := [1, 2, 3] }

theorem faultReady_sevenInRam : sevenInRam.FaultReady (pagingPgn 256) (pagingPgn 0) 1 where
  absent := by decide
  oldest := rfl
  victim := by decide
  firstFree := rfl
  fresh := by decide
  ramRandom := rfl
  swapRandom := rfl
  victimFrame := by decide
  freeFrame := by decide
  targetFrame := by decide

theorem pages_exchanged_iff_sevenInRam :
    sevenInRam.FaultReady (pagingPgn 256) (pagingPgn 0) 1 ∧
      ((∃ fpn c', sevenInRam.pgGetpage (pagingPgn 256) = .ok (0, fpn, c') ∧
          sevenInRam.PagesExchanged (pagingPgn 256) (pagingPgn 0) 1 fpn c') ↔
        sevenInRam.ExchangeFits (pagingFpn (sevenInRam.mm.pgd (pagingPgn 0))) 1
          (pagingPteSwp (sevenInRam.mm.pgd (pagingPgn 256)))) :=
  ⟨faultReady_sevenInRam, pages_exchanged_iff faultReady_sevenInRam⟩

/-- Page 1 should come from swap frame 0, which is blank, and finds the byte 7 of page 0. -/
theorem victim_byte_left_in_frame :
    sevenInRam.FaultReady (pagingPgn 256) (pagingPgn 0) 1 ∧
      ¬ ∃ fpn c', sevenInRam.pgGetpage (pagingPgn 256) = .ok (0, fpn, c') ∧
        sevenInRam.PagesExchanged (pagingPgn 256) (pagingPgn 0) 1 fpn c' := by
  refine ⟨faultReady_sevenInRam, ?_⟩
  rintro ⟨fpn, c', hpage, hmoved⟩
  obtain ⟨hfault, -⟩ := pageFault_of_pgGetpage faultReady_sevenInRam.absent hpage
  obtain ⟨-, -, hmram, -⟩ := pageFault_moves faultReady_sevenInRam hfault
  have hbyte := hmoved.movedIn 0 (by decide)
  rw [hmram] at hbyte
  exact absurd hbyte (by decide)

/-! ## A fault without a victim or without a swap frame -/

/-- Address space, free frames and bytes are as before. -/
structure SameMemory (c c' : Pcb) : Prop where
  mm : c'.mm = c.mm
  ramFree : c'.mram.freeFpList = c.mram.freeFpList
  swapFree : c'.activeMswp.freeFpList = c.activeMswp.freeFpList
  ramBytes : c'.mram.storage = c.mram.storage
  swapBytes : c'.activeMswp.storage = c.activeMswp.storage

/-- What reporting a failed page fault would be: every layer over `pg_getpage` returns a failure, and
none has changed the memory. -/
structure FaultReported (c : Pcb) (pgn : Pgn) : Prop where
  getpage : ∃ r fpn c', c.pgGetpage pgn = .ok (r, fpn, c') ∧ r ≠ 0 ∧ c.SameMemory c'
  getval : ∀ addr, pagingPgn addr = pgn →
    ∃ data c', c.pgGetval addr = .ok (-1, data, c') ∧ c.SameMemory c'
  setval : ∀ addr value, pagingPgn addr = pgn →
    ∃ c', c.pgSetval addr value = .ok (-1, c') ∧ c.SameMemory c'
  read : ∀ vmaid rgid offset i area, symIndex rgid.toNat = .ok i →
    c.mm.getVmaByNum vmaid = .ok (some area) →
    pagingPgn (((c.mm.symrgtbl i).rgStart + offset.signExtend 64).setWidth 32) = pgn →
    ∃ r data c', c.read vmaid rgid offset = .ok (r, data, c') ∧ r ≠ 0 ∧ c.SameMemory c'
  write : ∀ vmaid rgid offset value i area, symIndex rgid.toNat = .ok i →
    c.mm.getVmaByNum vmaid = .ok (some area) →
    pagingPgn (((c.mm.symrgtbl i).rgStart + offset.signExtend 64).setWidth 32) = pgn →
    ∃ r c', c.write vmaid rgid offset value = .ok (r, c') ∧ r ≠ 0 ∧ c.SameMemory c'

/-- Whichever of the two is missing, the branch reads the variable that should name it. -/
theorem pageFault_eq_error (hmissing : c.mm.fifoPgn = [] ∨ c.activeMswp.freeFpList = []) :
    c.pageFault pgn = .error .uninitialized := by
  unfold pageFault
  cases hfifo : c.mm.fifoPgn.getLast? with
  | none =>
      simp only [MmStruct.findVictimPage, hfifo]
      rfl
  | some v =>
      have hne : c.mm.fifoPgn ≠ [] := by
        intro hnil
        rw [hnil] at hfifo
        cases hfifo
      have hfree := hmissing.resolve_left hne
      simp only [MmStruct.findVictimPage, hfifo, Memphy.getFreefp, hfree]
      rfl

/-- **A page fault without a victim or without a swap frame is never reported**: `pg_getpage` and
both accesses over it run into the unassigned variable instead. -/
theorem missing_resource_not_reported (habsent : pagingPagePresent (c.mm.pgd pgn) = false)
    (hmissing : c.mm.fifoPgn = [] ∨ c.activeMswp.freeFpList = []) :
    ¬ c.FaultReported pgn ∧ c.pgGetpage pgn = .error .uninitialized ∧
      ∀ addr, pagingPgn addr = pgn → c.pgGetval addr = .error .uninitialized ∧
        ∀ value, c.pgSetval addr value = .error .uninitialized := by
  have hpage : c.pgGetpage pgn = .error .uninitialized := by
    unfold pgGetpage
    simp only [habsent, pageFault_eq_error hmissing]
    rfl
  refine ⟨?_, hpage, ?_⟩
  · intro hreported
    obtain ⟨r, fpn, c', hok, -⟩ := hreported.getpage
    cases hok.symm.trans hpage
  · rintro addr rfl
    constructor
    · unfold pgGetval
      rw [hpage]
      rfl
    · intro value
      unfold pgSetval
      rw [hpage]
      rfl

/-- A process that has mapped nothing yet, at page 0. -/
theorem missing_resource_not_reported_fresh :
    pagingPagePresent ((⟨freshMm, oneFrame, fourFrames⟩ : Pcb).mm.pgd (pagingPgn 0)) = false ∧
      ¬ (⟨freshMm, oneFrame, fourFrames⟩ : Pcb).FaultReported (pagingPgn 0) :=
  ⟨by decide, (missing_resource_not_reported (by decide) (.inl rfl)).1⟩

/-- Page 0 is in RAM and could go, but the swap device is full. -/
theorem full_swap_not_reported :
    ¬ ({ sevenInRam with activeMswp := { fourFrames with freeFpList := [] } } : Pcb).FaultReported
      (pagingPgn 256) := by
  intro hreported
  obtain ⟨r, fpn, c', hpage, -⟩ := hreported.getpage
  obtain ⟨hfault, -⟩ := pageFault_of_pgGetpage (by decide) hpage
  cases hfault.symm.trans (pageFault_eq_error (.inr rfl))

end Pcb

end Ossim.Mm
