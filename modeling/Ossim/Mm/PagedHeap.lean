import Ossim.Mm.Translate

/-!
# The paged heap is a memory per process

Any number of processes allocate, free and access their heaps, one operation at a time, with enough
RAM for every growth and no access above the end of the heap. Then the resident pages of a process
are exactly the pages below the end of its heap, no two pages of the system share a frame, and no
access faults. So a byte that a process reads is the one it last wrote at this address.

The invariant `Paged` combines the frame accounting with the form of every heap and the agreement of
the bytes in RAM with the history.
-/

namespace Ossim.Mm

/-- The operations of a heap that does not run out of memory and is not accessed above its end. -/
def HeapOk (c : Pcb) : MemOp → Prop
  | .alloc size regIndex => AllocOk c size regIndex
  | .free _ => True
  | .setval addr _ | .getval addr => addr.toNat < c.mm.heapEnd
  | _ => False

instance (c : Pcb) : (op : MemOp) → Decidable (HeapOk c op)
  | .alloc size regIndex => inferInstanceAs (Decidable (AllocOk c size regIndex))
  | .free _ => .isTrue trivial
  | .setval addr _ | .getval addr => inferInstanceAs (Decidable (addr.toNat < c.mm.heapEnd))
  | .read _ _ | .write _ _ _ | .memmap _ => .isFalse id

/-! ## One process -/

/-- A heap in good form, whose resident pages are the pages below its end, and where every page that
is present is resident. -/
structure PagedArea (mm : MmStruct) (area : VmArea) : Prop extends HeapArea mm area where
  resident_iff : ∀ p : Pgn, resident (mm.pgd p) = true ↔ 256 * (p : Nat) < area.vmEnd.toNat
  resident_of_present : ∀ p, pagingPagePresent (mm.pgd p) = true → resident (mm.pgd p) = true

/-- The page of an address below the end is resident. -/
theorem PagedArea.resident_of_lt {mm : MmStruct} {area : VmArea} (h : PagedArea mm area)
    {addr : BitVec 32} (haddr : addr.toNat < area.vmEnd.toNat) :
    addr.toNat < 2 ^ 22 ∧ resident (mm.pgd (pagingPgn addr)) = true := by
  have hend := h.end_le
  have hlt : addr.toNat < 2 ^ 22 := by omega
  refine ⟨hlt, (h.resident_iff _).mpr ?_⟩
  rw [pagingPgn_val hlt]
  omega

/-- A heap in good form grows over new pages only. -/
theorem PagedArea.mapsNewPages {c : Pcb} {area : VmArea} (h : PagedArea c.mm area)
    {size regIndex : BitVec 32} (hok : AllocOk c size regIndex) :
    MapsNewPages c (.alloc size regIndex) := by
  obtain ⟨hpos, -, -, henough⟩ := hok
  intro k vma hvma hnone p hlo hhi
  rw [h.single.getVmaByNum] at hvma
  cases hvma
  obtain ⟨-, hspace⟩ := henough area h.mem_mmap hnone
  have hpages : 1 ≤ pagesOf size := by
    unfold pagesOf
    omega
  rw [h.single.pagingPgn_vmEnd (by omega)] at hlo
  have haligned := h.aligned
  have hnot : ¬ (256 * (p : Nat) < area.vmEnd.toNat) := by omega
  rw [← h.resident_iff] at hnot
  simpa using hnot

theorem PagedArea.allocStep {c c' : Pcb} {area : VmArea} (h : PagedArea c.mm area)
    {size : BitVec 32} {i : Rgid} (hstep : AllocStep c area size i c') :
    ∃ area', PagedArea c'.mm area' := by
  cases hstep with
  | carved =>
      exact ⟨_, h.relisted rfl (by simp), h.resident_iff, h.resident_of_present⟩
  | @extended taken rest pgd' fifo' newEnd hnone hend hspace hfree hlen hmapped =>
      have haligned := h.aligned
      -- A page keeps its entry or is one of the new pages.
      have hcases : ∀ p : Pgn,
          (pgd' p = c.mm.pgd p ∧ ((p : Nat) < area.vmEnd.toNat / 256 ∨
            area.vmEnd.toNat / 256 + pagesOf size ≤ p)) ∨
          (resident (pgd' p) = true ∧ area.vmEnd.toNat / 256 ≤ p ∧
            (p : Nat) < area.vmEnd.toNat / 256 + pagesOf size) := by
        intro p
        by_cases hin : area.vmEnd.toNat / 256 ≤ p ∧ (p : Nat) < area.vmEnd.toNat / 256 + pagesOf size
        · exact .inr ⟨hmapped.resident_inside p hin.1 (by simpa [hlen] using hin.2), hin⟩
        · have hout : (p : Nat) < area.vmEnd.toNat / 256 ∨
              area.vmEnd.toNat / 256 + pagesOf size ≤ p := by omega
          exact .inl ⟨hmapped.pgd_outside p (by simpa [hlen] using hout), hout⟩
      refine ⟨_, h.endsAt rfl (by omega) hspace (by simp [h.freerg_ne]), fun p => ?_,
        fun p hp => ?_⟩
      · rcases hcases p with ⟨hsame, hout⟩ | ⟨hres, hlo, hhi⟩
        · simp only [hsame, h.resident_iff]
          omega
        · simp only [hres, true_iff]
          omega
      · rcases hcases p with ⟨hsame, -⟩ | ⟨hres, -⟩
        · simp only [hsame] at hp ⊢
          exact h.resident_of_present p hp
        · exact hres

theorem PagedArea.freeStep {c c' : Pcb} {area : VmArea} (h : PagedArea c.mm area)
    (hstep : FreeStep c area c') : ∃ area', PagedArea c'.mm area' := by
  cases hstep with
  | refused => exact ⟨area, h⟩
  | merged hlt =>
      exact ⟨_, h.relisted rfl (by simp), h.resident_iff, h.resident_of_present⟩

theorem FreeStep.samePages {c c' : Pcb} {area : VmArea} (h : FreeStep c area c') :
    Pcb.SamePages c c' := by
  cases h with
  | refused => exact .refl c
  | merged hlt => exact ⟨rfl, rfl, rfl, rfl⟩

/-! ## What an operation does -/

/-- The effect of an operation on a heap in good form, as far as pages and bytes are concerned. -/
inductive HeapStep (c : Pcb) : MemOp → Pcb → Prop
  | alloc {size regIndex : BitVec 32} {area : VmArea} {i : Rgid} {c' : Pcb}
      (hmmap : c.mm.mmap = [area]) (hstep : AllocStep c area size i c') :
      HeapStep c (.alloc size regIndex) c'
  | free {regIndex : BitVec 32} {c' : Pcb} (hpages : Pcb.SamePages c c') :
      HeapStep c (.free regIndex) c'
  | setval {addr : BitVec 32} {value : Byte} {l : Nat} (hl : translate c.mm.pgd addr = some l) :
      HeapStep c (.setval addr value) { c with mram := c.mram.setByte l value }
  | getval {addr : BitVec 32} : HeapStep c (.getval addr) c

/-- A page below the end of the heap is fetched without a fault. -/
theorem PagedArea.pgGetpage {c : Pcb} {area : VmArea} (h : PagedArea c.mm area) {addr : BitVec 32}
    (haddr : addr.toNat < area.vmEnd.toNat) :
    c.pgGetpage (pagingPgn addr) = .ok (0, pagingFpn (c.mm.pgd (pagingPgn addr)), c) :=
  Pcb.pgGetpage_of_present (present_of_resident (h.resident_of_lt haddr).2)

/-- **An admissible operation goes through**, and this is what it does. -/
theorem exec_of_heapOk {c : Pcb} {area : VmArea} (h : PagedArea c.mm area)
    (hrdm : c.mram.rdmflg = true)
    (hframes : ∀ p, resident (c.mm.pgd p) = true → c.mram.HasFrame (pagingFpn (c.mm.pgd p)))
    {op : MemOp} (hop : HeapOk c op) :
    ∃ c', op.exec c = .ok c' ∧ HeapStep c op c' ∧ ∃ area', PagedArea c'.mm area' := by
  cases op with
  | alloc size regIndex =>
      obtain ⟨hpos, hsz, hrg, henough⟩ := hop
      obtain ⟨c', hrun, hstep⟩ := liballoc_of_heapArea h.toHeapArea hpos hsz hrg
        (henough area h.mem_mmap)
      exact ⟨c', (MemOp.Call.alloc hrun).exec, .alloc h.mmap_eq hstep, h.allocStep hstep⟩
  | free regIndex =>
      obtain ⟨r, c', hrun, hstep⟩ := libfree_of_heapArea h.toHeapArea regIndex
      exact ⟨c', (MemOp.Call.free hrun).exec, .free hstep.samePages, h.freeStep hstep⟩
  | setval addr value =>
      have haddr : addr.toNat < area.vmEnd.toNat := by
        rw [← h.heapEnd_eq]
        exact hop
      obtain ⟨hlt, hres⟩ := h.resident_of_lt haddr
      have hrun := Pcb.pgSetval_of_getpage (h.pgGetpage haddr) hrdm (hframes _ hres) value
      exact ⟨_, (MemOp.Call.setval hrun).exec, .setval (translate_eq_some.mpr ⟨hlt, hres, rfl⟩),
        area, h⟩
  | getval addr =>
      have haddr : addr.toNat < area.vmEnd.toNat := by
        rw [← h.heapEnd_eq]
        exact hop
      obtain ⟨hlt, hres⟩ := h.resident_of_lt haddr
      have hrun := Pcb.pgGetval_of_getpage (h.pgGetpage haddr) hrdm (hframes _ hres)
      exact ⟨c, (MemOp.Call.getval hrun).exec, .getval, area, h⟩
  | read source offset => exact hop.elim
  | write data destination offset => exact hop.elim
  | memmap regs => exact hop.elim

/-- An operation does not move the pages that are resident. -/
theorem HeapStep.pgd_of_resident {c c' : Pcb} {op : MemOp} {area : VmArea}
    (harea : PagedArea c.mm area) (h : HeapStep c op c') {p : Pgn}
    (hp : resident (c.mm.pgd p) = true) : c'.mm.pgd p = c.mm.pgd p := by
  cases h with
  | alloc hmmap hstep =>
      cases hmmap.symm.trans harea.mmap_eq
      cases hstep with
      | carved => rfl
      | extended hnone hend hspace hfree hlen hmapped =>
          have haligned := harea.aligned
          have hbelow := (harea.resident_iff p).mp hp
          exact hmapped.pgd_outside p (.inl (by omega))
  | free hpages => rw [hpages.pgd]
  | setval hl => rfl
  | getval => rfl

/-! ## The system -/

section system

variable {ι : Type} [Fintype ι]

/-- What an operation of a process writes, at which address of which process. -/
def MemSystem.writes (a : ι × MemOp) : Option ((ι × BitVec 32) × Byte) :=
  a.2.writes.map fun w => ((a.1, w.1), w.2)

/-- The byte last written to each address of each process. -/
def MemSystem.latest [DecidableEq ι] (as : List (ι × MemOp)) : ι × BitVec 32 → Option Byte :=
  Translation.latest MemSystem.writes as

/-- The invariant: the frames are those of `F`, every heap is in good form, RAM is large enough for
its frames, and it agrees with the history, which speaks about translated addresses only. -/
structure Paged (F : Multiset Nat) (hist : ι × BitVec 32 → Option Byte) (s : MemSystem ι) :
    Prop where
  accounted : Accounted F s
  area : ∀ i, ∃ area, PagedArea (s.mm i) area
  rdmflg : s.mram.rdmflg = true
  hasFrame : ∀ f ∈ F, s.mram.HasFrame f
  agrees : Translation.Agrees s.translate s.mram.storage hist
  translated : ∀ x, s.translate x = none → hist x = none

/-- Every process starts with an empty heap and an empty page table; the free frames are distinct,
fit in an entry and lie in the random access device. -/
structure FreshSystem (s : MemSystem ι) : Prop where
  area : ∀ i, ∃ area, HeapArea (s.mm i) area ∧ area.vmEnd = 0
  absent : ∀ i p, pagingPagePresent ((s.mm i).pgd p) = false
  fifo_nil : ∀ i, (s.mm i).fifoPgn = []
  rdmflg : s.mram.rdmflg = true
  nodup : s.mram.freeFpList.Nodup
  free_lt : ∀ f ∈ s.mram.freeFpList, f < 2 ^ 13
  hasFrame : ∀ f ∈ s.mram.freeFpList, s.mram.HasFrame f

theorem FreshSystem.paged {s : MemSystem ι} (h : FreshSystem s) :
    Paged (↑s.mram.freeFpList) (fun _ => none) s where
  accounted := Unmapped.accounted ⟨rfl, h.absent, h.fifo_nil⟩
  area i := by
    obtain ⟨area, harea, hend⟩ := h.area i
    refine ⟨area, harea, fun p => ?_, fun p hp => ?_⟩
    · rw [not_resident_of_absent (h.absent i p), hend]
      simp
    · rw [h.absent i p] at hp
      cases hp
  rdmflg := h.rdmflg
  hasFrame := h.hasFrame
  agrees := Translation.agrees_none _ _
  translated _ _ := rfl

variable {F : Multiset Nat} {hist : ι × BitVec 32 → Option Byte} {s s' : MemSystem ι}

theorem Paged.exec (hs : Paged F hist s) {i : ι} {op : MemOp} (hop : HeapOk (s.pcb i) op) :
    ∃ c', op.exec (s.pcb i) = .ok c' ∧ HeapStep (s.pcb i) op c' ∧ ∃ area', PagedArea c'.mm area' := by
  obtain ⟨area, harea⟩ := hs.area i
  exact exec_of_heapOk harea hs.rdmflg (fun p hp => hs.hasFrame _
    (hs.accounted.frames_eq ▸ MemSystem.mem_frames_of_resident (i := i) hp)) hop

/-- Every admissible operation of a heap grows over new pages only. -/
theorem Paged.growsNew [DecidableEq ι] (hs : Paged F hist s) {a : ι × MemOp}
    (hop : HeapOk (s.pcb a.1) a.2) : GrowsNew s a := by
  obtain ⟨area, harea⟩ := hs.area a.1
  obtain ⟨i, op⟩ := a
  cases op with
  | alloc size regIndex => exact harea.mapsNewPages hop
  | memmap regs => exact hop.elim
  | free | setval | getval | read | write => trivial

/-- An operation does not move the addresses that have a place. -/
theorem Paged.translate_mono [DecidableEq ι] (hs : Paged F hist s) {i : ι} {op : MemOp} {c' : Pcb}
    (hstep : HeapStep (s.pcb i) op c') {x : ι × BitVec 32} {l : Nat} (hx : s.translate x = some l) :
    (s.withPcb i c').translate x = some l := by
  rw [translate_withPcb]
  split
  · next heq =>
    obtain ⟨area, harea⟩ := hs.area i
    obtain ⟨j, addr⟩ := x
    obtain rfl : j = i := heq
    have hres := (translate_eq_some.mp hx).2.1
    rw [translate_congr (hstep.pgd_of_resident harea hres)]
    exact hx
  · exact hx

/-- What the history speaks about keeps its place when the translation grows. -/
theorem Paged.agrees_mono (hs : Paged F hist s) {tr : ι × BitVec 32 → Option Nat}
    (hmono : ∀ x l, s.translate x = some l → tr x = some l) :
    Translation.Agrees tr s.mram.storage hist ∧ ∀ x, tr x = none → hist x = none := by
  refine ⟨hs.agrees.remap fun x l hx => ?_, fun x hx => ?_⟩
  · cases hold : s.translate x with
    | none => exact .inr (hs.translated x hold)
    | some k =>
        rw [hmono x k hold] at hx
        exact .inl hx
  · cases hold : s.translate x with
    | none => exact hs.translated x hold
    | some k =>
        rw [hmono x k hold] at hx
        cases hx

/-- Reading, allocating and freeing leave the bytes of RAM and its size alone. -/
theorem HeapStep.mram {c c' : Pcb} {op : MemOp} (h : HeapStep c op c') :
    (∃ free, c'.mram = { c.mram with freeFpList := free } ∧ op.writes = none) ∨
      ∃ addr value l, op = .setval addr value ∧ translate c.mm.pgd addr = some l ∧
        c'.mm.pgd = c.mm.pgd ∧ c'.mram = c.mram.setByte l value := by
  cases h with
  | alloc hmmap hstep =>
      cases hstep with
      | carved => exact .inl ⟨_, rfl, rfl⟩
      | extended => exact .inl ⟨_, rfl, rfl⟩
  | free hpages => exact .inl ⟨c.mram.freeFpList, by rw [hpages.mram], rfl⟩
  | setval hl => exact .inr ⟨_, _, _, rfl, hl, rfl, rfl⟩
  | getval => exact .inl ⟨_, rfl, rfl⟩

/-- **One operation keeps the invariant.** -/
theorem Paged.step [DecidableEq ι] (hF : F.Nodup) (hlt : ∀ f ∈ F, f < 2 ^ 13)
    {as : List (ι × MemOp)} {a : ι × MemOp} (hs : Paged F (MemSystem.latest as) s)
    (hop : HeapOk (s.pcb a.1) a.2) (h : MemSystem.Step s a s') :
    Paged F (MemSystem.latest (as ++ [a])) s' := by
  have haccounted := hs.accounted.step hlt (hs.growsNew hop) h
  obtain ⟨c', hexec, rfl⟩ := MemSystem.step_cases h
  obtain ⟨c₁, hexec₁, hstep, harea⟩ := hs.exec hop
  cases hexec.symm.trans hexec₁
  -- The other processes keep their heaps.
  have harea' : ∀ i, ∃ area, PagedArea ((s.withPcb a.1 c').mm i) area := by
    intro i
    rcases eq_or_ne i a.1 with rfl | hne
    · rw [MemSystem.withPcb_mm_self]
      exact harea
    · rw [MemSystem.withPcb_mm_of_ne _ hne]
      exact hs.area i
  obtain ⟨hagrees, htranslated⟩ := hs.agrees_mono fun x l => hs.translate_mono hstep (x := x) (l := l)
  rcases hstep.mram with ⟨free, hmram, hwrites⟩ | ⟨addr, value, l, hop', hl, hpgd, hmram⟩
  · -- Nothing is written, and nothing that was written moves.
    have hhist : MemSystem.latest (as ++ [a]) = MemSystem.latest as :=
      Translation.latest_snoc_other as (by simp [MemSystem.writes, hwrites])
    rw [hhist]
    refine ⟨haccounted, harea', ?_, ?_, ?_, htranslated⟩
    · rw [MemSystem.withPcb_mram, hmram]
      exact hs.rdmflg
    · rw [MemSystem.withPcb_mram, hmram]
      exact hs.hasFrame
    · rw [MemSystem.withPcb_mram, hmram]
      exact hagrees
  · -- One address is written, at its place.
    have hhist : MemSystem.latest (as ++ [a]) =
        Function.update (MemSystem.latest as) (a.1, addr) (some value) :=
      Translation.latest_snoc_write as (by simp [MemSystem.writes, hop', MemOp.writes])
    have hplace : (s.withPcb a.1 c').translate (a.1, addr) = some l :=
      hs.translate_mono hstep (x := (a.1, addr)) hl
    rw [hhist]
    refine ⟨haccounted, harea', ?_, ?_, ?_, fun x hx => ?_⟩
    · rw [MemSystem.withPcb_mram, hmram]
      exact hs.rdmflg
    · rw [MemSystem.withPcb_mram, hmram]
      exact hs.hasFrame
    · rw [MemSystem.withPcb_mram, hmram]
      exact hagrees.write (haccounted.translate_injective hF) hplace value
    · have hne : x ≠ (a.1, addr) := by
        rintro rfl
        rw [hplace] at hx
        cases hx
      rw [Function.update_of_ne hne]
      exact htranslated x hx

/-- **The paged heap is a memory per process.** In every state reached by any number of processes
from empty heaps: the pages below the ends of the heaps map to distinct frames, which are not free;
the next admissible operation goes through; and at an address below the end of its heap a process
finds its page present and reads the byte it last wrote there. -/
theorem paged_heap [DecidableEq ι] {s₀ s : MemSystem ι} {as : List (ι × MemOp)}
    (hfresh : FreshSystem s₀)
    (hrun : Steps (Steps.Meeting (fun s a => HeapOk (s.pcb a.1) a.2) MemSystem.Step) s₀ as s) :
    (∀ i j (p q : Pgn), 256 * (p : Nat) < (s.mm i).heapEnd → 256 * (q : Nat) < (s.mm j).heapEnd →
      pagingFpn ((s.mm i).pgd p) = pagingFpn ((s.mm j).pgd q) → i = j ∧ p = q) ∧
    (∀ i (p : Pgn), 256 * (p : Nat) < (s.mm i).heapEnd →
      pagingFpn ((s.mm i).pgd p) ∉ s.mram.freeFpList) ∧
    (∀ i op, HeapOk (s.pcb i) op → ∃ s', MemSystem.Step s (i, op) s') ∧
    (∀ i (addr : BitVec 32), addr.toNat < (s.mm i).heapEnd →
      pagingPagePresent ((s.mm i).pgd (pagingPgn addr)) = true ∧
      ∀ v, MemSystem.latest as (i, addr) = some v →
        (s.pcb i).pgGetval addr = .ok (0, some v, s.pcb i)) := by
  have hF : (↑s₀.mram.freeFpList : Multiset Nat).Nodup := hfresh.nodup
  have hs : Paged (↑s₀.mram.freeFpList) (MemSystem.latest as) s :=
    hrun.invariant (motive := fun as s => Paged (↑s₀.mram.freeFpList) (MemSystem.latest as) s)
      hfresh.paged fun _ _ _ _ hs h => hs.step hF hfresh.free_lt h.1 h.2
  have hres : ∀ i (p : Pgn), 256 * (p : Nat) < (s.mm i).heapEnd →
      resident ((s.mm i).pgd p) = true := fun i p hp => by
    obtain ⟨area, harea⟩ := hs.area i
    rw [harea.heapEnd_eq] at hp
    exact (harea.resident_iff p).mpr hp
  refine ⟨fun i j p q hp hq heq => hs.accounted.page_unique hF (hres i p hp) (hres j q hq) heq,
    fun i p hp => hs.accounted.not_free hF (hres i p hp), fun i op hop => ?_,
    fun i addr haddr => ?_⟩
  · obtain ⟨c', hexec, -, -⟩ := hs.exec hop
    exact ⟨_, MemSystem.step_of_exec hexec⟩
  · obtain ⟨area, harea⟩ := hs.area i
    rw [harea.heapEnd_eq] at haddr
    obtain ⟨hlt, hpage⟩ := harea.resident_of_lt haddr
    have hframe := hs.hasFrame _
      (hs.accounted.frames_eq ▸ MemSystem.mem_frames_of_resident (i := i) hpage)
    refine ⟨present_of_resident hpage, fun v hv => ?_⟩
    have hget := Pcb.pgGetval_of_getpage (c := s.pcb i) (harea.pgGetpage haddr) hs.rdmflg hframe
    have hbyte := hs.agrees (i, addr) _ v (translate_eq_some.mpr ⟨hlt, hpage, rfl⟩) hv
    rw [hget]
    exact congrArg (fun b => Except.ok (0, some b, s.pcb i)) hbyte

end system

/-- Two processes that share four frames. -/
def twoProcesses : MemSystem Bool where
  mm := fun _ => freshMm
  mram := fourFrames
  activeMswp := oneFrame

theorem fresh_twoProcesses : FreshSystem twoProcesses where
  area := fun _ => ⟨_, ⟨rfl, rfl, rfl, rfl, by decide, by decide, by decide⟩, rfl⟩
  absent := fun _ _ => pagingPagePresent_zero
  fifo_nil := fun _ => rfl
  rdmflg := rfl
  nodup := by decide
  free_lt := by decide
  hasFrame := by decide

/-- Both processes write to the same virtual address; each reads its own byte. -/
theorem paged_heap_two_processes :
    ∃ s, Steps (Steps.Meeting (fun s a => HeapOk (s.pcb a.1) a.2) MemSystem.Step) twoProcesses
        [(true, .alloc 300 0), (false, .alloc 100 0), (true, .setval 5 7), (false, .setval 5 9)] s ∧
      (s.pcb true).pgGetval 5 = .ok (0, some 7, s.pcb true) ∧
      (s.pcb false).pgGetval 5 = .ok (0, some 9, s.pcb false) := by
  have hcheck : (Steps.exec
      (Steps.checked (fun s a => HeapOk (s.pcb a.1) a.2) MemSystem.tryStep) twoProcesses
      [(true, .alloc 300 0), (false, .alloc 100 0), (true, .setval 5 7), (false, .setval 5 9)]).any
        (fun s => decide (∀ i, 5 < (s.mm i).heapEnd)) = true := by
    decide +kernel
  obtain ⟨s, hs, hend⟩ := (Option.any_eq_true _ _).mp hcheck
  have hrun := MemSystem.steps_of_exec_checked hs
  have hend' := of_decide_eq_true hend
  obtain ⟨-, -, -, hread⟩ := paged_heap fresh_twoProcesses hrun
  exact ⟨s, hrun, (hread true 5 (hend' true)).2 7 rfl, (hread false 5 (hend' false)).2 9 rfl⟩

end Ossim.Mm
