import Ossim.Mm.Isolation
import Ossim.Mm.Regions

/-!
# What a write through a region changes

`__write` adds the offset to the start of the region and writes there. It looks neither at the end
of the region nor whether anybody has freed it, so a write past the end, or through a region that is
free, changes whatever is at this address. What holds is about addresses: among the bytes in RAM the
write changes the one at its own address and no other. A process that stays within its regions, which
are disjoint, therefore changes the byte it means and no other.

The bytes of evicted pages are left out. Their entries are mistaken for frame numbers, for reading
and for writing.
-/

namespace Ossim.Mm

/-! ## What no operation changes -/

/-- The numbers of the areas. -/
def MmStruct.vmIds (mm : MmStruct) : List (BitVec 64) := mm.mmap.map (·.vmId)

namespace MmStruct

theorem seekVma_getElem {vmaid : BitVec 32} {k k' : Nat} {l : List VmArea} {area : VmArea}
    (h : seekVma vmaid k l = .ok (some (k', area))) : ∃ j, k' = k + j ∧ l[j]? = some area := by
  induction l generalizing k with
  | nil => cases h
  | cons pvma rest ih =>
      simp only [seekVma] at h
      split at h
      · obtain ⟨j, rfl, hj⟩ := ih h
        exact ⟨j + 1, by omega, hj⟩
      · cases h
        exact ⟨0, rfl, rfl⟩

/-- The area found is at the place found. -/
theorem getVmaByNum_getElem {mm : MmStruct} {vmaid : BitVec 32} {k : Nat} {area : VmArea}
    (h : mm.getVmaByNum vmaid = .ok (some (k, area))) : mm.mmap[k]? = some area := by
  unfold getVmaByNum at h
  split at h
  · cases h
  · obtain ⟨j, rfl, hj⟩ := seekVma_getElem h
    rwa [Nat.zero_add]

theorem vmIds_setVma {mm : MmStruct} {k : Nat} {area area' : VmArea} (h : mm.mmap[k]? = some area)
    (hid : area'.vmId = area.vmId) : (mm.setVma k area').vmIds = mm.vmIds := by
  have hsame : (mm.mmap.map (·.vmId))[k]? = some area'.vmId := by
    rw [List.getElem?_map, h, hid]
    rfl
  obtain ⟨hlt, hget⟩ := List.getElem?_eq_some_iff.mp hsame
  unfold vmIds setVma
  rw [List.map_set, ← hget, List.set_getElem_self]

/-- With the one area that `init_mm` makes, looking up area 0 goes through. -/
theorem getVmaByNum_of_vmIds {mm : MmStruct} (h : mm.vmIds = [0]) :
    ∃ area, mm.getVmaByNum 0 = .ok (some (0, area)) := by
  unfold vmIds at h
  obtain ⟨area, hmmap, hid⟩ := List.map_eq_singleton_iff.mp h
  refine ⟨area, ?_⟩
  unfold getVmaByNum
  rw [hmmap, if_neg (by simp), seekVma, hid, if_neg (by decide)]

end MmStruct

namespace Pcb

/-- The areas keep their numbers, and RAM its kind and its size. -/
structure SameKind (c c' : Pcb) : Prop where
  vmIds : c'.mm.vmIds = c.mm.vmIds
  rdmflg : c'.mram.rdmflg = c.mram.rdmflg
  maxsz : c'.mram.maxsz = c.mram.maxsz

theorem SameKind.refl (c : Pcb) : SameKind c c := ⟨rfl, rfl, rfl⟩

theorem SameKind.trans {c c₁ c₂ : Pcb} (h : SameKind c c₁) (h' : SameKind c₁ c₂) : SameKind c c₂ :=
  ⟨h'.vmIds.trans h.vmIds, h'.rdmflg.trans h.rdmflg, h'.maxsz.trans h.maxsz⟩

theorem IncStep.sameKind {c c' : Pcb} {vmaid incSz : BitVec 32} (h : IncStep c vmaid incSz c') :
    SameKind c c' := by
  cases h with
  | refused => exact .refl c
  | @grown k curVma newEnd taken rest pgd' fifo' hvma hend hfree hlen hmapped =>
      have hids : (c.mm.setVma k { curVma with vmEnd := newEnd, sbrk := newEnd }).vmIds =
          c.mm.vmIds := MmStruct.vmIds_setVma (MmStruct.getVmaByNum_getElem hvma) rfl
      exact ⟨hids, rfl, rfl⟩

/-- The same from the parts that an operation does not touch. -/
theorem SameKind.of_mmap {c c' : Pcb} (hmmap : c'.mm.mmap = c.mm.mmap) (hmram : c'.mram = c.mram) :
    SameKind c c' :=
  ⟨by unfold MmStruct.vmIds; rw [hmmap], by rw [hmram], by rw [hmram]⟩

theorem allocAtBrk_sameKind {c c' : Pcb} {vmaid rgid size : BitVec 32} {k : Nat} {curVma : VmArea}
    {r : Int} (h : c.allocAtBrk vmaid rgid size k curVma = .ok (r, c')) : SameKind c c' := by
  obtain ⟨i, rg, c₁, -, hgrow, hslack⟩ := allocAtBrk_split h
  have hentered : SameKind c { c with mm := c.mm.setSymrg i rg } := ⟨rfl, rfl, rfl⟩
  have hgrown : SameKind c c₁ := by
    rcases hgrow with rfl | hinc
    · exact hentered
    · exact hentered.trans hinc.sameKind
  rcases hslack with rfl | ⟨area, left, hfirst, rfl⟩
  · exact hgrown
  · exact hgrown.trans ⟨MmStruct.vmIds_setVma hfirst rfl, rfl, rfl⟩

theorem liballoc_sameKind {c c' : Pcb} {size regIndex : BitVec 32} {r : Int}
    (h : c.liballoc size regIndex = .ok (r, c')) : SameKind c c' := by
  obtain ⟨k, vma, hvma, ⟨-, hbrk⟩ | ⟨j, best, i, -, -, rfl⟩⟩ := alloc_cases (alloc_of_liballoc h)
  · exact allocAtBrk_sameKind hbrk
  · exact ⟨MmStruct.vmIds_setVma (MmStruct.getVmaByNum_getElem hvma) rfl, rfl, rfl⟩

theorem libfree_sameKind {c c' : Pcb} {regIndex : BitVec 32} {r : Int}
    (h : c.libfree regIndex = .ok (r, c')) : SameKind c c' := by
  rcases free_cases (free_of_libfree h) with rfl | ⟨i, k, vma, -, hvma, rfl⟩
  · exact .refl _
  · exact ⟨MmStruct.vmIds_setVma (MmStruct.getVmaByNum_getElem hvma) rfl, rfl, rfl⟩

theorem pgGetpage_sameKind {c c' : Pcb} {p : Pgn} {r : Int} {fpn : Nat}
    (h : c.pgGetpage p = .ok (r, fpn, c')) : SameKind c c' := by
  obtain ⟨-, -, ⟨-, rfl⟩ | ⟨-, hfault⟩⟩ := pgGetpage_cases h
  · exact .refl _
  · cases hfault with
    | intro hfifo hswap hstorage => exact .of_mmap rfl rfl

theorem pgSetval_sameKind {c c' : Pcb} {addr : BitVec 32} {value : Byte} {r : Int}
    (h : c.pgSetval addr value = .ok (r, c')) : SameKind c c' := by
  obtain ⟨fpn, c₁, hpage, rfl | rfl⟩ := pgSetval_cases h
  · exact pgGetpage_sameKind hpage
  · exact (pgGetpage_sameKind hpage).trans ⟨rfl, rfl, rfl⟩

theorem pgGetval_sameKind {c c' : Pcb} {addr : BitVec 32} {r : Int} {data : Option Byte}
    (h : c.pgGetval addr = .ok (r, data, c')) : SameKind c c' := by
  obtain ⟨fpn, hpage⟩ := pgGetval_cases h
  exact pgGetpage_sameKind hpage

theorem sysMemmap_sameKind {c c' : Pcb} {regs regs' : ScRegs} {r : Int}
    (h : c.sysMemmap regs = .ok (r, regs', c')) : SameKind c c' := by
  cases sysMemmap_cases h with
  | inc hop hinc => exact hinc.sameKind
  | swp | ioWrite => exact ⟨rfl, rfl, rfl⟩
  | same => exact .refl c

end Pcb

/-- **No operation adds an area, takes one away, or changes the kind of RAM.** -/
theorem MemOp.sameKind {c c' : Pcb} {op : MemOp} (h : op.exec c = .ok c') : Pcb.SameKind c c' := by
  cases exec_cases h with
  | alloc hcall => exact Pcb.liballoc_sameKind hcall
  | free hcall => exact Pcb.libfree_sameKind hcall
  | read hcall =>
      rcases Pcb.libread_cases hcall with rfl | ⟨i, r', data, -, hget⟩
      · exact .refl _
      · exact Pcb.pgGetval_sameKind hget
  | write hcall =>
      rcases Pcb.libwrite_cases hcall with rfl | ⟨i, r', -, hset⟩
      · exact .refl _
      · exact Pcb.pgSetval_sameKind hset
  | memmap hcall => exact Pcb.sysMemmap_sameKind hcall
  | setval hcall => exact Pcb.pgSetval_sameKind hcall
  | getval hcall => exact Pcb.pgGetval_sameKind hcall

/-! ## The bytes of a region -/

/-- The virtual address of an offset in a region. -/
def MmStruct.regionAddr (mm : MmStruct) (i : Rgid) (offset : BitVec 32) : BitVec 32 :=
  ((mm.symrgtbl i).rgStart + offset.signExtend 64).setWidth 32

/-- The offset lies in the region, at an address below the bus width. -/
def MmStruct.LiveByte (mm : MmStruct) (i : Rgid) (offset : BitVec 32) : Prop :=
  (mm.symrgtbl i).rgStart.toNat + offset.toNat < (mm.symrgtbl i).rgEnd.toNat ∧
    (mm.symrgtbl i).rgStart.toNat + offset.toNat < 2 ^ 22

instance (mm : MmStruct) (i : Rgid) (offset : BitVec 32) : Decidable (mm.LiveByte i offset) :=
  inferInstanceAs (Decidable (_ ∧ _))

/-- The page of an offset in a region is in RAM. -/
def MmStruct.InRam (mm : MmStruct) (i : Rgid) (offset : BitVec 32) : Prop :=
  resident (mm.pgd (pagingPgn (mm.regionAddr i offset))) = true

instance (mm : MmStruct) (i : Rgid) (offset : BitVec 32) : Decidable (mm.InRam i offset) :=
  inferInstanceAs (Decidable (_ = true))

/-- The virtual addresses of two offsets agree in the bits that the bus has. -/
def MmStruct.SameAddr (mm : MmStruct) (i j : Rgid) (offset offset' : BitVec 32) : Prop :=
  (mm.regionAddr i offset).toNat % 2 ^ 22 = (mm.regionAddr j offset').toNat % 2 ^ 22

/-- Reading an offset in a region returns `v`. -/
def Pcb.Reads (c : Pcb) (i : Rgid) (offset v : BitVec 32) : Prop :=
  c.libread (BitVec.ofNat 32 i) offset = .ok (0, some v, c)

/-- In 32 bits, it does not matter that the offset is taken for a signed one. -/
theorem MmStruct.toNat_regionAddr (mm : MmStruct) (i : Rgid) (offset : BitVec 32) :
    (mm.regionAddr i offset).toNat =
      ((mm.symrgtbl i).rgStart.toNat + offset.toNat) % 2 ^ 32 := by
  unfold regionAddr
  rw [BitVec.setWidth_add _ _ (by decide), setWidth_signExtend (by decide), BitVec.toNat_add,
    BitVec.toNat_setWidth, Nat.mod_add_mod]

theorem MmStruct.LiveByte.toNat_regionAddr {mm : MmStruct} {i : Rgid} {offset : BitVec 32}
    (h : mm.LiveByte i offset) : (mm.regionAddr i offset).toNat % 2 ^ 22 =
      (mm.symrgtbl i).rgStart.toNat + offset.toNat := by
  obtain ⟨-, hbus⟩ := h
  rw [mm.toNat_regionAddr]
  omega

/-- Disjoint regions have no address in common. -/
theorem MmStruct.LiveByte.eq_of_sameAddr {mm : MmStruct} {i j : Rgid} {offset offset' : BitVec 32}
    (hdisjoint : ∀ i j, i ≠ j → Disjoint (mm.symrgtbl i).range (mm.symrgtbl j).range)
    (h : mm.LiveByte i offset) (h' : mm.LiveByte j offset') (haddr : mm.SameAddr i j offset offset') :
    i = j ∧ offset = offset' := by
  unfold SameAddr at haddr
  rw [h.toNat_regionAddr, h'.toNat_regionAddr] at haddr
  have hij : i = j := by
    by_contra hne
    have hmem : (mm.symrgtbl i).rgStart.toNat + offset.toNat ∈ (mm.symrgtbl i).range :=
      ⟨Nat.le_add_right _ _, h.1⟩
    refine Set.disjoint_left.mp (hdisjoint i j hne) hmem ?_
    rw [haddr]
    exact ⟨Nat.le_add_right _ _, h'.1⟩
  subst hij
  exact ⟨rfl, BitVec.eq_of_toNat_eq (Nat.add_left_cancel haddr)⟩

/-- Two addresses on the same page with the same offset agree on the bus. -/
theorem mod_eq_of_parts {a b : BitVec 32} (hpgn : pagingPgn a = pagingPgn b)
    (hoffst : pagingOffst a = pagingOffst b) : a.toNat % 2 ^ 22 = b.toNat % 2 ^ 22 := by
  have hpgn' : (getval a pgnMask 8).toNat = (getval b pgnMask 8).toNat :=
    congrArg (fun p : Pgn => (p : Nat)) hpgn
  rw [getval_pgnMask, getval_pgnMask] at hpgn'
  rw [pagingOffst_eq, pagingOffst_eq] at hoffst
  omega

theorem getSymrgByid_rgid (i : Rgid) :
    MmStruct.getSymrgByid (BitVec.ofNat 32 i) = some (i : Nat) ∧
      symIndex (BitVec.ofNat 32 i).toNat = .ok i := by
  have hlt : (i : Nat) < 30 := i.isLt
  have hnat : (BitVec.ofNat 32 i).toNat = i := by
    rw [BitVec.toNat_ofNat]
    omega
  constructor
  · unfold MmStruct.getSymrgByid
    rw [if_neg, hnat]
    rw [BitVec.toInt_eq_toNat_of_lt (by omega), hnat]
    unfold pagingMaxSymtblSz
    omega
  · rw [hnat]
    exact dif_pos i.isLt

namespace Pcb

variable {c c' : Pcb} {x : Nat × VmArea}

/-- A read of a region is a read at its address. -/
theorem libread_of_pgGetval (hvma : c.mm.getVmaByNum 0 = .ok (some x)) {i : Rgid}
    {offset : BitVec 32} {data : Byte}
    (h : c.pgGetval (c.mm.regionAddr i offset) = .ok (0, some data, c')) :
    c.libread (BitVec.ofNat 32 i) offset = .ok (0, some (data.signExtend 32), c') := by
  obtain ⟨hbyid, hindex⟩ := getSymrgByid_rgid i
  have hnat : symIndex i = .ok i := dif_pos i.isLt
  unfold MmStruct.regionAddr at h
  unfold libread read
  simp only [hvma, hbyid, hnat, h, deref, assigned, bind, Except.bind, pure, Except.pure]
  simp

/-- A write to a region is a write at its address. -/
theorem libwrite_eq (hvma : c.mm.getVmaByNum 0 = .ok (some x)) (i : Rgid) (offset : BitVec 32)
    (data : Byte) : c.libwrite data (BitVec.ofNat 32 i) offset = (do
      let (_, c) ← c.pgSetval (c.mm.regionAddr i offset) data
      return (0, c)) := by
  obtain ⟨hbyid, hindex⟩ := getSymrgByid_rgid i
  have hnat : symIndex i = .ok i := dif_pos i.isLt
  unfold libwrite write MmStruct.regionAddr
  simp only [hvma, hbyid, hnat, deref, bind, Except.bind, pure, Except.pure]
  simp

/-- Fetching a page leaves the entries of the pages alone that stay in RAM. -/
theorem pgGetpage_kept {p : Pgn} {r : Int} {fpn : Nat} (h : c.pgGetpage p = .ok (r, fpn, c')) :
    c'.mm.symrgtbl = c.mm.symrgtbl ∧ ∀ q, resident (c.mm.pgd q) = true →
      resident (c'.mm.pgd q) = true → c'.mm.pgd q = c.mm.pgd q := by
  obtain ⟨-, -, ⟨-, rfl⟩ | ⟨habsent, hfault⟩⟩ := pgGetpage_cases h
  · exact ⟨rfl, fun _ _ _ => rfl⟩
  · cases hfault with
    | @intro v newer s rest storage hfifo hswap hstorage =>
        refine ⟨rfl, fun q hq hq' => ?_⟩
        have hp : q ≠ p := by
          rintro rfl
          rw [not_resident_of_absent habsent] at hq
          cases hq
        simp only [MmStruct.setPte, Function.update_of_ne hp] at hq' ⊢
        rcases eq_or_ne q v with rfl | hv
        · -- The victim is not in RAM any more.
          rw [Function.update_self, resident_pteSetSwap] at hq'
          cases hq'
        · exact Function.update_of_ne hv _ _

end Pcb

/-! ## Reachable states -/

section system

variable {ι : Type}

variable [Fintype ι]

/-- The frames are those of `F` and lie in a random access device, and every process has the one area
that `init_mm` makes. -/
structure Sound (F : Multiset Nat) (s : MemSystem ι) : Prop extends Accounted F s where
  rdmflg : s.mram.rdmflg = true
  hasFrame : ∀ f ∈ F, s.mram.HasFrame f
  vmIds : ∀ i, (s.mm i).vmIds = [0]

theorem FreshSystem.sound {s : MemSystem ι} (h : FreshSystem s) : Sound (↑s.mram.freeFpList) s where
  toAccounted := h.paged.accounted
  rdmflg := h.rdmflg
  hasFrame := h.hasFrame
  vmIds i := by
    obtain ⟨area, harea, -⟩ := h.area i
    unfold MmStruct.vmIds
    rw [harea.mmap_eq, List.map_singleton, harea.id_eq]

variable {F : Multiset Nat} {s s' : MemSystem ι} {i : ι} {j k : Rgid} {offset offset' : BitVec 32}

namespace Sound

theorem step [DecidableEq ι] (hF : ∀ f ∈ F, f < 2 ^ 13) {a : ι × MemOp} (hs : Sound F s)
    (hnew : GrowsNew s a) (h : MemSystem.Step s a s') : Sound F s' := by
  have haccounted := hs.toAccounted.step hF hnew h
  obtain ⟨c', hexec, rfl⟩ := MemSystem.step_cases h
  obtain ⟨hids, hrdm, hmax⟩ := MemOp.sameKind hexec
  refine ⟨haccounted, hrdm.trans hs.rdmflg, fun f hf => ?_, fun k => ?_⟩
  · have hframe := hs.hasFrame f hf
    unfold Memphy.HasFrame at hframe ⊢
    rw [MemSystem.withPcb_mram, hmax]
    exact hframe
  · rcases eq_or_ne k a.1 with rfl | hne
    · rw [MemSystem.withPcb_mm_self, hids]
      exact hs.vmIds _
    · rw [MemSystem.withPcb_mm_of_ne s hne]
      exact hs.vmIds k

theorem hasFrame_of_resident (hs : Sound F s) {p : Pgn} (hp : resident ((s.mm i).pgd p) = true) :
    s.mram.HasFrame (pagingFpn ((s.mm i).pgd p)) :=
  hs.hasFrame _ (hs.frames_eq ▸ MemSystem.mem_frames_of_resident hp)

/-- A byte in RAM reads what is at its place. -/
theorem reads_iff (hs : Sound F s) (hram : (s.mm i).InRam j offset) {v : BitVec 32} :
    (s.pcb i).Reads j offset v ↔
      v = (s.mram.storage
        (pagingFpn ((s.mm i).pgd (pagingPgn ((s.mm i).regionAddr j offset))) * 256 +
          pagingOffst ((s.mm i).regionAddr j offset))).signExtend 32 := by
  obtain ⟨area, hvma⟩ := MmStruct.getVmaByNum_of_vmIds (hs.vmIds i)
  have hget := Pcb.pgGetval_of_getpage (c := s.pcb i)
    (Pcb.pgGetpage_of_present (present_of_resident hram)) hs.rdmflg (hs.hasFrame_of_resident hram)
  have hread := Pcb.libread_of_pgGetval (c := s.pcb i) hvma hget
  unfold Pcb.Reads
  rw [hread]
  constructor
  · intro h
    cases h
    rfl
  · rintro rfl
    rfl

/-- A write to a byte in RAM goes through. -/
theorem libwrite_of_inRam (hs : Sound F s) (hram : (s.mm i).InRam j offset) (data : Byte) :
    ∃ c', (s.pcb i).libwrite data (BitVec.ofNat 32 j) offset = .ok (0, c') ∧ c'.mm = s.mm i := by
  obtain ⟨area, hvma⟩ := MmStruct.getVmaByNum_of_vmIds (hs.vmIds i)
  have hset := Pcb.pgSetval_of_getpage (c := s.pcb i)
    (Pcb.pgGetpage_of_present (present_of_resident hram)) hs.rdmflg (hs.hasFrame_of_resident hram)
    data
  refine ⟨_, (Pcb.libwrite_eq (c := s.pcb i) hvma j offset data).trans
    (Exec.bind_eq_ok.mpr ⟨_, hset, rfl⟩), rfl⟩

/-- **What a write changes**: it sets the byte at its place, and leaves the entries of the pages alone
that stay in RAM. -/
theorem libwrite_cases [DecidableEq ι] (hF : ∀ f ∈ F, f < 2 ^ 13) (hs : Sound F s) {data : Byte}
    {r : Int} {c' : Pcb} (h : (s.pcb i).libwrite data (BitVec.ofNat 32 j) offset = .ok (r, c'))
    (hpage : swappedOut ((s.mm i).pgd (pagingPgn ((s.mm i).regionAddr j offset))) = false) :
    Sound F (s.withPcb i c') ∧ c'.mm.symrgtbl = (s.mm i).symrgtbl ∧
      resident (c'.mm.pgd (pagingPgn ((s.mm i).regionAddr j offset))) = true ∧
      (∀ q, resident ((s.mm i).pgd q) = true → resident (c'.mm.pgd q) = true →
        c'.mm.pgd q = (s.mm i).pgd q) ∧
      c'.mram.storage = Function.update s.mram.storage
        (pagingFpn (c'.mm.pgd (pagingPgn ((s.mm i).regionAddr j offset))) * 256 +
          pagingOffst ((s.mm i).regionAddr j offset)) data := by
  have hs' : Sound F (s.withPcb i c') :=
    hs.step hF (a := (i, .write data (BitVec.ofNat 32 j) offset)) trivial
      (MemSystem.step_of_exec (MemOp.Call.write h).exec)
  obtain ⟨area, hvma⟩ := MmStruct.getVmaByNum_of_vmIds (hs.vmIds i)
  rw [Pcb.libwrite_eq (c := s.pcb i) hvma] at h
  obtain ⟨⟨r', c₂⟩, hset, hret⟩ := Exec.bind_eq_ok.mp h
  cases hret
  obtain ⟨fpn, c₁, hget, hcase⟩ := Pcb.pgSetval_cases hset
  obtain ⟨hmram, hfpn, hres⟩ := Pcb.pgGetpage_ram hget
  obtain ⟨hsym, hkept⟩ := Pcb.pgGetpage_kept hget
  have hres' := hres.resolve_left (by rw [show (s.pcb i).mm = s.mm i from rfl, hpage]; simp)
  -- Either way the frame exists, so the write was made.
  have hsame : c'.mm = c₁.mm ∧ c'.mram.maxsz = c₁.mram.maxsz := by
    rcases hcase with rfl | rfl
    · exact ⟨rfl, rfl⟩
    · exact ⟨rfl, rfl⟩
  have hframe : c₁.mram.HasFrame fpn := by
    have hframe' := hs'.hasFrame_of_resident (i := i)
      (p := pagingPgn ((s.mm i).regionAddr j offset))
      (by rw [MemSystem.withPcb_mm_self, hsame.1]; exact hres')
    rw [MemSystem.withPcb_mm_self, MemSystem.withPcb_mram, hsame.1] at hframe'
    unfold Memphy.HasFrame at hframe' ⊢
    rw [hfpn, ← hsame.2]
    exact hframe'
  have hdone := Pcb.pgSetval_of_getpage hget (by rw [hmram]; exact hs.rdmflg) hframe data
  cases hset.symm.trans hdone
  refine ⟨hs', hsym, hres', hkept, ?_⟩
  rw [Memphy.setByte_storage, hfpn, hmram]
  rfl

/-- The byte that was written reads the value. -/
theorem reads_written [DecidableEq ι] (hF : ∀ f ∈ F, f < 2 ^ 13) (hs : Sound F s) {data : Byte}
    {r : Int} {c' : Pcb} (h : (s.pcb i).libwrite data (BitVec.ofNat 32 j) offset = .ok (r, c'))
    (hpage : swappedOut ((s.mm i).pgd (pagingPgn ((s.mm i).regionAddr j offset))) = false) :
    c'.Reads j offset (data.signExtend 32) := by
  obtain ⟨hs', hsym, hres, -, hstorage⟩ := hs.libwrite_cases hF h hpage
  have haddr : c'.mm.regionAddr j offset = (s.mm i).regionAddr j offset := by
    unfold MmStruct.regionAddr
    rw [hsym]
  have hram : ((s.withPcb i c').mm i).InRam j offset := by
    unfold MmStruct.InRam
    rw [MemSystem.withPcb_mm_self, haddr]
    exact hres
  have hreads := (hs'.reads_iff (v := data.signExtend 32) hram).mpr
  rw [MemSystem.pcb_withPcb, MemSystem.withPcb_mm_self, MemSystem.withPcb_mram, haddr, hstorage,
    Function.update_self] at hreads
  exact hreads rfl

/-- Every other byte in RAM reads as before. -/
theorem reads_kept [DecidableEq ι] (hnodup : F.Nodup) (hF : ∀ f ∈ F, f < 2 ^ 13) (hs : Sound F s)
    {data : Byte} {r : Int} {c' : Pcb}
    (h : (s.pcb i).libwrite data (BitVec.ofNat 32 j) offset = .ok (r, c'))
    (hpage : swappedOut ((s.mm i).pgd (pagingPgn ((s.mm i).regionAddr j offset))) = false)
    {v : BitVec 32} (hram : (s.mm i).InRam k offset') (hram' : c'.mm.InRam k offset')
    (hreads : (s.pcb i).Reads k offset' v) :
    c'.Reads k offset' v ∨ (s.mm i).SameAddr k j offset' offset := by
  obtain ⟨hs', hsym, hres, hkept, hstorage⟩ := hs.libwrite_cases hF h hpage
  have haddr : c'.mm.regionAddr k offset' = (s.mm i).regionAddr k offset' := by
    unfold MmStruct.regionAddr
    rw [hsym]
  unfold MmStruct.InRam at hram hram'
  rw [haddr] at hram'
  have hentry := hkept _ hram hram'
  have hnowRam : ((s.withPcb i c').mm i).InRam k offset' := by
    unfold MmStruct.InRam
    rw [MemSystem.withPcb_mm_self, haddr]
    exact hram'
  have hnow := hs'.reads_iff (v := v) hnowRam
  rw [MemSystem.pcb_withPcb, MemSystem.withPcb_mm_self, MemSystem.withPcb_mram, haddr, hentry,
    hstorage] at hnow
  by_cases hplace : pagingFpn ((s.mm i).pgd (pagingPgn ((s.mm i).regionAddr k offset'))) * 256 +
      pagingOffst ((s.mm i).regionAddr k offset') =
    pagingFpn (c'.mm.pgd (pagingPgn ((s.mm i).regionAddr j offset))) * 256 +
      pagingOffst ((s.mm i).regionAddr j offset)
  · -- The same place: the same page, since no frame belongs to two of them.
    right
    have hlt := pagingOffst_lt ((s.mm i).regionAddr k offset')
    have hlt' := pagingOffst_lt ((s.mm i).regionAddr j offset)
    have hpages := hs'.page_unique hnodup (i := i) (j := i)
      (p := pagingPgn ((s.mm i).regionAddr k offset')) (q := pagingPgn ((s.mm i).regionAddr j offset))
      (by rw [MemSystem.withPcb_mm_self]; exact hram')
      (by rw [MemSystem.withPcb_mm_self]; exact hres)
      (by rw [MemSystem.withPcb_mm_self, hentry]; omega)
    exact mod_eq_of_parts hpages.2 (by omega)
  · left
    rw [hnow, Function.update_of_ne hplace]
    exact (hs.reads_iff hram).mp hreads

end Sound

/-- What holds in every state that is reached. -/
theorem sound_of_run [DecidableEq ι] {s₀ s : MemSystem ι} {as : List (ι × MemOp)}
    (hfresh : FreshSystem s₀) (hrun : Steps (Steps.Meeting GrowsNew MemSystem.Step) s₀ as s) :
    Sound (↑s₀.mram.freeFpList) s :=
  hrun.state_invariant hfresh.sound fun _ _ _ hs h => hs.step hfresh.free_lt h.1 h.2

/-- **Region protection**, as far as it goes. In every state reached by processes whose heaps grow
over new pages only, a write to a page in RAM goes through, wherever in or outside its region it is.
If the page of the write is not evicted, the bytes in RAM that read differently afterwards are those
at its address; and if the regions are disjoint and the offset lies in its region, this is the byte
at the offset and no byte of another region. -/
theorem region_protection [DecidableEq ι] {s₀ s : MemSystem ι} {as : List (ι × MemOp)}
    (hfresh : FreshSystem s₀) (hrun : Steps (Steps.Meeting GrowsNew MemSystem.Step) s₀ as s) (i : ι)
    (hdisjoint : ∀ j k, j ≠ k →
      Disjoint ((s.mm i).symrgtbl j).range ((s.mm i).symrgtbl k).range)
    (data : Byte) (rgid : Rgid) (offset : BitVec 32) :
    ((s.mm i).InRam rgid offset →
      ∃ c', (s.pcb i).libwrite data (BitVec.ofNat 32 rgid) offset = .ok (0, c') ∧
        c'.mm = s.mm i) ∧
    ∀ r c', (s.pcb i).libwrite data (BitVec.ofNat 32 rgid) offset = .ok (r, c') →
      swappedOut ((s.mm i).pgd (pagingPgn ((s.mm i).regionAddr rgid offset))) = false →
      c'.Reads rgid offset (data.signExtend 32) ∧
      ∀ j k v, (s.mm i).InRam j k → c'.mm.InRam j k → (s.pcb i).Reads j k v →
        c'.Reads j k v ∨ (s.mm i).SameAddr j rgid k offset ∧
          ((s.mm i).LiveByte rgid offset → (s.mm i).LiveByte j k → j = rgid ∧ k = offset) := by
  have hs := sound_of_run hfresh hrun
  refine ⟨fun hram => hs.libwrite_of_inRam hram data, fun r c' h hpage => ⟨?_, ?_⟩⟩
  · exact hs.reads_written hfresh.free_lt h hpage
  · intro j k v hram hram' hreads
    have hkept := hs.reads_kept (Multiset.coe_nodup.mpr hfresh.nodup) hfresh.free_lt h hpage hram
      hram' hreads
    exact hkept.imp_right fun haddr =>
      ⟨haddr, fun hlive hlive' => hlive'.eq_of_sameAddr hdisjoint hlive haddr⟩

/-- A heap that is used as in `paged_heap` grows over new pages only. -/
theorem growsNew_of_heapOk [DecidableEq ι] {s₀ s : MemSystem ι} {as : List (ι × MemOp)}
    (hfresh : FreshSystem s₀)
    (hrun : Steps (Steps.Meeting (fun s a => HeapOk (s.pcb a.1) a.2) MemSystem.Step) s₀ as s) :
    Steps (Steps.Meeting GrowsNew MemSystem.Step) s₀ as s := by
  have hF : (↑s₀.mram.freeFpList : Multiset Nat).Nodup := hfresh.nodup
  refine (hrun.invariant (motive := fun as s =>
    Paged (↑s₀.mram.freeFpList) (MemSystem.latest as) s ∧
      Steps (Steps.Meeting GrowsNew MemSystem.Step) s₀ as s) ⟨hfresh.paged, .nil s₀⟩ ?_).2
  intro as s a s' ⟨hs, hpast⟩ ⟨hop, hstep⟩
  exact ⟨hs.step hF hfresh.free_lt hop hstep, .snoc hpast ⟨hs.growsNew hop, hstep⟩⟩

end system

/-! ## Writes on a concrete heap -/

/-- The last byte of region 1 is written, and the first of its neighbour keeps its value. -/
theorem region_protection_last_byte :
    ∃ s c', Steps (Steps.Meeting GrowsNew MemSystem.Step) twoProcesses
        [(true, .alloc 300 1), (true, .alloc 100 2)] s ∧
      (s.pcb true).libwrite 7 1 299 = .ok (0, c') ∧ c'.Reads rgidOne 299 7 ∧
        c'.Reads rgidTwo 0 0 := by
  have hcheck : (Steps.exec
      (Steps.checked (fun s a => HeapOk (s.pcb a.1) a.2) MemSystem.tryStep) twoProcesses
      [(true, .alloc 300 1), (true, .alloc 100 2)]).any (fun s => decide
        ((∀ j k, j ≠ k →
          Disjoint ((s.mm true).symrgtbl j).range ((s.mm true).symrgtbl k).range) ∧
        (s.mm true).InRam rgidOne 299 ∧ (s.mm true).LiveByte rgidOne 299 ∧
        swappedOut ((s.mm true).pgd (pagingPgn ((s.mm true).regionAddr rgidOne 299))) = false ∧
        (s.mm true).InRam rgidTwo 0 ∧ (s.mm true).LiveByte rgidTwo 0 ∧
        0 = (s.mram.storage
          (pagingFpn ((s.mm true).pgd (pagingPgn ((s.mm true).regionAddr rgidTwo 0))) * 256 +
            pagingOffst ((s.mm true).regionAddr rgidTwo 0))).signExtend 32)) = true := by
    decide +kernel
  obtain ⟨s, hs, hfacts⟩ := (Option.any_eq_true _ _).mp hcheck
  obtain ⟨hdisjoint, hram1, hlive1, hpage, hram2, hlive2, hzero⟩ := of_decide_eq_true hfacts
  have hrun := growsNew_of_heapOk fresh_twoProcesses (MemSystem.steps_of_exec_checked hs)
  obtain ⟨hwrite, hchange⟩ :=
    region_protection fresh_twoProcesses hrun true hdisjoint 7 rgidOne 299
  obtain ⟨c', hc', hmm⟩ := hwrite hram1
  obtain ⟨hself, hothers⟩ := hchange 0 c' hc' hpage
  have hreads : (s.pcb true).Reads rgidTwo 0 0 :=
    ((sound_of_run fresh_twoProcesses hrun).reads_iff hram2).mpr hzero
  refine ⟨s, c', hrun, hc', hself, ?_⟩
  rcases hothers rgidTwo 0 0 hram2 (by rw [hmm]; exact hram2) hreads with hkept | ⟨-, hsame⟩
  · exact hkept
  · exact absurd (hsame hlive1 hlive2).1 (by decide)

/-- After a run, the regions are disjoint, and a write to offset 300 of region 1 changes the first
byte of region 2. -/
def ReachesOther (ops : List (Bool × MemOp)) : Prop :=
  ∃ s c' c₁ c₂, Steps MemSystem.Step twoProcesses ops s ∧
    (∀ j k, j ≠ k → Disjoint ((s.mm true).symrgtbl j).range ((s.mm true).symrgtbl k).range) ∧
    (s.mm true).LiveByte rgidTwo 0 ∧ (s.pcb true).libwrite 7 1 300 = .ok (0, c') ∧
    (s.pcb true).libread 2 0 = .ok (0, some 0, c₁) ∧ c'.libread 2 0 = .ok (0, some 7, c₂)

theorem reachesOther_of_exec {ops : List (Bool × MemOp)}
    (h : (Steps.exec MemSystem.tryStep twoProcesses ops).any (fun s =>
      decide ((∀ j k, j ≠ k →
          Disjoint ((s.mm true).symrgtbl j).range ((s.mm true).symrgtbl k).range) ∧
        (s.mm true).LiveByte rgidTwo 0) &&
      (((s.pcb true).libwrite 7 1 300).toOption.any (fun w => decide (w.1 = 0) &&
        (w.2.libread 2 0).toOption.any fun x => decide (x.1 = 0 ∧ x.2.1 = some 7)) &&
      ((s.pcb true).libread 2 0).toOption.any fun x => decide (x.1 = 0 ∧ x.2.1 = some 0))) =
      true) : ReachesOther ops := by
  obtain ⟨s, hs, hfacts⟩ := (Option.any_eq_true _ _).mp h
  obtain ⟨hstate, haccess⟩ := Bool.and_eq_true_iff.mp hfacts
  obtain ⟨hdisjoint, hlive⟩ := of_decide_eq_true hstate
  obtain ⟨hwrite, hbefore⟩ := Bool.and_eq_true_iff.mp haccess
  obtain ⟨⟨r, c'⟩, hw, hrest⟩ := (Option.any_eq_true _ _).mp hwrite
  obtain ⟨hr, hafter⟩ := Bool.and_eq_true_iff.mp hrest
  obtain ⟨⟨r₁, d₁, c₁⟩, h₁, hd₁⟩ := (Option.any_eq_true _ _).mp hbefore
  obtain ⟨⟨r₂, d₂, c₂⟩, h₂, hd₂⟩ := (Option.any_eq_true _ _).mp hafter
  obtain rfl : r = 0 := of_decide_eq_true hr
  obtain ⟨rfl, rfl⟩ : r₁ = 0 ∧ d₁ = some 0 := of_decide_eq_true hd₁
  obtain ⟨rfl, rfl⟩ : r₂ = 0 ∧ d₂ = some 7 := of_decide_eq_true hd₂
  exact ⟨s, c', c₁, c₂, MemSystem.steps_of_exec hs, hdisjoint, hlive,
    Exec.toOption_eq_some.mp hw, Exec.toOption_eq_some.mp h₁, Exec.toOption_eq_some.mp h₂⟩

/-- A write past the end of region 1 reaches region 2, and so does one through region 1 when it has
been freed. -/
theorem write_reaches_other_region :
    ReachesOther [(true, .alloc 300 1), (true, .alloc 100 2)] ∧
      ReachesOther [(true, .alloc 300 1), (true, .alloc 100 2), (true, .free 1)] := by
  constructor
  · exact reachesOther_of_exec (by decide +kernel)
  · exact reachesOther_of_exec (by decide +kernel)

end Ossim.Mm
