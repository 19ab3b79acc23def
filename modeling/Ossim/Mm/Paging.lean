import Mathlib.Logic.Function.Basic
import Ossim.Mm.Memphy

/-!
# Address spaces and mapping (`os-mm.h`, `mm.c`)

The address space of a process is its page directory, its list of areas, its table of regions and
the list of its mapped pages, newest first. A page directory and a region table have a fixed size,
so an index into them is a `Fin`, and an access with a number that may be too large goes through
`pgdIndex` or `symIndex`.

Mapping takes frames off the free list of RAM one by one, which leaves them in reverse order, and
writes them into consecutive entries. `Mapped` is the effect of the second loop, one page at a time:
every invariant of a growing heap is an induction over it.
-/

namespace Ossim.Mm

/-- `PAGING_MAX_SYMTBL_SZ`. -/
def pagingMaxSymtblSz : Nat := 30

/-- An index of the region table. -/
abbrev Rgid := Fin pagingMaxSymtblSz

/-- `struct vm_rg_struct`, without its list link. -/
structure VmRg where
  rgStart : BitVec 64
  rgEnd : BitVec 64
  deriving DecidableEq

/-- `struct vm_area_struct`, without its list link and its back pointer. -/
structure VmArea where
  vmId : BitVec 64
  vmStart : BitVec 64
  vmEnd : BitVec 64
  sbrk : BitVec 64
  vmFreergList : List VmRg
  deriving DecidableEq

/-- `struct mm_struct`. -/
structure MmStruct where
  pgd : Pgn → Pte
  mmap : List VmArea
  symrgtbl : Rgid → VmRg
  fifoPgn : List Pgn

/-- What memory management reads of a `struct pcb_t`. -/
structure Pcb where
  mm : MmStruct
  mram : Memphy
  activeMswp : Memphy

/-- `&pgd[i]`, to be accessed. -/
def pgdIndex (i : Nat) : Exec Pgn :=
  if h : i < pagingMaxPgn then .ok ⟨i, h⟩ else .error .outOfBounds

/-- `&symrgtbl[i]`, to be accessed. -/
def symIndex (i : Nat) : Exec Rgid :=
  if h : i < pagingMaxSymtblSz then .ok ⟨i, h⟩ else .error .outOfBounds

theorem symIndex_eq_ok {n : Nat} {i : Rgid} (h : symIndex n = .ok i) : (i : Nat) = n := by
  unfold symIndex at h
  split at h
  · cases h
    rfl
  · cases h

/-- `enlist_pgn_node`. -/
def enlistPgnNode (plist : List Pgn) (pgn : Pgn) : List Pgn := pgn :: plist

namespace MmStruct

/-- One round of the loop of `vmap_page_range`. -/
def mapPage (mm : MmStruct) (p : Pgn) (fpn : Nat) : MmStruct :=
  { mm with
    pgd := Function.update mm.pgd p (pteSetFpn (mm.pgd p) fpn)
    fifoPgn := enlistPgnNode mm.fifoPgn p }

/-- The loop of `vmap_page_range`, for `n` more pages. -/
def vmapPages (mm : MmStruct) (pgn pgit : Nat) : Nat → List Nat → Exec (Int × MmStruct)
  | 0, _ => .ok (0, mm)
  | _ + 1, [] => .ok (-1, mm)
  | n + 1, fpn :: frames => do
    let p ← pgdIndex (pgn + pgit)
    vmapPages (mm.mapPage p fpn) pgn (pgit + 1) n frames

/-- `vmap_page_range`. The region it fills in is left out: its caller drops it. -/
def vmapPageRange (mm : MmStruct) (addr pgnum : BitVec 32) (frames : List Nat) :
    Exec (Int × MmStruct) :=
  vmapPages mm (pagingPgn addr) 0 pgnum.toInt.toNat frames

end MmStruct

/-- `Mapped pgd fifo n frames pgd' fifo'`: the pages from number `n` on have been mapped to
`frames`, one after another. -/
inductive Mapped : (Pgn → Pte) → List Pgn → Nat → List Nat → (Pgn → Pte) → List Pgn → Prop
  | nil (pgd : Pgn → Pte) (fifo : List Pgn) (n : Nat) : Mapped pgd fifo n [] pgd fifo
  | cons {pgd pgd' : Pgn → Pte} {fifo fifo' : List Pgn} {n fpn : Nat} {frames : List Nat}
      (p : Pgn) (hp : (p : Nat) = n) :
      Mapped (Function.update pgd p (pteSetFpn (pgd p) fpn)) (p :: fifo) (n + 1) frames pgd' fifo' →
      Mapped pgd fifo n (fpn :: frames) pgd' fifo'

namespace Mapped

variable {pgd pgd' : Pgn → Pte} {fifo fifo' : List Pgn} {n : Nat} {frames : List Nat}

/-- Mapping does not touch the pages below or above. -/
theorem pgd_outside (h : Mapped pgd fifo n frames pgd' fifo') (p : Pgn)
    (hp : (p : Nat) < n ∨ n + frames.length ≤ p) : pgd' p = pgd p := by
  induction h with
  | nil => rfl
  | @cons pgd pgd' fifo fifo' n fpn frames q hq _ ih =>
      simp only [List.length_cons] at hp
      rw [ih (by omega), Function.update_of_ne]
      rintro rfl
      omega

/-- The entry of a page is written once, with the frame that stands at its place. -/
theorem entry (h : Mapped pgd fifo n frames pgd' fifo') {k f : Nat} (hk : frames[k]? = some f)
    {p : Pgn} (hp : (p : Nat) = n + k) : ∃ pte, pgd' p = pteSetFpn pte f := by
  induction h generalizing k with
  | nil => cases hk
  | @cons pgd pgd' fifo fifo' n fpn frames q hq hrest ih =>
      cases k with
      | zero =>
          obtain rfl : fpn = f := Option.some.inj hk
          obtain rfl : p = q := Fin.ext (by omega)
          refine ⟨pgd p, ?_⟩
          rw [hrest.pgd_outside p (by omega), Function.update_self]
      | succ k => exact ih hk (by omega)

/-- Mapping makes every page of the range resident. -/
theorem resident_inside (h : Mapped pgd fifo n frames pgd' fifo') (p : Pgn) (hn : n ≤ p)
    (hp : (p : Nat) < n + frames.length) : resident (pgd' p) = true := by
  induction h with
  | nil =>
      simp only [List.length_nil, Nat.add_zero] at hp
      omega
  | @cons pgd pgd' fifo fifo' n fpn frames q hq hrest ih =>
      simp only [List.length_cons] at hp
      rcases eq_or_ne p q with rfl | hne
      · rw [hrest.pgd_outside p (by omega)]
        simp
      · have : (p : Nat) ≠ q := fun h => hne (Fin.ext h)
        exact ih (by omega) (by omega)

end Mapped

namespace MmStruct

/-- The loop maps exactly the frames it is given, if there is one for each page. -/
theorem vmapPages_cases {mm mm' : MmStruct} {pgn pgit n : Nat} {frames : List Nat} {r : Int}
    (hlen : frames.length = n) (h : vmapPages mm pgn pgit n frames = .ok (r, mm')) :
    ∃ pgd' fifo', Mapped mm.pgd mm.fifoPgn (pgn + pgit) frames pgd' fifo' ∧
      mm' = { mm with pgd := pgd', fifoPgn := fifo' } := by
  induction frames generalizing mm pgit n with
  | nil =>
      subst hlen
      cases h
      exact ⟨_, _, .nil _ _ _, rfl⟩
  | cons fpn frames ih =>
      subst hlen
      obtain ⟨p, hp, hrest⟩ := Exec.bind_eq_ok.mp h
      unfold pgdIndex at hp
      split at hp
      · cases hp
        obtain ⟨pgd', fifo', hmapped, rfl⟩ := ih rfl hrest
        exact ⟨pgd', fifo', .cons _ rfl hmapped, rfl⟩
      · cases hp

/-- The loop goes through if the pages exist. -/
theorem vmapPages_of_le (mm : MmStruct) {pgn pgit : Nat} (n : Nat) (frames : List Nat)
    (h : pgn + pgit + n ≤ pagingMaxPgn) : ∃ res, vmapPages mm pgn pgit n frames = .ok res := by
  induction n generalizing mm pgit frames with
  | zero => exact ⟨_, rfl⟩
  | succ n ih =>
      cases frames with
      | nil => exact ⟨_, rfl⟩
      | cons fpn frames =>
          have hp : pgn + pgit < pagingMaxPgn := by omega
          simp only [vmapPages, pgdIndex, dif_pos hp, bind, Except.bind]
          exact ih _ _ (by omega)

end MmStruct

namespace Memphy

/-- The loop of `alloc_pages_range`, for `n` more frames. The failure path follows `*frm_lst` while
it is `NULL`. -/
def takeFrames (mp : Memphy) (frmLst : List Nat) : Nat → List Nat → Exec (Int × List Nat × Memphy)
  | 0, newfp => .ok (0, newfp, mp)
  | n + 1, newfp =>
    match mp.getFreefp with
    | (some fpn, mp) => takeFrames mp frmLst n (fpn :: newfp)
    | (none, mp) => if frmLst = [] then .error .nullDeref else .ok (-1, [], mp)

/-- `alloc_pages_range`, with the final value of `*frm_lst`. -/
def allocPagesRange (mp : Memphy) (reqPgnum : BitVec 32) (frmLst : List Nat) :
    Exec (Int × List Nat × Memphy) :=
  takeFrames mp frmLst reqPgnum.toInt.toNat []

/-- Starting from an empty list the loop takes the first frames, or it faults. -/
theorem takeFrames_cases {mp mp' : Memphy} {n : Nat} {newfp l : List Nat} {r : Int}
    (h : takeFrames mp [] n newfp = .ok (r, l, mp')) :
    ∃ taken, r = 0 ∧ mp.freeFpList = taken ++ mp'.freeFpList ∧ taken.length = n ∧
      l = taken.reverse ++ newfp ∧ mp' = { mp with freeFpList := mp'.freeFpList } := by
  induction n generalizing mp newfp with
  | zero =>
      cases h
      exact ⟨[], rfl, rfl, rfl, rfl, rfl⟩
  | succ n ih =>
      unfold takeFrames getFreefp at h
      cases hfree : mp.freeFpList with
      | nil =>
          simp only [hfree] at h
          cases h
      | cons fpn rest =>
          simp only [hfree] at h
          obtain ⟨taken, hr, hsplit, hlen, hl, hmp⟩ := ih h
          refine ⟨fpn :: taken, hr, ?_, by simp [hlen], by simp [hl], ?_⟩
          · rw [List.cons_append]
            exact congrArg (fpn :: ·) hsplit
          · rw [hmp]

/-- With enough free frames the loop goes through. -/
theorem takeFrames_of_le {mp : Memphy} {n : Nat} (frmLst newfp : List Nat)
    (h : n ≤ mp.freeFpList.length) : ∃ res, takeFrames mp frmLst n newfp = .ok res := by
  induction n generalizing mp newfp with
  | zero => exact ⟨_, rfl⟩
  | succ n ih =>
      unfold takeFrames getFreefp
      cases hfree : mp.freeFpList with
      | nil =>
          rw [hfree] at h
          exact absurd h (by simp)
      | cons fpn rest =>
          simp only
          refine ih _ ?_
          rw [hfree, List.length_cons] at h
          exact Nat.le_of_succ_le_succ h

end Memphy

namespace Pcb

/-- `vm_map_ram`, without the two bounds it does not read. -/
def vmMapRam (c : Pcb) (mapstart incpgnum : BitVec 32) : Exec (Int × Pcb) := do
  let (retAlloc, frmLst, mram) ← c.mram.allocPagesRange incpgnum []
  let c := { c with mram := mram }
  if retAlloc < 0 then return (-1, c)
  else do
    let (_, mm) ← c.mm.vmapPageRange mapstart incpgnum frmLst
    return (0, { c with mm := mm })

/-- What `vm_map_ram` can do: it maps the first free frames, in reverse order. -/
theorem vmMapRam_cases {c c' : Pcb} {mapstart incpgnum : BitVec 32} {r : Int}
    (h : c.vmMapRam mapstart incpgnum = .ok (r, c')) :
    ∃ taken rest pgd' fifo', r = 0 ∧ c.mram.freeFpList = taken ++ rest ∧
      taken.length = incpgnum.toInt.toNat ∧
      Mapped c.mm.pgd c.mm.fifoPgn (pagingPgn mapstart) taken.reverse pgd' fifo' ∧
      c' = { c with
        mm := { c.mm with pgd := pgd', fifoPgn := fifo' }
        mram := { c.mram with freeFpList := rest } } := by
  obtain ⟨⟨retAlloc, frmLst, mram⟩, halloc, hmap⟩ := Exec.bind_eq_ok.mp h
  obtain ⟨taken, rfl, hsplit, hlen, hl, hmram⟩ := Memphy.takeFrames_cases halloc
  obtain ⟨⟨r', mm'⟩, hvmap, hret⟩ := Exec.bind_eq_ok.mp hmap
  cases hret
  rw [List.append_nil] at hl
  subst hl
  obtain ⟨pgd', fifo', hmapped, rfl⟩ := MmStruct.vmapPages_cases (by simpa using hlen) hvmap
  exact ⟨taken, mram.freeFpList, pgd', fifo', rfl, hsplit, hlen, hmapped, by rw [← hmram]⟩

/-- With enough free frames and entries `vm_map_ram` goes through. -/
theorem vmMapRam_of_le (c : Pcb) (mapstart incpgnum : BitVec 32)
    (hfree : incpgnum.toInt.toNat ≤ c.mram.freeFpList.length)
    (hpgd : (pagingPgn mapstart : Nat) + incpgnum.toInt.toNat ≤ pagingMaxPgn) :
    ∃ res, c.vmMapRam mapstart incpgnum = .ok res := by
  obtain ⟨⟨retAlloc, frmLst, mram⟩, halloc⟩ := Memphy.takeFrames_of_le [] [] hfree
  have hroom : (pagingPgn mapstart : Nat) + 0 + incpgnum.toInt.toNat ≤ pagingMaxPgn := hpgd
  obtain ⟨res, hvmap⟩ := c.mm.vmapPages_of_le incpgnum.toInt.toNat frmLst hroom
  unfold vmMapRam Memphy.allocPagesRange MmStruct.vmapPageRange
  simp only [halloc, bind, Except.bind]
  split
  · exact ⟨_, rfl⟩
  · simp only [hvmap]
    exact ⟨_, rfl⟩

end Pcb

end Ossim.Mm
