import Ossim.Mm.Vm

/-!
# Page faults and byte accesses (`libmem.c`)

`pg_getpage` brings a page into RAM. A page whose entry is not present takes the frame of the oldest
page in the list, which goes to a free frame of the swap device. The source calls the swap operation
a second time, to fetch the page from its swap offset; but the operation always copies from RAM to
swap, so this call overwrites a frame of the swap device instead. And the test for presence does not
look at the swapped bit, so a page that went to swap never takes this branch again: the low bits of
its entry, which encode a swap offset now, are read as a frame number.

`FaultStep` says what the branch does to the address space and the two devices, and
`pgGetpage_cases`, `pgSetval_cases` and `pgGetval_cases` what an access does.
-/

namespace Ossim.Mm

namespace MmStruct

/-- `find_victim_page`: the last entry of the list. No page stands for the return code `-1`. -/
def findVictimPage (mm : MmStruct) : Option Pgn × MmStruct :=
  match mm.fifoPgn.getLast? with
  | none => (none, mm)
  | some pgn => (some pgn, { mm with fifoPgn := mm.fifoPgn.dropLast })

/-- `*pte = ...` in the page directory. -/
def setPte (mm : MmStruct) (pgn : Pgn) (pte : Pte) : MmStruct :=
  { mm with pgd := Function.update mm.pgd pgn pte }

/-- `get_symrg_byid`. The pointer is an index, which may be one past the end of the table. -/
def getSymrgByid (rgid : BitVec 32) : Option Nat :=
  if rgid.toInt < 0 ∨ (pagingMaxSymtblSz : Int) < rgid.toInt then none else some rgid.toNat

end MmStruct

namespace Pcb

/-- The branch of `pg_getpage` for a page that is not present, up to `enlist_pgn_node`. The return
codes of `find_victim_page` and `MEMPHY_get_freefp` are dropped, so a failure shows when their
result is read. -/
def pageFault (c : Pcb) (pgn : Pgn) : Exec Pcb := do
  let pte := c.mm.pgd pgn
  let (vicpgn, mm) := c.mm.findVictimPage
  let (swpfpn, activeMswp) := c.activeMswp.getFreefp
  let vicpgn ← assigned vicpgn
  let vicfpn := pagingFpn (mm.pgd vicpgn)
  let swpfpn ← assigned swpfpn
  let c := { c with mm := mm, activeMswp := activeMswp }
  let (_, _, c) ← c.sysMemmap ⟨sysmemSwpOp, BitVec.ofNat 32 vicfpn, BitVec.ofNat 32 swpfpn⟩
  let c := { c with mm := c.mm.setPte vicpgn (pteSetSwap (c.mm.pgd vicpgn) 0 swpfpn) }
  let tgtfpn := vicfpn
  let tgtSwpoff := pagingPteSwp pte
  let (_, _, c) ← c.sysMemmap ⟨sysmemSwpOp, BitVec.ofNat 32 tgtSwpoff, BitVec.ofNat 32 tgtfpn⟩
  let mm := c.mm.setPte pgn (pteSetFpn (c.mm.pgd pgn) tgtfpn)
  return { c with mm := { mm with fifoPgn := enlistPgnNode mm.fifoPgn pgn } }

/-- `pg_getpage`: the return code and the frame number. -/
def pgGetpage (c : Pcb) (pgn : Pgn) : Exec (Int × Nat × Pcb) := do
  let c ← (if pagingPagePresent (c.mm.pgd pgn) then .ok c else c.pageFault pgn : Exec Pcb)
  return (0, pagingFpn (c.mm.pgd pgn), c)

/-- `pg_getval`. No value stands for a result that was not assigned. -/
def pgGetval (c : Pcb) (addr : BitVec 32) : Exec (Int × Option Byte × Pcb) := do
  let (ret, fpn, c) ← c.pgGetpage (pagingPgn addr)
  if ret ≠ 0 then return (-1, none, c)
  else do
    let addr := Memphy.phyaddr (BitVec.ofNat 32 fpn) (pagingOffst addr)
    let (_, regs, c) ← c.sysMemmap ⟨sysmemIoRead, addr, 0⟩
    return (0, some (regs.a3.setWidth 8), c)

/-- `pg_setval`. -/
def pgSetval (c : Pcb) (addr : BitVec 32) (value : Byte) : Exec (Int × Pcb) := do
  let (ret, fpn, c) ← c.pgGetpage (pagingPgn addr)
  if ret ≠ 0 then return (-1, c)
  else do
    let addr := Memphy.phyaddr (BitVec.ofNat 32 fpn) (pagingOffst addr)
    let (_, _, c) ← c.sysMemmap ⟨sysmemIoWrite, addr, value.signExtend 32⟩
    return (0, c)

/-- `__read`. -/
def read (c : Pcb) (vmaid rgid offset : BitVec 32) : Exec (Int × Option Byte × Pcb) := do
  let currg := MmStruct.getSymrgByid rgid
  let curVma ← c.mm.getVmaByNum vmaid
  if currg = none ∨ curVma = none then return (-1, none, c)
  else do
    let i ← symIndex (← deref currg)
    let addr := ((c.mm.symrgtbl i).rgStart + offset.signExtend 64).setWidth 32
    let (_, data, c) ← c.pgGetval addr
    return (0, data, c)

/-- `libread`, with what it assigns to the destination. -/
def libread (c : Pcb) (source offset : BitVec 32) : Exec (Int × Option (BitVec 32) × Pcb) := do
  let (val, data, c) ← c.read 0 source offset
  if val = 0 then do
    let data ← assigned data
    return (val, some (data.signExtend 32), c)
  else return (val, none, c)

/-- `__write`. -/
def write (c : Pcb) (vmaid rgid offset : BitVec 32) (value : Byte) : Exec (Int × Pcb) := do
  let currg := MmStruct.getSymrgByid rgid
  let curVma ← c.mm.getVmaByNum vmaid
  if currg = none ∨ curVma = none then return (-1, c)
  else do
    let i ← symIndex (← deref currg)
    let addr := ((c.mm.symrgtbl i).rgStart + offset.signExtend 64).setWidth 32
    let (_, c) ← c.pgSetval addr value
    return (0, c)

/-- `libwrite`. It reads the region before it checks the number, for a message. -/
def libwrite (c : Pcb) (data : Byte) (destination offset : BitVec 32) : Exec (Int × Pcb) := do
  let _ ← symIndex (← deref (MmStruct.getSymrgByid destination))
  c.write 0 destination offset data

/-- One round of `free_pcb_memph`. The test is the wrong way round: the frame number of an entry that
is not present goes to RAM, and of one that is present the bits of a swap offset go to swap. -/
def freeFrame (c : Pcb) (pgn : Pgn) : Pcb :=
  let pte := c.mm.pgd pgn
  if !pagingPagePresent pte then { c with mram := c.mram.putFreefp (pagingFpn pte) }
  else { c with activeMswp := c.activeMswp.putFreefp (pagingPteSwp pte) }

/-- `free_pcb_memph`. -/
def freePcbMemph (c : Pcb) : Pcb := (List.finRange pagingMaxPgn).foldl freeFrame c

/-! ## What an access can do -/

/-- What the fault branch does: the oldest page `v` goes to the swap frame `s`, and page `pgn` gets
its frame. Of the devices only bytes in two frames of swap change: `s`, and the one that happens to
have the number of the RAM frame. -/
inductive FaultStep (c : Pcb) (pgn : Pgn) : Pcb → Prop
  | intro {v : Pgn} {newer : List Pgn} {s : Nat} {rest : List Nat} {storage : Nat → Byte}
      (hfifo : c.mm.fifoPgn = newer ++ [v])
      (hswap : c.activeMswp.freeFpList = s :: rest)
      (hstorage : ∀ x, ¬ Memphy.CellOf (BitVec.ofNat 32 s) x →
        ¬ Memphy.CellOf (BitVec.ofNat 32 (pagingFpn (c.mm.pgd v))) x →
          storage x = c.activeMswp.storage x) :
      FaultStep c pgn
        { c with
          mm :=
            { (c.mm.setPte v (pteSetSwap (c.mm.pgd v) 0 s)).setPte pgn
                (pteSetFpn ((c.mm.setPte v (pteSetSwap (c.mm.pgd v) 0 s)).pgd pgn)
                  (pagingFpn (c.mm.pgd v))) with
              fifoPgn := pgn :: newer }
          activeMswp := { c.activeMswp with storage := storage, freeFpList := rest } }

theorem pageFault_cases {c c' : Pcb} {pgn : Pgn} (h : c.pageFault pgn = .ok c') :
    FaultStep c pgn c' := by
  unfold pageFault at h
  cases hlast : c.mm.fifoPgn.getLast? with
  | none =>
      simp only [MmStruct.findVictimPage, hlast] at h
      cases h
  | some v =>
      obtain ⟨newer, hfifo⟩ := List.getLast?_eq_some_iff.mp hlast
      have hvictim : c.mm.findVictimPage = (some v, { c.mm with fifoPgn := newer }) := by
        simp only [MmStruct.findVictimPage, hlast]
        rw [hfifo, List.dropLast_concat]
      cases hfree : c.activeMswp.freeFpList with
      | nil =>
          simp only [hvictim, Memphy.getFreefp, hfree] at h
          cases h
      | cons s rest =>
          have hswpfp : c.activeMswp.getFreefp =
              (some s, { c.activeMswp with freeFpList := rest }) := by
            simp only [Memphy.getFreefp, hfree]
          simp only [hvictim, hswpfp, assigned] at h
          obtain ⟨vicpgn, hvic, hbody⟩ := Exec.bind_eq_ok.mp h
          obtain rfl := Except.ok.inj hvic
          obtain ⟨swpfpn, hswp, hcopies⟩ := Exec.bind_eq_ok.mp hbody
          obtain rfl := Except.ok.inj hswp
          obtain ⟨⟨r, regs, c₁⟩, hfirst, hrest⟩ := Exec.bind_eq_ok.mp hcopies
          obtain ⟨⟨r', regs', c₂⟩, hsecond, hret⟩ := Exec.bind_eq_ok.mp hrest
          -- the victim's bytes go to the new swap frame
          rw [sysMemmap_swp] at hfirst
          obtain ⟨⟨mram₁, mswp₁⟩, hcopy₁, hdone₁⟩ := Exec.bind_eq_ok.mp hfirst
          obtain ⟨rfl, storage₁, rfl, hframe₁⟩ := Memphy.swapCpPage_cases hcopy₁
          cases hdone₁
          -- the second copy writes to the swap frame numbered like the RAM frame
          rw [sysMemmap_swp] at hsecond
          obtain ⟨⟨mram₂, mswp₂⟩, hcopy₂, hdone₂⟩ := Exec.bind_eq_ok.mp hsecond
          obtain ⟨rfl, storage₂, rfl, hframe₂⟩ := Memphy.swapCpPage_cases hcopy₂
          cases hdone₂
          cases hret
          exact .intro hfifo hfree fun x hs hf => (hframe₂ x hf).trans (hframe₁ x hs)

/-- What `pg_getpage` can do: nothing if the page is present, else the fault. -/
theorem pgGetpage_cases {c c' : Pcb} {pgn : Pgn} {r : Int} {fpn : Nat}
    (h : c.pgGetpage pgn = .ok (r, fpn, c')) :
    r = 0 ∧ fpn = pagingFpn (c'.mm.pgd pgn) ∧
      ((pagingPagePresent (c.mm.pgd pgn) = true ∧ c' = c) ∨
        (pagingPagePresent (c.mm.pgd pgn) = false ∧ FaultStep c pgn c')) := by
  obtain ⟨c₁, hpage, hret⟩ := Exec.bind_eq_ok.mp h
  cases hret
  refine ⟨rfl, rfl, ?_⟩
  split at hpage
  · next hpresent =>
    cases hpage
    exact .inl ⟨hpresent, rfl⟩
  · next hpresent => exact .inr ⟨by simpa using hpresent, pageFault_cases hpage⟩

/-- A read changes no more than fetching the page does. -/
theorem pgGetval_cases {c c' : Pcb} {addr : BitVec 32} {r : Int} {data : Option Byte}
    (h : c.pgGetval addr = .ok (r, data, c')) :
    ∃ fpn, c.pgGetpage (pagingPgn addr) = .ok (0, fpn, c') := by
  obtain ⟨⟨ret, fpn, c₁⟩, hpage, hbody⟩ := Exec.bind_eq_ok.mp h
  obtain ⟨rfl, -, -⟩ := pgGetpage_cases hpage
  obtain ⟨⟨r', regs, c₂⟩, hio, hret⟩ := Exec.bind_eq_ok.mp hbody
  rw [sysMemmap_ioRead] at hio
  obtain ⟨⟨value, mram⟩, hread, hassign⟩ := Exec.bind_eq_ok.mp hio
  obtain ⟨v, -, hdone⟩ := Exec.bind_eq_ok.mp hassign
  obtain rfl := Memphy.read_cases hread
  cases hdone
  cases hret
  exact ⟨fpn, hpage⟩

/-- A write fetches the page and then changes at most one byte of RAM, in the frame of the page. -/
theorem pgSetval_cases {c c' : Pcb} {addr : BitVec 32} {value : Byte} {r : Int}
    (h : c.pgSetval addr value = .ok (r, c')) :
    ∃ fpn c₁, c.pgGetpage (pagingPgn addr) = .ok (0, fpn, c₁) ∧
      (c' = c₁ ∨
        c' = { c₁ with mram := c₁.mram.setByte (fpn * 256 + pagingOffst addr) value }) := by
  obtain ⟨⟨ret, fpn, c₁⟩, hpage, hbody⟩ := Exec.bind_eq_ok.mp h
  obtain ⟨rfl, hfpn, -⟩ := pgGetpage_cases hpage
  refine ⟨fpn, c₁, hpage, ?_⟩
  obtain ⟨⟨r', regs, c₂⟩, hio, hret⟩ := Exec.bind_eq_ok.mp hbody
  rw [sysMemmap_ioWrite] at hio
  obtain ⟨⟨r'', mram⟩, hwrite, hdone⟩ := Exec.bind_eq_ok.mp hio
  cases hdone
  cases hret
  rcases Memphy.write_cases hwrite with ⟨rfl, -⟩ | rfl
  · refine .inr ?_
    have hlt : fpn < 2 ^ 23 := by
      have := pagingFpn_lt (c₁.mm.pgd (pagingPgn addr))
      omega
    rw [Memphy.toNat_phyaddr hlt (pagingOffst_lt addr), setWidth_signExtend (by decide)]
  · exact .inl rfl

/-! ## When an access goes through -/

theorem pgGetpage_of_present {c : Pcb} {pgn : Pgn}
    (h : pagingPagePresent (c.mm.pgd pgn) = true) :
    c.pgGetpage pgn = .ok (0, pagingFpn (c.mm.pgd pgn), c) := by
  unfold pgGetpage
  simp only [h, if_true]
  rfl

/-- The fault goes through if there is a victim and a swap frame, and the four frames the two copies
work on lie in their devices. -/
theorem pageFault_of_hasFrame {c : Pcb} {pgn v : Pgn} {newer : List Pgn} {s : Nat} {rest : List Nat}
    (hfifo : c.mm.fifoPgn = newer ++ [v]) (hswap : c.activeMswp.freeFpList = s :: rest)
    (hram : c.mram.rdmflg = true) (hmswp : c.activeMswp.rdmflg = true)
    (hvic : c.mram.HasFrame (pagingFpn (c.mm.pgd v))) (hs : c.activeMswp.HasFrame s)
    (htgt : c.mram.HasFrame (pagingPteSwp (c.mm.pgd pgn)))
    (hvic' : c.activeMswp.HasFrame (pagingFpn (c.mm.pgd v))) :
    ∃ c', c.pageFault pgn = .ok c' := by
  have hvictim : c.mm.findVictimPage = (some v, { c.mm with fifoPgn := newer }) := by
    simp only [MmStruct.findVictimPage, hfifo, List.getLast?_concat, List.dropLast_concat]
  have hswpfp : c.activeMswp.getFreefp = (some s, { c.activeMswp with freeFpList := rest }) := by
    simp only [Memphy.getFreefp, hswap]
  have hcopy : ∀ (storage : Nat → Byte) {f g : Nat}, c.mram.HasFrame f → c.activeMswp.HasFrame g →
      ∃ r, Memphy.swapCpPage c.mram (BitVec.ofNat 32 f)
        { c.activeMswp with freeFpList := rest, storage := storage } (BitVec.ofNat 32 g) = .ok r :=
    fun _ _ _ hf hg => Memphy.swapCpPage_of_hasFrame hram hmswp hf hg
  obtain ⟨⟨mram₁, mswp₁⟩, hcopy₁⟩ := hcopy c.activeMswp.storage hvic hs
  obtain ⟨rfl, storage, rfl, -⟩ := Memphy.swapCpPage_cases hcopy₁
  obtain ⟨⟨mram₂, mswp₂⟩, hcopy₂⟩ := hcopy storage htgt hvic'
  unfold pageFault
  simp only [hvictim, hswpfp, assigned, sysMemmap_swp, hcopy₁, hcopy₂, bind, Except.bind, pure,
    Except.pure, Except.ok.injEq, exists_eq']

theorem pgGetpage_of_fault {c c' : Pcb} {pgn : Pgn} (h : pagingPagePresent (c.mm.pgd pgn) = false)
    (hfault : c.pageFault pgn = .ok c') :
    c.pgGetpage pgn = .ok (0, pagingFpn (c'.mm.pgd pgn), c') := by
  unfold pgGetpage
  simp only [h, hfault]
  rfl

/-- Once the page is there, reading returns the byte at its offset in the frame. -/
theorem pgGetval_of_getpage {c c' : Pcb} {addr : BitVec 32} {fpn : Nat}
    (hpage : c.pgGetpage (pagingPgn addr) = .ok (0, fpn, c')) (hram : c'.mram.rdmflg = true)
    (hfpn : c'.mram.HasFrame fpn) :
    c.pgGetval addr = .ok (0, some (c'.mram.storage (fpn * 256 + pagingOffst addr)), c') := by
  have hread := Memphy.read_of_random hram (hfpn.phyaddr_lt (pagingOffst_lt addr))
  unfold pgGetval
  simp only [hpage, sysMemmap_ioRead, hread, assigned, bind, Except.bind, pure, Except.pure, ne_eq,
    not_true_eq_false, if_false, setWidth_signExtend (show 8 ≤ 32 by decide)]
  rw [Memphy.toNat_phyaddr hfpn.lt (pagingOffst_lt addr)]

/-- Once the page is there, writing sets the byte at its offset in the frame. -/
theorem pgSetval_of_getpage {c c' : Pcb} {addr : BitVec 32} {fpn : Nat}
    (hpage : c.pgGetpage (pagingPgn addr) = .ok (0, fpn, c')) (hram : c'.mram.rdmflg = true)
    (hfpn : c'.mram.HasFrame fpn) (value : Byte) :
    c.pgSetval addr value =
      .ok (0, { c' with mram := c'.mram.setByte (fpn * 256 + pagingOffst addr) value }) := by
  have hwrite := Memphy.write_of_random hram (hfpn.phyaddr_lt (pagingOffst_lt addr)) value
  unfold pgSetval
  simp only [hpage, sysMemmap_ioWrite, setWidth_signExtend (show 8 ≤ 32 by decide), hwrite, bind,
    Except.bind, pure, Except.pure, ne_eq, not_true_eq_false, if_false]
  rw [Memphy.toNat_phyaddr hfpn.lt (pagingOffst_lt addr)]

end Pcb

end Ossim.Mm
