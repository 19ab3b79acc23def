import Ossim.Mm.Vm

/-!
# Regions of the heap (`libmem.c`)

A process names its memory by region numbers. `__alloc` carves a region off the front of a free
region, the lowest that is large enough, and otherwise extends the area and keeps the slack as a
free region. The size test of the search, `rg_end - rg_start + 1 >= size`, also accepts a free
region that is one byte too short. `__free` merges the region with the free regions that touch it,
in one pass over the list.

`AllocStep` lists what `__alloc` can do.
-/

namespace Ossim.Mm

/-! ## The search for a free region -/

/-- The size test of `get_free_vmrg_area`. -/
def fitsSize (size : BitVec 64) (rg : VmRg) : Bool := decide (size ≤ rg.rgEnd - rg.rgStart + 1)

/-- The loop of `get_free_vmrg_area`; the list is what is left, from number `i` on. -/
def bestFit (size : BitVec 64) (i : Nat) (best : Option (Nat × VmRg)) :
    List VmRg → Option (Nat × VmRg)
  | [] => best
  | rgit :: rest =>
    if fitsSize size rgit && best.all fun b => decide (rgit.rgStart < b.2.rgStart) then
      bestFit size (i + 1) (some (i, rgit)) rest
    else bestFit size (i + 1) best rest

/-- The search returns its candidate, or the first of the fitting regions that start lowest. -/
theorem bestFit_cases {size : BitVec 64} {i : Nat} {best : Option (Nat × VmRg)} {l : List VmRg}
    {j : Nat} {b : VmRg} (h : bestFit size i best l = some (j, b)) :
    (best = some (j, b) ∨
        fitsSize size b = true ∧ ∃ pre post, l = pre ++ b :: post ∧ i + pre.length = j ∧
          (∀ rg ∈ pre, fitsSize size rg = true → b.rgStart < rg.rgStart) ∧
          ∀ x ∈ best, b.rgStart < x.2.rgStart) ∧
      (∀ x ∈ best, b.rgStart ≤ x.2.rgStart) ∧
      ∀ rg ∈ l, fitsSize size rg = true → b.rgStart ≤ rg.rgStart := by
  induction l generalizing i best with
  | nil =>
      simp only [bestFit] at h
      subst h
      exact ⟨.inl rfl, by simp, by simp⟩
  | cons rgit rest ih =>
      simp only [bestFit] at h
      split at h
      · next hbetter =>
        simp only [Bool.and_eq_true] at hbetter
        obtain ⟨hfound, hbest, hrest⟩ := ih h
        have hle : b.rgStart ≤ rgit.rgStart := hbest _ rfl
        have hlt : ∀ x ∈ best, b.rgStart < x.2.rgStart := fun x hx => by
          obtain rfl : best = some x := hx
          have hlt : rgit.rgStart < x.2.rgStart := by simpa using hbetter.2
          exact BitVec.lt_def.mpr (Nat.lt_of_le_of_lt (BitVec.le_def.mp hle) (BitVec.lt_def.mp hlt))
        refine ⟨.inr ?_, fun x hx => BitVec.le_of_lt (hlt x hx), fun rg hrg hfits => ?_⟩
        · rcases hfound with heq | ⟨hfits, pre, post, rfl, hj, hpre, hcand⟩
          · cases heq
            exact ⟨hbetter.1, [], rest, rfl, rfl, by simp, hlt⟩
          · refine ⟨hfits, rgit :: pre, post, rfl, by simp only [List.length_cons]; omega, ?_, hlt⟩
            intro rg hrg hrgfits
            rcases List.mem_cons.mp hrg with rfl | hmem
            · exact hcand _ rfl
            · exact hpre rg hmem hrgfits
        · rcases List.mem_cons.mp hrg with rfl | hmem
          · exact hle
          · exact hrest rg hmem hfits
      · next hbetter =>
        obtain ⟨hfound, hbest, hrest⟩ := ih h
        refine ⟨?_, hbest, fun rg hrg hfits => ?_⟩
        · rcases hfound with heq | ⟨hfits, pre, post, rfl, hj, hpre, hcand⟩
          · exact .inl heq
          · refine .inr ⟨hfits, rgit :: pre, post, rfl, by simp only [List.length_cons]; omega, ?_,
              hcand⟩
            intro rg hrg hrgfits
            rcases List.mem_cons.mp hrg with rfl | hmem
            · -- It fits and was not taken, so there is a candidate that starts no higher.
              cases best with
              | none => simp [hrgfits] at hbetter
              | some x =>
                  have hle : x.2.rgStart ≤ rg.rgStart := by simpa [hrgfits] using hbetter
                  have hlt := BitVec.lt_def.mp (hcand x rfl)
                  exact BitVec.lt_def.mpr (Nat.lt_of_lt_of_le hlt (BitVec.le_def.mp hle))
            · exact hpre rg hmem hrgfits
        · rcases List.mem_cons.mp hrg with rfl | hmem
          · cases best with
            | none => simp [hfits] at hbetter
            | some x =>
                have hle : x.2.rgStart ≤ rg.rgStart := by simpa [hfits] using hbetter
                exact BitVec.le_trans (hbest x rfl) hle
          · exact hrest rg hmem hfits

/-- The search fails only if nothing fits. -/
theorem bestFit_eq_none {size : BitVec 64} {i : Nat} {best : Option (Nat × VmRg)} {l : List VmRg} :
    bestFit size i best l = none ↔ best = none ∧ ∀ rg ∈ l, fitsSize size rg = false := by
  induction l generalizing i best with
  | nil => simp [bestFit]
  | cons rgit rest ih =>
      simp only [bestFit]
      split
      · next hbetter =>
        simp only [Bool.and_eq_true] at hbetter
        simp [ih, hbetter.1]
      · next hbetter =>
        rw [ih]
        constructor
        · rintro ⟨rfl, hrest⟩
          refine ⟨rfl, fun rg hrg => ?_⟩
          rcases List.mem_cons.mp hrg with rfl | hmem
          · simpa using hbetter
          · exact hrest rg hmem
        · rintro ⟨rfl, hall⟩
          exact ⟨rfl, fun rg hrg => hall rg (List.mem_cons_of_mem _ hrg)⟩

namespace MmStruct

/-- `get_free_vmrg_area`. No region stands for the return code `-1`. -/
def getFreeVmrgArea (mm : MmStruct) (vmaid size : BitVec 32) : Exec (Option VmRg × MmStruct) := do
  let (k, curVma) ← deref (← mm.getVmaByNum vmaid)
  match bestFit (size.signExtend 64) 0 none curVma.vmFreergList with
  | none => return (none, mm)
  | some (i, best) =>
    let rgEnd := best.rgStart + size.signExtend 64
    let freerg := curVma.vmFreergList.set i { best with rgStart := rgEnd }
    return (some ⟨best.rgStart, rgEnd⟩, mm.setVma k { curVma with vmFreergList := freerg })

/-- `enlist_vm_freerg_list`, with its return code. The link of the new node is assigned only if the
list is not empty. -/
def enlistVmFreergList (mm : MmStruct) (rgElmt : VmRg) : Exec (Int × MmStruct) := do
  let area ← deref mm.mmap.head?
  if rgElmt.rgEnd ≤ rgElmt.rgStart then return (-1, mm)
  else if area.vmFreergList = [] then .error .uninitialized
  else return (0, mm.setVma 0 { area with vmFreergList := rgElmt :: area.vmFreergList })

/-- `symrgtbl[i] = rg`. -/
def setSymrg (mm : MmStruct) (i : Rgid) (rg : VmRg) : MmStruct :=
  { mm with symrgtbl := Function.update mm.symrgtbl i rg }

@[simp] theorem setSymrg_pgd (mm : MmStruct) (i : Rgid) (rg : VmRg) :
    (mm.setSymrg i rg).pgd = mm.pgd := rfl

@[simp] theorem setSymrg_mmap (mm : MmStruct) (i : Rgid) (rg : VmRg) :
    (mm.setSymrg i rg).mmap = mm.mmap := rfl

@[simp] theorem setSymrg_fifoPgn (mm : MmStruct) (i : Rgid) (rg : VmRg) :
    (mm.setSymrg i rg).fifoPgn = mm.fifoPgn := rfl

@[simp] theorem setSymrg_symrgtbl (mm : MmStruct) (i : Rgid) (rg : VmRg) :
    (mm.setSymrg i rg).symrgtbl = Function.update mm.symrgtbl i rg := rfl

@[simp] theorem getVmaByNum_setSymrg (mm : MmStruct) (i : Rgid) (rg : VmRg) (vmaid : BitVec 32) :
    (mm.setSymrg i rg).getVmaByNum vmaid = mm.getVmaByNum vmaid := rfl

end MmStruct

/-! ## Allocating and freeing -/

/-- The loop of `__free`: the region after it has swallowed every free region it touches, and the
free regions that are left. -/
def coalesce (newrg : VmRg) : List VmRg → VmRg × List VmRg
  | [] => (newrg, [])
  | cur :: rest =>
    if newrg.rgEnd = cur.rgStart then coalesce { newrg with rgEnd := cur.rgEnd } rest
    else if newrg.rgStart = cur.rgEnd then coalesce { newrg with rgStart := cur.rgStart } rest
    else
      let (rg, left) := coalesce newrg rest
      (rg, cur :: left)

namespace Pcb

/-- The second half of `__alloc`, for the area at place `k`: no free region was found. -/
def allocAtBrk (c : Pcb) (vmaid rgid size : BitVec 32) (k : Nat) (curVma : VmArea) :
    Exec (Int × Pcb) := do
  let incSz := pagingPageAlignsz size
  let oldSbrk := curVma.sbrk.setWidth 32
  let i ← symIndex rgid.toNat
  let rg : VmRg := ⟨oldSbrk.signExtend 64, (oldSbrk + size).signExtend 64⟩
  let c := { c with mm := c.mm.setSymrg i rg }
  let (ret, c) ←
    (if curVma.vmEnd - rg.rgStart + 1 < incSz.signExtend 64 then do
      let (ret, _, c) ← c.sysMemmap ⟨sysmemIncOp, vmaid, incSz⟩
      return (ret, c)
    else .ok (0, c) : Exec (Int × Pcb))
  if ret < 0 then return (-1, c)
  else do
    let curVma ← deref c.mm.mmap[k]?
    if rg.rgEnd < curVma.sbrk then do
      let (_, mm) ← c.mm.enlistVmFreergList ⟨rg.rgEnd, curVma.sbrk⟩
      return (0, { c with mm := mm })
    else return (0, c)

/-- `__alloc`, without the address it reports, which its caller only prints. -/
def alloc (c : Pcb) (vmaid rgid size : BitVec 32) : Exec (Int × Pcb) := do
  let (rgnode, mm) ← c.mm.getFreeVmrgArea vmaid size
  match rgnode with
  | some rgnode => do
    let i ← symIndex rgid.toNat
    return (0, { c with mm := mm.setSymrg i rgnode })
  | none => do
    let (k, curVma) ← deref (← c.mm.getVmaByNum vmaid)
    c.allocAtBrk vmaid rgid size k curVma

/-- `__free`. -/
def free (c : Pcb) (vmaid rgid : BitVec 32) : Exec (Int × Pcb) :=
  if rgid.toInt < 0 ∨ (pagingMaxSymtblSz : Int) ≤ rgid.toInt then .ok (-1, c)
  else do
    let i ← symIndex rgid.toNat
    let rg := c.mm.symrgtbl i
    if rg.rgEnd ≤ rg.rgStart then return (-1, c)
    else do
      let (k, vma) ← deref (← c.mm.getVmaByNum vmaid)
      let (newrg, left) := coalesce rg vma.vmFreergList
      let mm := c.mm.setVma k { vma with vmFreergList := newrg :: left }
      return (0, { c with mm := mm.setSymrg i ⟨0, 0⟩ })

/-- `liballoc`. The report it prints reads area 0. -/
def liballoc (c : Pcb) (size regIndex : BitVec 32) : Exec (Int × Pcb) := do
  let (val, c) ← c.alloc 0 regIndex size
  let _ ← deref (← c.mm.getVmaByNum 0)
  return (val, c)

/-- `libfree`. The report it prints reads area 0. -/
def libfree (c : Pcb) (regIndex : BitVec 32) : Exec (Int × Pcb) := do
  let (valFree, c) ← c.free 0 regIndex
  let _ ← deref (← c.mm.getVmaByNum 0)
  return (valFree, c)

/-! ### What the calls can do -/

/-- What `enlist_vm_freerg_list` can do: nothing, or put the region in front of the list. -/
theorem enlistVmFreergList_cases {mm mm' : MmStruct} {rg : VmRg} {r : Int}
    (h : mm.enlistVmFreergList rg = .ok (r, mm')) :
    mm' = mm ∨ ∃ area, mm.mmap[0]? = some area ∧
      mm' = mm.setVma 0 { area with vmFreergList := rg :: area.vmFreergList } := by
  obtain ⟨area, hhead, hbody⟩ := Exec.bind_eq_ok.mp h
  have hfirst : mm.mmap[0]? = some area := by
    rw [← List.head?_eq_getElem?]
    cases hmmap : mm.mmap.head? with
    | none =>
        rw [hmmap] at hhead
        cases hhead
    | some first =>
        rw [hmmap] at hhead
        cases hhead
        rfl
  split at hbody
  · cases hbody
    exact .inl rfl
  · split at hbody
    · cases hbody
    · cases hbody
      exact .inr ⟨area, hfirst, rfl⟩

/-- The second half of `__alloc`: the region is entered, the area may grow, and the slack may be
enlisted. -/
theorem allocAtBrk_split {c c' : Pcb} {vmaid rgid size : BitVec 32} {k : Nat} {curVma : VmArea}
    {r : Int} (h : c.allocAtBrk vmaid rgid size k curVma = .ok (r, c')) :
    ∃ i rg c₁, symIndex rgid.toNat = .ok i ∧
      (c₁ = { c with mm := c.mm.setSymrg i rg } ∨
        IncStep { c with mm := c.mm.setSymrg i rg } vmaid (pagingPageAlignsz size) c₁) ∧
      (c' = c₁ ∨ ∃ area left, c₁.mm.mmap[0]? = some area ∧
        c' = { c₁ with
          mm := c₁.mm.setVma 0 { area with vmFreergList := left :: area.vmFreergList } }) := by
  obtain ⟨i, hi, hbody⟩ := Exec.bind_eq_ok.mp h
  obtain ⟨⟨ret, c₁⟩, hgrow, hrest⟩ := Exec.bind_eq_ok.mp hbody
  refine ⟨i, ⟨(curVma.sbrk.setWidth 32).signExtend 64,
    (curVma.sbrk.setWidth 32 + size).signExtend 64⟩, c₁, hi, ?_, ?_⟩
  · split at hgrow
    · obtain ⟨⟨r', regs, c₂⟩, hcall, hret⟩ := Exec.bind_eq_ok.mp hgrow
      rw [sysMemmap_inc] at hcall
      obtain ⟨⟨r'', c₃⟩, hinc, hdone⟩ := Exec.bind_eq_ok.mp hcall
      cases hdone
      cases hret
      exact .inr (incVmaLimit_cases hinc)
    · cases hgrow
      exact .inl rfl
  · simp only at hrest
    split at hrest
    · cases hrest
      exact .inl rfl
    · obtain ⟨vma, -, hslack⟩ := Exec.bind_eq_ok.mp hrest
      split at hslack
      · obtain ⟨⟨r', mm'⟩, henlist, hret⟩ := Exec.bind_eq_ok.mp hslack
        cases hret
        rcases enlistVmFreergList_cases henlist with rfl | ⟨area, hfirst, rfl⟩
        · exact .inl rfl
        · exact .inr ⟨area, _, hfirst, rfl⟩
      · cases hslack
        exact .inl rfl

/-- What `__alloc` can do: carve the region off a free one, or make it at the break. -/
theorem alloc_cases {c c' : Pcb} {vmaid rgid size : BitVec 32} {r : Int}
    (h : c.alloc vmaid rgid size = .ok (r, c')) :
    ∃ k curVma, c.mm.getVmaByNum vmaid = .ok (some (k, curVma)) ∧
      ((bestFit (size.signExtend 64) 0 none curVma.vmFreergList = none ∧
          c.allocAtBrk vmaid rgid size k curVma = .ok (r, c')) ∨
        ∃ j best i, bestFit (size.signExtend 64) 0 none curVma.vmFreergList = some (j, best) ∧
          symIndex rgid.toNat = .ok i ∧
          c' = { c with
            mm := (c.mm.setVma k { curVma with
                vmFreergList := curVma.vmFreergList.set j
                  { best with rgStart := best.rgStart + size.signExtend 64 } }).setSymrg i
              ⟨best.rgStart, best.rgStart + size.signExtend 64⟩ }) := by
  obtain ⟨⟨rgnode, mm⟩, harea, hbody⟩ := Exec.bind_eq_ok.mp h
  obtain ⟨pvma, hvma, hderef⟩ := Exec.bind_eq_ok.mp harea
  obtain ⟨⟨k, curVma⟩, hcur, hsearch⟩ := Exec.bind_eq_ok.mp hderef
  cases pvma with
  | none => cases hcur
  | some found =>
      cases hcur
      refine ⟨k, curVma, hvma, ?_⟩
      simp only at hsearch
      split at hsearch
      · next hbest =>
        cases hsearch
        -- The area is looked up once more.
        simp only [hvma, deref, bind, Except.bind] at hbody
        exact .inl ⟨hbest, hbody⟩
      · next j best hbest =>
        cases hsearch
        obtain ⟨i, hi, hset⟩ := Exec.bind_eq_ok.mp hbody
        cases hset
        exact .inr ⟨j, best, i, hbest, hi, rfl⟩

/-- What `__free` can do: nothing, or merge the region into the free list. -/
theorem free_cases {c c' : Pcb} {vmaid rgid : BitVec 32} {r : Int}
    (h : c.free vmaid rgid = .ok (r, c')) :
    c' = c ∨ ∃ i k vma, symIndex rgid.toNat = .ok i ∧
      c.mm.getVmaByNum vmaid = .ok (some (k, vma)) ∧
      c' = { c with
        mm := (c.mm.setVma k { vma with
            vmFreergList := (coalesce (c.mm.symrgtbl i) vma.vmFreergList).1 ::
              (coalesce (c.mm.symrgtbl i) vma.vmFreergList).2 }).setSymrg i ⟨0, 0⟩ } := by
  unfold free at h
  split at h
  · cases h
    exact .inl rfl
  · obtain ⟨i, hi, hbody⟩ := Exec.bind_eq_ok.mp h
    simp only at hbody
    split at hbody
    · cases hbody
      exact .inl rfl
    · obtain ⟨pvma, hvma, hderef⟩ := Exec.bind_eq_ok.mp hbody
      obtain ⟨⟨k, vma⟩, hcur, hset⟩ := Exec.bind_eq_ok.mp hderef
      cases pvma with
      | none => cases hcur
      | some found =>
          cases hcur
          cases hset
          exact .inr ⟨i, k, vma, hi, hvma, rfl⟩

/-- The report of `liballoc` only reads. -/
theorem alloc_of_liballoc {c c' : Pcb} {size regIndex : BitVec 32} {r : Int}
    (h : c.liballoc size regIndex = .ok (r, c')) : c.alloc 0 regIndex size = .ok (r, c') := by
  obtain ⟨⟨val, c₁⟩, halloc, hreport⟩ := Exec.bind_eq_ok.mp h
  obtain ⟨pvma, -, hreport⟩ := Exec.bind_eq_ok.mp hreport
  obtain ⟨x, -, hret⟩ := Exec.bind_eq_ok.mp hreport
  cases hret
  exact halloc

/-- The report of `libfree` only reads. -/
theorem free_of_libfree {c c' : Pcb} {regIndex : BitVec 32} {r : Int}
    (h : c.libfree regIndex = .ok (r, c')) : c.free 0 regIndex = .ok (r, c') := by
  obtain ⟨⟨val, c₁⟩, hfree, hreport⟩ := Exec.bind_eq_ok.mp h
  obtain ⟨pvma, -, hreport⟩ := Exec.bind_eq_ok.mp hreport
  obtain ⟨x, -, hret⟩ := Exec.bind_eq_ok.mp hreport
  cases hret
  exact hfree

end Pcb

end Ossim.Mm
