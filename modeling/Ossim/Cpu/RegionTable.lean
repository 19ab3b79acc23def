import Ossim.Cpu.TableAccess

/-!
# Region numbers out of range (`libmem.c`)

Five kinds of instruction take the number of a region, and each path to `symrgtbl` guards it in its
own way. `__free` tests for `0 ≤ rgid < PAGING_MAX_SYMTBL_SZ`. `get_symrg_byid` tests for
`rgid > PAGING_MAX_SYMTBL_SZ`, so it lets the number 30 through, one past the end of the table.
`__read` and `__write` test its result for `NULL`, but `libwrite` has followed it before that. And
`__alloc` indexes the table without any test.

`TableSafe` says that `run` follows only pointers to entries of the table, and that it reports a
number out of range as an error. For which instructions this holds is `table_safe_iff`: `FREE` is
always safe, `READ` unless the number is 30, and the others only for the numbers of regions.
-/

namespace Ossim

open Mm Logged

namespace Inst

/-- The argument that is the number of a region. -/
def regionNumber (ins : Inst) : Option (BitVec 32) :=
  match ins.opcode with
  | .calc => none
  | .alloc => some ins.arg1
  | .free => some ins.arg0
  | .read => some ins.arg0
  | .write => some ins.arg1
  | .syscall => if ins.arg0 = Machine.sysKillallNr then some ins.arg1 else none

/-- The instructions whose region number is handled. -/
def RegionOk (ins : Inst) : Prop :=
  match ins.opcode with
  | .calc | .free => True
  | .alloc | .write => ins.arg1.toNat < pagingMaxSymtblSz
  | .read => ins.arg0.toNat ≠ pagingMaxSymtblSz
  | .syscall => ins.arg0 = Machine.sysKillallNr → ins.arg1.toNat < pagingMaxSymtblSz

end Inst

/-! ## The guards -/

/-- The test of `get_symrg_byid`, on the unsigned number. -/
theorem getSymrgByid_eq (rgid : BitVec 32) :
    MmStruct.getSymrgByid rgid = if rgid.toNat ≤ 30 then some rgid.toNat else none := by
  unfold MmStruct.getSymrgByid pagingMaxSymtblSz
  rw [BitVec.toInt_eq_toNat_cond]
  split <;> split <;> split <;> first | rfl | omega

/-- The test of `__free`, on the unsigned number. -/
theorem freeGuard_iff (rgid : BitVec 32) :
    (rgid.toInt < 0 ∨ (pagingMaxSymtblSz : Int) ≤ rgid.toInt) ↔ ¬ rgid.toNat < 30 := by
  unfold pagingMaxSymtblSz
  rw [BitVec.toInt_eq_toNat_cond]
  split <;> omega

theorem inTable_some {n : Nat} : InTable (some n) ↔ n < 30 := by
  unfold InTable pagingMaxSymtblSz
  simp

theorem symIndex_of_not_lt {n : Nat} (h : ¬ n < 30) : symIndex n = .error .outOfBounds := dif_neg h

/-! ## The pointers that are followed -/

namespace Traced

variable {P : Option Nat → Prop} {c : Pcb}

theorem touches_access {ptr : Option Nat} : Touches P (access ptr) ↔ P ptr := touches_emit _

theorem touches_alloc (vmaid rgid size : BitVec 32) :
    Touches (· = some rgid.toNat) (alloc c vmaid rgid size) := by
  unfold alloc
  simp only [touches_bind, touches_lift, true_and]
  rintro ⟨rgnode, mm⟩ -
  cases rgnode with
  | some rgnode => simp [touches_access]
  | none => simp [allocAtBrk, touches_access]

/-- `ALLOC` follows its number, whatever it is. -/
theorem touches_liballoc (size rgid : BitVec 32) :
    Touches (· = some rgid.toNat) (liballoc c size rgid) := by
  simp [liballoc, touches_alloc]

/-- `FREE` stays in the table. -/
theorem touches_libfree (rgid : BitVec 32) : Touches InTable (libfree c rgid) := by
  simp only [libfree, free, freeGuard_iff, touches_bind, touches_ite, touches_access, touches_pure,
    touches_lift, inTable_some, not_not]
  simp

/-- `READ` follows the numbers that `get_symrg_byid` lets through. -/
theorem touches_libread (rgid offset : BitVec 32) :
    Touches (fun ptr => ptr = some rgid.toNat ∧ rgid.toNat ≤ 30) (libread c rgid offset) := by
  simp only [libread, read, getSymrgByid_eq]
  by_cases hle : rgid.toNat ≤ 30 <;> simp [hle, touches_access]

/-- `WRITE` follows what `get_symrg_byid` returns. -/
theorem touches_libwrite (data : Byte) (rgid offset : BitVec 32) :
    Touches (· = MmStruct.getSymrgByid rgid) (libwrite c data rgid offset) := by
  simp [libwrite, write, touches_access]

theorem touches_readName (rgid : BitVec 32) (n : Nat) (procName : List Byte) (data : BitVec 32) :
    Touches (fun ptr => ptr = some rgid.toNat ∧ rgid.toNat ≤ 30) (readName rgid n c procName data) := by
  induction n generalizing c procName data with
  | zero => simp [readName]
  | succ n ih => simp [readName, touches_libread, ih]

variable {π : Type} [DecidableEq π] {pid : π → BitVec 32}

theorem touches_killLoop (procName : List Byte) (memrg : BitVec 32) (n idx : Nat) (q : Queue π)
    (mem : MemSystem π) : Touches InTable (killLoop pid procName memrg n idx q mem) := by
  induction n generalizing idx q mem with
  | zero => simp [killLoop]
  | succ n ih => simp [killLoop, killMem, touches_libfree, ih]

/-- A `killall` with a number in the table stays in it. -/
theorem touches_sysKillall {codeSize : π → Nat} {s : KillState π} {caller : π} {regs : ScRegs}
    (h : regs.a1.toNat < 30) : Touches InTable (sysKillall pid codeSize s caller regs) := by
  have hname : ∀ n c procName data, Touches InTable (readName regs.a1 n c procName data) := by
    intro n c procName data
    refine (touches_readName _ _ _ _).mono ?_
    rintro _ ⟨rfl, -⟩
    exact inTable_some.mpr h
  simp [sysKillall, hname, touches_killLoop]

end Traced

/-! ## The operations out of range -/

namespace Mm.Pcb

variable {c : Pcb} {x : Nat × VmArea}

/-- `ALLOC` never returns. -/
theorem liballoc_out_of_range {size rgid : BitVec 32} (h : ¬ rgid.toNat < 30) :
    ∃ e, c.liballoc size rgid = .error e := by
  have hindex := symIndex_of_not_lt h
  unfold liballoc alloc
  cases hget : c.mm.getFreeVmrgArea 0 size with
  | error e => exact ⟨e, rfl⟩
  | ok r =>
      obtain ⟨rgnode, mm⟩ := r
      cases rgnode with
      | some rgnode =>
          simp only [hindex]
          exact ⟨_, rfl⟩
      | none =>
          -- without a fitting region, the table is written before the heap grows
          cases hvma : c.mm.getVmaByNum 0 with
          | error e => exact ⟨e, rfl⟩
          | ok o =>
              cases o with
              | none => exact ⟨_, rfl⟩
              | some y =>
                  simp only [allocAtBrk, deref, hindex]
                  exact ⟨_, rfl⟩

/-- `FREE` reports the number. -/
theorem libfree_out_of_range (hvma : c.mm.getVmaByNum 0 = .ok (some x)) {rgid : BitVec 32}
    (h : ¬ rgid.toNat < 30) : c.libfree rgid = .ok (-1, c) := by
  unfold libfree free
  simp only [freeGuard_iff, if_pos h, hvma, deref, bind, Except.bind]
  rfl

/-- A read one past the end of the table. -/
theorem libread_past_end (hvma : c.mm.getVmaByNum 0 = .ok (some x)) {rgid : BitVec 32}
    (h : rgid.toNat = 30) (offset : BitVec 32) : c.libread rgid offset = .error .outOfBounds := by
  have hptr : MmStruct.getSymrgByid rgid = some 30 := by
    rw [getSymrgByid_eq, h]
    rfl
  have hindex : symIndex 30 = .error .outOfBounds := symIndex_of_not_lt (by omega)
  unfold libread read
  simp only [hptr, hvma, hindex, deref, bind, Except.bind]
  rfl

/-- `READ` reports a number behind that. -/
theorem libread_out_of_range (hvma : c.mm.getVmaByNum 0 = .ok (some x)) {rgid : BitVec 32}
    (h : 30 < rgid.toNat) (offset : BitVec 32) : c.libread rgid offset = .ok (-1, none, c) := by
  have hptr : MmStruct.getSymrgByid rgid = none := by
    rw [getSymrgByid_eq, if_neg (by omega)]
  unfold libread read
  simp only [hptr, hvma, bind, Except.bind]
  rfl

/-- `WRITE` never returns. -/
theorem libwrite_out_of_range {rgid : BitVec 32} (h : ¬ rgid.toNat < 30) (data : Byte)
    (offset : BitVec 32) : ∃ e, c.libwrite data rgid offset = .error e := by
  unfold libwrite
  rw [getSymrgByid_eq]
  split
  · simp only [deref, symIndex_of_not_lt h, bind, Except.bind]
    exact ⟨_, rfl⟩
  · exact ⟨_, rfl⟩

end Mm.Pcb

namespace Machine

variable {π : Type} [DecidableEq π] {pid : π → BitVec 32} {m m' : Machine π} {p : π} {ins : Inst}

/-- `killall` has one return code. -/
theorem killall_ret {codeSize : π → Nat} {s s' : KillState π} {regs : ScRegs} {r : Int}
    (h : sysKillall pid codeSize s p regs = .ok (r, s')) : r = 0 := by
  obtain ⟨⟨procName, c⟩, -, hloops⟩ := Exec.bind_eq_ok.mp h
  obtain ⟨⟨queue, mem⟩, -, hrest⟩ := Exec.bind_eq_ok.mp hloops
  obtain ⟨⟨rlist, mem'⟩, -, hret⟩ := Exec.bind_eq_ok.mp hrest
  cases hret
  rfl

/-- What `run` does with `killall`. -/
theorem execute_killall (hop : ins.opcode = .syscall) (hnr : ins.arg0 = sysKillallNr) :
    m.execute pid p ins = (do
      let (ret, s) ← sysKillall pid (fun p => (m.code p).length) ⟨m.sched, m.mem⟩ p
        ⟨ins.arg1, ins.arg2, ins.arg3⟩
      return (ret, { m with sched := s.sched, mem := s.mem })) := by
  unfold execute
  simp only [hop]
  unfold libsyscall syscall
  rw [hnr, if_neg (by decide), if_neg (by decide), if_pos rfl]

/-- What makes the accesses of an instruction to the region table safe: every pointer that `run`
follows is to an entry of the table, and a number out of range makes `run` return an error and move
`pc`, and nothing else. -/
structure TableSafe (pid : π → BitVec 32) (m : Machine π) (p : π) (ins : Inst) : Prop where
  inTable : Touches InTable (Traced.run pid m p)
  reported : ∀ r, ins.regionNumber = some r → ¬ r.toNat < pagingMaxSymtblSz →
    ∃ stat, stat ≠ 0 ∧ m.run pid p = .ok (stat, m.advance p)

/-- An operation that returns an error and changes nothing. -/
theorem reported_of_execute (hfetch : m.fetch p = some ins)
    (h : (m.advance p).execute pid p ins = .ok (-1, (m.advance p).withPcb p (m.mem.pcb p))) :
    ∃ stat, stat ≠ 0 ∧ m.run pid p = .ok (stat, m.advance p) := by
  refine ⟨-1, by decide, ?_⟩
  rw [run_of_fetch hfetch, h, withPcb, show m.mem.pcb p = (m.advance p).mem.pcb p from rfl,
    MemSystem.withPcb_pcb]

/-- The number of a `killall` is never reported. -/
theorem killall_not_reported (hop : ins.opcode = .syscall) (hnr : ins.arg0 = sysKillallNr)
    (hfetch : m.fetch p = some ins) {stat : Int} (h : m.run pid p = .ok (stat, m')) : stat = 0 := by
  rw [run_of_fetch hfetch, execute_killall hop hnr] at h
  obtain ⟨⟨r, s⟩, hkill, hret⟩ := Exec.bind_eq_ok.mp h
  cases hret
  exact killall_ret hkill

theorem regionOk_of_tableSafe {x : Nat × VmArea} (hvma : (m.mem.mm p).getVmaByNum 0 = .ok (some x))
    (hfetch : m.fetch p = some ins) (hsafe : TableSafe pid m p ins) : ins.RegionOk := by
  -- out of range, the program ends or nothing is reported
  have hreported : ∀ r, ins.regionNumber = some r → ¬ r.toNat < 30 →
      ∃ stat, stat ≠ 0 ∧ (m.advance p).execute pid p ins = .ok (stat, m.advance p) := by
    intro r hr hout
    obtain ⟨stat, hne, hrun⟩ := hsafe.reported r hr hout
    exact ⟨stat, hne, run_of_fetch hfetch ▸ hrun⟩
  unfold Inst.RegionOk
  unfold Inst.regionNumber at hreported
  cases hcode : ins.opcode with
  | alloc =>
      simp only [hcode, Option.some.injEq, forall_eq'] at hreported ⊢
      by_contra hout
      obtain ⟨stat, -, hrun⟩ := hreported hout
      obtain ⟨e, he⟩ : ∃ e, (m.mem.pcb p).liballoc ins.arg0 ins.arg1 = .error e :=
        Pcb.liballoc_out_of_range hout
      unfold execute at hrun
      simp only [hcode, advance_mem, he] at hrun
      cases hrun
  | free => trivial
  | read =>
      simp only [hcode, Option.some.injEq, forall_eq'] at hreported ⊢
      intro hpast
      obtain ⟨stat, -, hrun⟩ := hreported (by rw [hpast]; decide)
      unfold execute at hrun
      simp only [hcode, advance_mem, Pcb.libread_past_end (c := m.mem.pcb p) hvma hpast] at hrun
      cases hrun
  | write =>
      simp only [hcode, Option.some.injEq, forall_eq'] at hreported ⊢
      by_contra hout
      obtain ⟨stat, -, hrun⟩ := hreported hout
      obtain ⟨e, he⟩ := Pcb.libwrite_out_of_range (c := m.mem.pcb p) hout (ins.arg0.setWidth 8) ins.arg2
      unfold execute at hrun
      simp only [hcode, advance_mem, he] at hrun
      cases hrun
  | syscall =>
      simp only [hcode] at hreported ⊢
      intro hnr
      by_contra hout
      obtain ⟨stat, hne, hrun⟩ := hreported ins.arg1 (if_pos hnr) hout
      exact hne (killall_not_reported hcode hnr hfetch (run_of_fetch hfetch ▸ hrun))
  | _ => trivial

theorem touches_of_regionOk (hfetch : m.fetch p = some ins) (hok : ins.RegionOk) :
    Touches InTable (Traced.run pid m p) := by
  unfold Inst.RegionOk pagingMaxSymtblSz at hok
  unfold Traced.run
  simp only [hfetch]
  unfold Traced.execute
  cases hcode : ins.opcode with
  | alloc =>
      simp only [hcode] at hok
      have halloc : Touches InTable (Traced.liballoc (m.mem.pcb p) ins.arg0 ins.arg1) := by
        refine (Traced.touches_liballoc _ _).mono ?_
        rintro _ rfl
        exact inTable_some.mpr hok
      simp [halloc]
  | free => simp [Traced.touches_libfree]
  | read =>
      simp only [hcode] at hok
      have hread : Touches InTable (Traced.libread (m.mem.pcb p) ins.arg0 ins.arg1) := by
        refine (Traced.touches_libread _ _).mono ?_
        rintro _ ⟨rfl, hle⟩
        exact inTable_some.mpr (Nat.lt_of_le_of_ne hle hok)
      simp [hread]
  | write =>
      simp only [hcode] at hok
      have hwrite : Touches InTable
          (Traced.libwrite (m.mem.pcb p) (ins.arg0.setWidth 8) ins.arg1 ins.arg2) := by
        refine (Traced.touches_libwrite _ _ _).mono ?_
        rintro _ rfl
        rw [getSymrgByid_eq, if_pos (Nat.le_of_lt hok)]
        exact inTable_some.mpr hok
      simp [hwrite]
  | syscall =>
      simp only [hcode] at hok
      simp only [Traced.syscall, touches_ite, touches_bind, touches_pure, touches_lift]
      simp only [implies_true, and_true, true_and]
      intro _ _ hnr
      exact Traced.touches_sysKillall (hok hnr)
  | _ => simp

theorem reported_of_regionOk {x : Nat × VmArea} (hvma : (m.mem.mm p).getVmaByNum 0 = .ok (some x))
    (hfetch : m.fetch p = some ins) (hok : ins.RegionOk) {r : BitVec 32}
    (hr : ins.regionNumber = some r) (hout : ¬ r.toNat < pagingMaxSymtblSz) :
    ∃ stat, stat ≠ 0 ∧ m.run pid p = .ok (stat, m.advance p) := by
  unfold Inst.regionNumber at hr
  unfold Inst.RegionOk at hok
  unfold pagingMaxSymtblSz at hout
  cases hcode : ins.opcode with
  | alloc | write =>
      simp only [hcode, Option.some.injEq] at hr hok
      subst hr
      exact absurd hok hout
  | free =>
      simp only [hcode, Option.some.injEq] at hr
      subst hr
      apply reported_of_execute hfetch
      unfold execute
      simp only [hcode, advance_mem, Pcb.libfree_out_of_range (c := m.mem.pcb p) hvma hout]
      rfl
  | read =>
      simp only [hcode, Option.some.injEq] at hr hok
      subst hr
      have hgt : 30 < ins.arg0.toNat := by
        unfold pagingMaxSymtblSz at hok
        omega
      exact reported_of_execute hfetch
        (execute_read hcode (Pcb.libread_out_of_range (c := m.mem.pcb p) hvma hgt ins.arg1))
  | syscall =>
      simp only [hcode] at hr hok
      split at hr
      · next hnr =>
        cases hr
        exact absurd (hok hnr) hout
      · cases hr
  | _ =>
      simp only [hcode] at hr
      cases hr

/-- **When region numbers are handled.** For every process and every instruction at its `pc`: every
pointer into the region table that `run` follows is in the table, and a number out of range is
reported with nothing changed, exactly if the instruction is a `FREE`, a `READ` of a number other
than 30, or one whose number, if it has one, is that of a region. -/
theorem table_safe_iff {x : Nat × VmArea} (hvma : (m.mem.mm p).getVmaByNum 0 = .ok (some x))
    (hfetch : m.fetch p = some ins) : TableSafe pid m p ins ↔ ins.RegionOk :=
  ⟨fun hsafe => regionOk_of_tableSafe hvma hfetch hsafe,
    fun hok => ⟨touches_of_regionOk hfetch hok,
      fun _ hr hout => reported_of_regionOk hvma hfetch hok hr hout⟩⟩

/-- A process whose next instruction is `WRITE 1 31 0`. -/
def writeDemo : Machine Unit where
  sched := Sched.initScheduler
  mem := { mm := fun _ => freshMm, mram := oneFrame, activeMswp := fourFrames }
  regs := fun _ _ => 0
  pc := fun _ => 0
  code := fun _ => [⟨.write, 1, 31, 0, 0⟩]

theorem table_safe_iff_writeDemo :
    TableSafe (fun _ => 1) writeDemo () ⟨.write, 1, 31, 0, 0⟩ ↔
      (⟨.write, 1, 31, 0, 0⟩ : Inst).RegionOk :=
  table_safe_iff (m := writeDemo) (p := ()) rfl rfl

/-- It follows the null pointer that `get_symrg_byid` returns. -/
theorem write_follows_null :
    writeDemo.fetch () = some ⟨.write, 1, 31, 0, 0⟩ ∧
      ¬ TableSafe (fun _ => 1) writeDemo () ⟨.write, 1, 31, 0, 0⟩ ∧
      (Traced.run (fun _ => 1) writeDemo ()).log = [none] ∧
      writeDemo.run (fun _ => 1) () = .error .nullDeref := by
  refine ⟨rfl, ?_, rfl, rfl⟩
  intro hsafe
  have hlt : (31 : BitVec 32).toNat < pagingMaxSymtblSz :=
    regionOk_of_tableSafe (m := writeDemo) (p := ()) rfl rfl hsafe
  exact absurd hlt (by decide)

end Machine

end Ossim
