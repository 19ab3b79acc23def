import Ossim.Mm.Regions
import Ossim.Os.Basic

/-!
# Killing processes by name (`sys_killall.c`)

`__sys_killall` reads a name byte by byte from a region of the caller, up to a byte `-1` or the size
of the caller's program, and compares it with `"P<pid>"` for the processes in two arrays: it removes
every match, and gives the memory of the process back. The loop over an array steps back by one after
a removal, because the rest of the array has moved down.

The arrays are `running_list` and `caller->mlq_ready_queue`. The latter is the address of the first
of the `MAX_PRIO` level queues, and the loop reads it as one queue: processes waiting at any other
level are not looked at (`killall_complete_iff`).

Under `MM_PAGING` every process has an address space, so the test `p->mm != NULL` is left out.
-/

namespace Ossim

open Mm

variable {π : Type}

/-- What a system call of one process can reach: the scheduler and the memory of all processes. -/
structure KillState (π : Type) where
  sched : Sched π
  mem : MemSystem π

/-! ## The name -/

/-- A character in `char[]`. -/
def charByte (ch : Char) : Byte := BitVec.ofNat 8 ch.toNat

/-- `sprintf(name, "P%d", p->pid)`, up to the terminating zero. -/
def pidName (pid : BitVec 32) : List Byte :=
  charByte 'P' :: (if pid.toInt < 0 then [charByte '-'] else []) ++
    (Nat.toDigits 10 pid.toInt.natAbs).map charByte

/-- The string in an array, as `strcmp` reads it. -/
def cString (chars : List Byte) : List Byte := chars.takeWhile (· ≠ 0)

/-- `proc_name[i] = ch`, where `i` is the number of characters written so far. -/
def putChar (procName : List Byte) (ch : Byte) : Exec (List Byte) :=
  if procName.length < 100 then .ok (procName ++ [ch]) else .error .outOfBounds

namespace Mm.Pcb

/-- The loop that reads the name, with `n` rounds to go before `code->size < i`. Every round writes
one character, so `i` is the length of what has been written. A read that fails leaves `data` as it
was. -/
def readName (memrg : BitVec 32) : Nat → Pcb → List Byte → BitVec 32 → Exec (List Byte × Pcb)
  | 0, c, procName, _ => do return (← putChar procName 0, c)
  | n + 1, c, procName, data =>
    if data = -1 then .ok (procName, c)
    else do
      let (_, destination, c) ← c.libread memrg (BitVec.ofNat 32 procName.length)
      let data := destination.getD data
      let procName ← putChar procName (if data = -1 then 0 else data.setWidth 8)
      readName memrg n c procName data

end Mm.Pcb

/-! ## The processes -/

section killall

variable [DecidableEq π]

/-- `libfree(p, memrg); free_pcb_memph(p);`. -/
def Mm.MemSystem.killMem (m : MemSystem π) (p : π) (memrg : BitVec 32) : Exec (MemSystem π) := do
  let (_, c) ← (m.pcb p).libfree memrg
  return m.withPcb p c.freePcbMemph

/-- One of the two loops of `__sys_killall`, from index `idx` on, with `n` the number of entries
still to be looked at. -/
def killLoop (pid : π → BitVec 32) (procName : List Byte) (memrg : BitVec 32) :
    Nat → Nat → Queue π → MemSystem π → Exec (Queue π × MemSystem π)
  | 0, _, q, m => .ok (q, m)
  | n + 1, idx, q, m => do
    let p ← deref (q.proc idx)
    if pidName (pid p) = cString procName then do
      let m ← m.killMem p memrg
      let q ← q.removeFromQueue idx
      killLoop pid procName memrg n idx q m
    else killLoop pid procName memrg n (idx + 1) q m

/-- `__sys_killall`. -/
def sysKillall (pid : π → BitVec 32) (codeSize : π → Nat) (s : KillState π) (caller : π)
    (regs : ScRegs) : Exec (Int × KillState π) := do
  let memrg := regs.a1
  let (procName, c) ← Pcb.readName memrg (codeSize caller + 1) (s.mem.pcb caller) [] 0
  let mem := s.mem.withPcb caller c
  let queue := s.sched.mlqReadyQueue Os.levelZero
  let rlist := s.sched.runningList
  let (queue, mem) ← killLoop pid procName memrg queue.size 0 queue mem
  let (rlist, mem) ← killLoop pid procName memrg rlist.size 0 rlist mem
  return (0,
    { sched := { s.sched with
        mlqReadyQueue := Function.update s.sched.mlqReadyQueue Os.levelZero queue
        runningList := rlist }
      mem := mem })

/-- An entry of a queue whose process has the name. -/
def isTarget (pid : π → BitVec 32) (procName : List Byte) (o : Option π) : Bool :=
  o.any fun p => pidName (pid p) = cString procName

variable {pid : π → BitVec 32} {procName : List Byte} {memrg : BitVec 32}

/-- **A loop removes exactly the matches behind its index**, and keeps the order of the rest. -/
theorem killLoop_entries {n idx : Nat} {q q' : Queue π} {m m' : MemSystem π}
    (hn : n = q.size - idx) (h : killLoop pid procName memrg n idx q m = .ok (q', m')) :
    q'.entries = q.entries.take idx ++
      (q.entries.drop idx).filter fun o => !isTarget pid procName o := by
  induction n generalizing idx q m with
  | zero =>
      cases h
      have hle : q'.entries.length ≤ idx := by
        rw [Queue.length_entries]
        omega
      rw [List.take_of_length_le hle, List.drop_eq_nil_of_le hle]
      simp
  | succ n ih =>
      have hlt : idx < q.size := by omega
      have hlen : idx < q.entries.length := by rwa [Queue.length_entries]
      obtain ⟨p, hp, hbody⟩ := Exec.bind_eq_ok.mp h
      have hproc : q.proc idx = some p := by
        cases hcell : q.proc idx with
        | none =>
            rw [hcell] at hp
            cases hp
        | some x =>
            rw [hcell] at hp
            cases hp
            rfl
      have hentry : q.entries[idx] = some p := by
        have hget := Queue.getElem?_entries hlt
        rw [List.getElem?_eq_getElem hlen, hproc] at hget
        exact Option.some.inj hget
      have hsplit : q.entries.drop idx = some p :: q.entries.drop (idx + 1) := by
        rw [List.drop_eq_getElem_cons hlen, hentry]
      split at hbody
      · next hmatch =>
        -- the entry is removed, and the next one has moved to its place
        obtain ⟨m₁, -, hrest⟩ := Exec.bind_eq_ok.mp hbody
        obtain ⟨q₁, hremove, hloop⟩ := Exec.bind_eq_ok.mp hrest
        have hgap : q₁ = q.closeGap idx := by
          unfold Queue.removeFromQueue at hremove
          rw [if_neg (by omega)] at hremove
          cases hremove
          rfl
        subst hgap
        have hentries := Queue.entries_closeGap q hlt
        rw [List.eraseIdx_eq_take_drop_succ] at hentries
        have htake : (q.entries.take idx).length = idx := List.length_take_of_le hlen.le
        rw [ih (by rw [Queue.size_closeGap]; omega) hloop, hentries, hsplit,
          List.take_left' htake, List.drop_left' htake, List.filter_cons_of_neg]
        simp [isTarget, hmatch]
      · next hmatch =>
        have hkeep : (!isTarget pid procName (some p)) = true := by simp [isTarget, hmatch]
        have hnext : q.entries.take (idx + 1) = q.entries.take idx ++ [some p] := by
          rw [List.take_succ_eq_append_getElem hlen, hentry]
        rw [ih (by omega) hbody, hnext, hsplit, List.filter_cons, if_pos hkeep, List.append_assoc]
        rfl

variable {codeSize : π → Nat} {s s' : KillState π} {caller : π} {regs : ScRegs} {r : Int} {c : Pcb}

/-- What a call that returns has done to the queues. -/
theorem sysKillall_entries
    (hname : Pcb.readName regs.a1 (codeSize caller + 1) (s.mem.pcb caller) [] 0 = .ok (procName, c))
    (h : sysKillall pid codeSize s caller regs = .ok (r, s')) :
    s'.sched.waiting Os.levelZero =
        (s.sched.waiting Os.levelZero).filter (fun o => !isTarget pid procName o) ∧
      s'.sched.runningList.entries =
        s.sched.runningList.entries.filter (fun o => !isTarget pid procName o) ∧
      ∀ l, l ≠ Os.levelZero → s'.sched.waiting l = s.sched.waiting l := by
  obtain ⟨⟨procName', c'⟩, hname', hloops⟩ := Exec.bind_eq_ok.mp h
  cases hname.symm.trans hname'
  obtain ⟨⟨queue, mem⟩, hqueue, hrest⟩ := Exec.bind_eq_ok.mp hloops
  obtain ⟨⟨rlist, mem'⟩, hrlist, hret⟩ := Exec.bind_eq_ok.mp hrest
  cases hret
  have hready := killLoop_entries (by rw [Nat.sub_zero]) hqueue
  have hrunning := killLoop_entries (by rw [Nat.sub_zero]) hrlist
  rw [List.take_zero, List.drop_zero, List.nil_append] at hready hrunning
  refine ⟨?_, hrunning, ?_⟩
  · simpa only [Sched.waiting, Function.update_self] using hready
  · intro l hl
    simp only [Sched.waiting, Function.update_of_ne hl]

/-- **`killall` removes every match and nothing else exactly if no match waits above level 0.** -/
theorem killall_complete_iff
    (hname : Pcb.readName regs.a1 (codeSize caller + 1) (s.mem.pcb caller) [] 0 = .ok (procName, c))
    (h : sysKillall pid codeSize s caller regs = .ok (r, s')) :
    ((∀ l, s'.sched.waiting l =
          (s.sched.waiting l).filter fun o => !isTarget pid procName o) ∧
        s'.sched.runningList.entries =
          s.sched.runningList.entries.filter fun o => !isTarget pid procName o) ↔
      ∀ l, l ≠ Os.levelZero → ∀ p, some p ∈ s.sched.waiting l →
        pidName (pid p) ≠ cString procName := by
  obtain ⟨hready, hrunning, hothers⟩ := sysKillall_entries hname h
  constructor
  · rintro ⟨hall, -⟩ l hl p hp hmatch
    rw [← hothers l hl, hall l] at hp
    have hkept := (List.mem_filter.mp hp).2
    simp [isTarget, hmatch] at hkept
  · intro hnone
    refine ⟨?_, hrunning⟩
    intro l
    rcases eq_or_ne l Os.levelZero with rfl | hl
    · exact hready
    · rw [hothers l hl]
      refine (List.filter_eq_self.mpr ?_).symm
      intro o ho
      cases o with
      | none => rfl
      | some p => simp [isTarget, hnone l hl p ho]

end killall

/-- The program `true` has the bytes `P1` and `-1` in its region 1, and process `false` was added at
priority 5. -/
def killDemo : KillState Bool where
  sched := { (Sched.initScheduler : Sched Bool) with
    mlqReadyQueue := fun l => if (l : Nat) = 5 then Queue.zero.enqueue (some false) else Queue.zero
    runningList := Queue.zero.enqueue (some false) }
  mem :=
    { mm := fun _ =>
        { freshMm.mapPage (pagingPgn 0) 0 with
          symrgtbl := Function.update freshMm.symrgtbl rgidOne ⟨0, 3⟩ }
      mram := { ((oneFrame.setByte 0 80).setByte 1 49).setByte 2 255 with freeFpList := [] }
      activeMswp := fourFrames }

/-- Process `false` has number 1. -/
def demoPid (p : Bool) : BitVec 32 := if p then 2 else 1

/-- The call that looks for it: `killall` of the name in region 1. -/
theorem killDemo_runs :
    ∃ procName c r s', Pcb.readName 1 (10 + 1) (killDemo.mem.pcb true) [] 0 = .ok (procName, c) ∧
      sysKillall demoPid (fun _ => 10) killDemo true ⟨1, 0, 0⟩ = .ok (r, s') ∧
      cString procName = pidName (demoPid false) := by
  have hname : (Pcb.readName 1 (10 + 1) (killDemo.mem.pcb true) [] 0).toOption.any
      (fun x => decide (x.1 = [80, 49, 0])) = true := by
    decide +kernel
  have hrun : (sysKillall demoPid (fun _ => 10) killDemo true ⟨1, 0, 0⟩).toOption.isSome = true := by
    decide +kernel
  obtain ⟨⟨procName, c⟩, hok, hchars⟩ := (Option.any_eq_true _ _).mp hname
  obtain ⟨⟨r, s'⟩, hret⟩ := Option.isSome_iff_exists.mp hrun
  obtain rfl : procName = [80, 49, 0] := of_decide_eq_true hchars
  exact ⟨_, c, r, s', Exec.toOption_eq_some.mp hok, Exec.toOption_eq_some.mp hret, by decide⟩

theorem killall_complete_iff_demo :
    ∃ procName c r s', Pcb.readName 1 (10 + 1) (killDemo.mem.pcb true) [] 0 = .ok (procName, c) ∧
      sysKillall demoPid (fun _ => 10) killDemo true ⟨1, 0, 0⟩ = .ok (r, s') ∧
      (((∀ l, s'.sched.waiting l =
            (killDemo.sched.waiting l).filter fun o => !isTarget demoPid procName o) ∧
          s'.sched.runningList.entries =
            killDemo.sched.runningList.entries.filter fun o => !isTarget demoPid procName o) ↔
        ∀ l, l ≠ Os.levelZero → ∀ p, some p ∈ killDemo.sched.waiting l →
          pidName (demoPid p) ≠ cString procName) := by
  obtain ⟨procName, c, r, s', hname, hrun, -⟩ := killDemo_runs
  exact ⟨procName, c, r, s', hname, hrun, killall_complete_iff (by exact hname) hrun⟩

/-- Process `false` has the name, and still waits at level 5. -/
theorem killall_misses_level_five :
    ∃ procName c r s', Pcb.readName 1 (10 + 1) (killDemo.mem.pcb true) [] 0 = .ok (procName, c) ∧
      sysKillall demoPid (fun _ => 10) killDemo true ⟨1, 0, 0⟩ = .ok (r, s') ∧
      pidName (demoPid false) = cString procName ∧ ∃ l, some false ∈ s'.sched.waiting l := by
  obtain ⟨procName, c, r, s', hname, hrun, hmatch⟩ := killDemo_runs
  refine ⟨procName, c, r, s', hname, hrun, hmatch.symm, ⟨5, by decide⟩, ?_⟩
  rw [(sysKillall_entries (by exact hname) hrun).2.2 _ (by decide)]
  decide

end Ossim
