import Ossim.Loader.Load
import Ossim.Os.Ownership

/-!
# The configuration file (`os.c`)

`read_config` reads the time slot, the number of CPUs and the number of processes, then the sizes of the
memory devices, and then a start time, a name and a priority for every process. As in the loader, what
`fscanf` returns is not looked at: what was not read keeps the value it had.

`boot` is the way from the files to the first state: it reads the configuration, and loads the processes
in the order in which the loader thread does. That the files describe the system that runs is
`boot_runs`. A configuration without the sizes, as the versions before paging had it, is not read at all
(`readConfig_legacy`).
-/

namespace Ossim

open Scan

namespace Boot

/-- An entry of `ld_processes`. -/
structure LdProcess where
  path : List Char
  startTime : BitVec 64
  prio : BitVec 64
  deriving DecidableEq

/-- What `read_config` assigns. -/
structure ConfigFile where
  timeSlot : BitVec 32
  numCpus : BitVec 32
  numProcesses : BitVec 32
  memramsz : BitVec 32
  memswpsz : List (BitVec 32)
  processes : List LdProcess
  deriving DecidableEq

/-- What `malloc` has left in the arrays of `ld_processes`. -/
structure RawProcess where
  startTime : BitVec 64
  prio : BitVec 64

/-- The format of the first line. -/
def headerFormat : List Directive :=
  [.conv .signed, .space, .conv .signed, .space, .conv .signed, .space]

/-- The format of a process. -/
def processFormat : List Directive :=
  [.conv .unsigned, .space, .conv .word, .space, .conv .unsigned, .space]

/-- `"input/proc/"`. -/
def procDir : List Char := ['i', 'n', 'p', 'u', 't', '/', 'p', 'r', 'o', 'c', '/']

/-- `strcat` of a name behind the directory, in an array of 100 characters. -/
def procPath (proc : List Char) : Except Stop (List Char) :=
  if procDir.length + (cstr proc).length < 100 then .ok (procDir ++ cstr proc)
  else .error (.fault .outOfBounds)

/-- One round of the loop over the processes. -/
def readProcess (raw : RawProcess) (s : List Char) : Except Stop (LdProcess × List Char) := do
  let (xs, s) := scanf processFormat s
  let proc ← Load.readString 100 none (xs.drop 1)
  let path ← procPath (← initialized proc)
  return (⟨path, (numAt xs 0).getD raw.startTime, (numAt xs 2).getD raw.prio⟩, s)

/-- The loop over the processes, with `n` rounds to go. -/
def readProcesses (raw : Nat → RawProcess) : Nat → Nat → List Char → Except Stop (List LdProcess)
  | 0, _, _ => .ok []
  | n + 1, i, s => do
    let (process, s) ← readProcess (raw i) s
    return process :: (← readProcesses raw n (i + 1) s)

/-- The loop over the swap devices. The sizes are static variables, zero at the start. -/
def readSizes : Nat → List Char → List (BitVec 32) × List Char
  | 0, s => ([], s)
  | n + 1, s =>
    let (xs, s) := scanf [.conv .signed] s
    let (sizes, s) := readSizes n s
    (Load.arg 0 xs 0 :: sizes, s)

/-- `read_config`. -/
def readConfig (raw : Nat → RawProcess) (files : List Char → Option (List Char)) (path : List Char) :
    Except Stop ConfigFile :=
  match files path with
  | none => .error (.exit ("Cannot find configure file at ".toList ++ path ++ ['\n']))
  | some s => do
    let (xs, s) := scanf headerFormat s
    let (ms, s) := scanf [.conv .signed, .space] s
    let (sizes, s) := readSizes 4 s
    let (_, s) := scanf [.space] s
    let numProcesses := Load.arg 0 xs 2
    let processes ← readProcesses raw numProcesses.toInt.toNat 0 s
    return ⟨Load.arg 0 xs 0, Load.arg 0 xs 1, numProcesses, Load.arg 0 ms 0, sizes, processes⟩

/-- The calls of `load` in `ld_routine`, one for each process. -/
def loadAll (raw : Nat → Load.Raw) (files : List Char → Option (List Char)) :
    BitVec 32 → Nat → List LdProcess → Except Stop (List Load.Proc)
  | _, _, [] => .ok []
  | availPid, i, p :: ps => do
    let (proc, availPid) ← Load.load (raw i) files availPid p.path
    return proc :: (← loadAll raw files availPid (i + 1) ps)

/-- The system that `main` starts. `proc->prio` has 32 bits, the array has 64. -/
def system (c : ConfigFile) (procs : List Load.Proc) : Config where
  timeSlot := c.timeSlot.toInt
  numCpus := c.numCpus.toInt.toNat
  numProcesses := c.numProcesses.toInt.toNat
  startTime i := (c.processes[i]?.map fun p => p.startTime.toNat).getD 0
  prio i := (c.processes[i]?.map fun p => (p.prio.setWidth 32).toNat).getD 0
  code i := (procs[i]?.map fun p => p.text).getD []

/-- From the files to the system. The loader calls `load` while the system runs, one process after
another; it only reads files, so here the calls are made before. -/
def boot (rawProcess : Nat → RawProcess) (raw : Nat → Load.Raw)
    (files : List Char → Option (List Char)) (path : List Char) :
    Except Stop (ConfigFile × List Load.Proc) := do
  let c ← readConfig rawProcess files path
  let procs ← loadAll raw files 1 0 c.processes
  return (c, procs)

/-! ## What a configuration file says -/

/-- A process, as it is written. -/
structure Entry where
  startTime : BitVec 64
  name : List Char
  prio : BitVec 64

/-- A configuration, as it is written. -/
structure Setup where
  timeSlot : BitVec 64
  numCpus : BitVec 64
  numProcesses : BitVec 64
  ram : BitVec 64
  swap : List (BitVec 64)
  entries : List Entry

/-- The path of a process. -/
def Entry.path (e : Entry) : List Char := procDir ++ e.name

/-- What is read for a process. -/
def Entry.process (e : Entry) : LdProcess := ⟨e.path, e.startTime, e.prio⟩

/-- The text of a process. -/
def Entry.call (e : Entry) : List Directive × List Item :=
  (processFormat, [.num e.startTime, .str e.name, .num e.prio])

/-- The text of a configuration. -/
def Setup.calls (d : Setup) : List (List Directive × List Item) :=
  (headerFormat, [.num d.timeSlot, .num d.numCpus, .num d.numProcesses]) ::
    ([.conv .signed, .space], [.num d.ram]) ::
    (d.swap.map (fun v => ([.conv .signed], [.num v])) ++ d.entries.map Entry.call)

/-- A configuration file: its text, with all processes it promises, four swap devices, and names that fit
into the arrays. -/
structure Setup.Describes (d : Setup) (text : List Char) : Prop where
  texts : Texts d.calls text
  swap : d.swap.length = 4
  numProcesses : (d.numProcesses.setWidth 32).toInt = d.entries.length
  name : ∀ e ∈ d.entries, procDir.length + e.name.length < 100 ∧ '\x00' ∉ e.name

/-- What `read_config` makes of it. -/
def Setup.config (d : Setup) : ConfigFile :=
  ⟨d.timeSlot.setWidth 32, d.numCpus.setWidth 32, d.numProcesses.setWidth 32, d.ram.setWidth 32,
    d.swap.map (·.setWidth 32), d.entries.map Entry.process⟩

/-! ## Reading it -/

variable (raw : Nat → RawProcess) {files : List Char → Option (List Char)} {path : List Char}
  {text t s : List Char}

/-- The sizes of the swap devices. -/
theorem readSizes_texts {sizes : List (BitVec 64)} {calls : List (List Directive × List Item)}
    (h : Texts (sizes.map (fun v => ([.conv .signed], [.num v])) ++ calls) t)
    (hs : skipSpace s = skipSpace t) :
    (readSizes sizes.length s).1 = sizes.map (·.setWidth 32) ∧
      ∃ t', Texts calls t' ∧ skipSpace (readSizes sizes.length s).2 = skipSpace t' := by
  induction sizes generalizing s t with
  | nil => exact ⟨rfl, t, h, hs⟩
  | cons v sizes ih =>
      obtain ⟨hitems, t', hrest, hskip⟩ := h.scanf hs
      obtain ⟨hsizes, hend⟩ := ih hrest hskip
      refine ⟨?_, hend⟩
      simp only [List.length_cons, readSizes, hitems, hsizes]
      rfl

/-- One process. -/
theorem readProcess_texts {e : Entry} {calls : List (List Directive × List Item)} (r : RawProcess)
    (h : Texts (e.call :: calls) t) (hs : skipSpace s = skipSpace t)
    (hname : procDir.length + e.name.length < 100 ∧ '\x00' ∉ e.name) :
    ∃ s' t', readProcess r s = .ok (e.process, s') ∧ Texts calls t' ∧ skipSpace s' = skipSpace t' := by
  obtain ⟨hitems, t', hrest, hskip⟩ := h.scanf hs
  refine ⟨(scanf processFormat s).2, t', ?_, hrest, hskip⟩
  have hfits : e.name.length < 100 := by omega
  have hpath : procPath e.name = .ok e.path := by
    unfold procPath
    rw [Load.cstr_of_not_mem hname.2, if_pos hname.1]
    rfl
  unfold readProcess
  simp only [hitems, List.drop_succ_cons, List.drop_zero, Load.readString, if_pos hfits, initialized, hpath,
    bind, Except.bind, pure, Except.pure]
  rfl

/-- All processes. -/
theorem readProcesses_texts {entries : List Entry} (h : Texts (entries.map Entry.call) t)
    (hs : skipSpace s = skipSpace t)
    (hname : ∀ e ∈ entries, procDir.length + e.name.length < 100 ∧ '\x00' ∉ e.name) (i : Nat) :
    readProcesses raw entries.length i s = .ok (entries.map Entry.process) := by
  induction entries generalizing i s t with
  | nil => rfl
  | cons e entries ih =>
      obtain ⟨s', t', hread, hrest, hskip⟩ := readProcess_texts (raw i) h hs (hname e (by simp))
      have htail := ih hrest hskip (fun e' he' => hname e' (List.mem_cons_of_mem _ he')) (i + 1)
      simp only [List.length_cons, readProcesses, hread, htail, bind, Except.bind, pure, Except.pure,
        List.map_cons]

/-- **What is written is read.** -/
theorem readConfig_describes {d : Setup} (h : d.Describes text) (hfile : files path = some text) :
    readConfig raw files path = .ok d.config := by
  obtain ⟨hheader, t₁, htexts₁, hskip₁⟩ := h.texts.scanf rfl
  obtain ⟨hram, t₂, htexts₂, hskip₂⟩ := htexts₁.scanf hskip₁
  obtain ⟨hsizes, t₃, htexts₃, hskip₃⟩ := readSizes_texts htexts₂ hskip₂
  rw [h.swap] at hsizes hskip₃
  have hspace : ∀ s, skipSpace (scanf [.space] s).2 = skipSpace s := skipSpace_skipSpace
  have hskip := (hspace _).trans hskip₃
  have hprocesses := readProcesses_texts raw htexts₃ hskip h.name 0
  have hnum : (Load.arg 0 [.num d.timeSlot, .num d.numCpus, .num d.numProcesses] 2).toInt.toNat =
      d.entries.length := by
    rw [show Load.arg 0 [.num d.timeSlot, .num d.numCpus, .num d.numProcesses] 2 =
      d.numProcesses.setWidth 32 from rfl, h.numProcesses]
    rfl
  unfold readConfig
  simp only [hfile, hheader, hram, hsizes, hnum, hprocesses, bind, Except.bind, pure, Except.pure]
  rfl

/-- The loader's calls, for processes whose files describe programs. -/
theorem loadAll_describes (raw : Nat → Load.Raw) (prog : Nat → List Load.Stmt) {ps : List LdProcess}
    (availPid : BitVec 32) (i : Nat)
    (h : ∀ k p, ps[k]? = some p → ∃ priority ptext tail, files p.path = some ptext ∧
      Load.Describes priority (prog (i + k)).length (prog (i + k)) ptext tail) :
    ∃ procs, loadAll raw files availPid i ps = .ok procs ∧
      ∀ k < ps.length, ∃ p, procs[k]? = some p ∧ p.pid = availPid + BitVec.ofNat 32 k ∧
        p.text = Load.code (raw (i + k)).text 0 (prog (i + k)) := by
  induction ps generalizing availPid i with
  | nil => exact ⟨[], rfl, fun k hk => absurd hk (Nat.not_lt_zero k)⟩
  | cons p ps ih =>
      obtain ⟨priority, ptext, tail, hfile, hdesc⟩ := h 0 p rfl
      have hload := Load.load_describes (raw i) availPid hdesc hfile
      obtain ⟨procs, hall, hprocs⟩ := ih (availPid + 1) (i + 1) fun k q hq => by
        rw [show i + 1 + k = i + (k + 1) by omega]
        exact h (k + 1) q (by simpa using hq)
      refine ⟨_ :: procs, by simp only [loadAll, hload, hall, bind, Except.bind, pure, Except.pure]; rfl,
        fun k hk => ?_⟩
      cases k with
      | zero => exact ⟨_, rfl, by simp, rfl⟩
      | succ k =>
          obtain ⟨q, hq, hpid, htext⟩ := hprocs k (by simpa using hk)
          refine ⟨q, by simpa using hq, ?_, ?_⟩
          · rw [hpid, BitVec.add_assoc, Nat.add_comm k 1, BitVec.ofNat_add]
            rfl
          · rw [htext, show i + 1 + k = i + (k + 1) by omega]

/-- **From the files to the instructions.** If the configuration file is the text of a configuration and
the file of each of its processes describes a program, `boot` reads all of them; the processes get the
process numbers 1, 2, …, and whatever the threads do, what has been executed for a process is a beginning
of the program in its file. -/
theorem boot_runs (rawProc : Nat → Load.Raw) (prog : Nat → List Load.Stmt) {d : Setup}
    (h : d.Describes text) (hfile : files path = some text)
    (hprocs : ∀ i e, d.entries[i]? = some e → ∃ priority ptext tail, files e.path = some ptext ∧
      Load.Describes priority (prog i).length (prog i) ptext tail) :
    ∃ procs, boot raw rawProc files path = .ok (d.config, procs) ∧
      (∀ i < d.entries.length, ∃ p, procs[i]? = some p ∧ p.pid = BitVec.ofNat 32 (i + 1)) ∧
      ∀ as s, Steps Os.Step (Os.init (system d.config procs)) as s → ∀ i < d.entries.length,
        s.executed i = (Load.code (rawProc i).text 0 (prog i)).take (s.pc i) := by
  obtain ⟨procs, hall, hpids⟩ := loadAll_describes rawProc prog 1 0 fun k p
      (hp : (d.entries.map Entry.process)[k]? = some p) => by
      rw [List.getElem?_map, Option.map_eq_some_iff] at hp
      obtain ⟨e, he, rfl⟩ := hp
      rw [Nat.zero_add]
      exact hprocs k e he
  refine ⟨procs, ?_, fun i hi => ?_, fun as s hrun i hi => ?_⟩
  · unfold boot
    simp only [readConfig_describes raw h hfile, bind, Except.bind, pure, Except.pure]
    rw [show d.config.processes = d.entries.map Entry.process from rfl, hall]
  · obtain ⟨p, hp, hpid, -⟩ := hpids i (by simpa using hi)
    exact ⟨p, hp, by rw [hpid, Nat.add_comm i 1, BitVec.ofNat_add]; rfl⟩
  · obtain ⟨p, hp, -, htext⟩ := hpids i (by simpa using hi)
    have howned := Os.owned_of_steps hrun
    have hcode : (system d.config procs).code i = Load.code (rawProc i).text 0 (prog i) := by
      show (procs[i]?.map fun p => p.text).getD [] = _
      rw [hp, Option.map_some, Option.getD_some, htext, Nat.zero_add]
    rw [← hcode]
    exact howned.executed_eq i

/-! ## The usual layout -/

/-- A process, in a line. -/
def Entry.print (e : Entry) : List Char :=
  '\n' :: (fields [e.startTime.toNat] ++ (' ' :: (e.name ++ fields [e.prio.toNat])))

/-- The swap devices, in a line. -/
def printSwap (sizes : List (BitVec 64)) : List Char := sizes.flatMap fun v => fields [v.toNat]

/-- A configuration file. -/
def Setup.print (d : Setup) : List Char :=
  fields [d.timeSlot.toNat, d.numCpus.toNat, d.numProcesses.toNat] ++
    (('\n' :: fields [d.ram.toNat]) ++ (printSwap d.swap ++ (d.entries.flatMap Entry.print ++ ['\n'])))

theorem strtoul_toNat (x : BitVec 64) : strtoul false x.toNat = x := by
  unfold strtoul
  rw [if_pos x.isLt]
  simp

theorem strtol_toNat {x : BitVec 64} (h : x.toNat < 2 ^ 63) : strtol false x.toNat = x := by
  unfold strtol
  rw [if_neg (by decide), if_pos h]
  simp

theorem layout_process {e : Entry} (hne : e.name ≠ []) (hname : ∀ c ∈ e.name, isspace c = false) :
    Layout processFormat [.num e.startTime, .str e.name, .num e.prio] e.print := by
  have hblank : Spaces [' '] := fun c hc => by
    rw [List.mem_singleton.mp hc]
    decide
  have hnum : ∀ x : BitVec 64, Conv.unsigned.Reads (.num x) (Nat.toDigits 10 x.toNat) := fun x => by
    have hreads := Conv.Reads.unsigned (numeral_toDigits x.toNat)
    rwa [strtoul_toNat] at hreads
  have hprio : Layout [.space, .conv .unsigned, .space] [.num e.prio] (fields [e.prio.toNat]) :=
    .space (g := []) spaces_nil (.item hblank (hnum e.prio) (by simpa [fields] using ends_nil)
      (.space spaces_nil .nil))
  have hrest : Layout [.space, .conv .word, .space, .conv .unsigned, .space]
      [.str e.name, .num e.prio] (' ' :: (e.name ++ fields [e.prio.toNat])) :=
    .space (g := []) spaces_nil (.item hblank (.word hne hname)
      (by simpa using ends_fields [e.prio.toNat] ends_nil) hprio)
  have hstart := Layout.item hblank (hnum e.startTime) (ends_cons (by decide)) hrest
  have hline := Layout.prepend Load.newline_spaces hstart
  simpa [Entry.print, fields, processFormat] using hline

theorem ends_entries (entries : List Entry) : Ends (entries.flatMap Entry.print ++ ['\n']) := by
  cases entries <;> exact ends_cons (by decide)

theorem ends_swap (sizes : List (BitVec 64)) {t : List Char} (ht : Ends t) :
    Ends (printSwap sizes ++ t) := by
  cases sizes with
  | nil => exact ht
  | cons v sizes => exact ends_cons (by decide)

theorem texts_entries {entries : List Entry}
    (hname : ∀ e ∈ entries, e.name ≠ [] ∧ ∀ c ∈ e.name, isspace c = false) :
    Texts (entries.map Entry.call) (entries.flatMap Entry.print ++ ['\n']) := by
  induction entries with
  | nil => exact .nil (ends_cons (by decide))
  | cons e entries ih =>
      obtain ⟨hne, hspace⟩ := hname e (by simp)
      have hrest := ih fun e' he' => hname e' (List.mem_cons_of_mem _ he')
      have htexts := Texts.cons (layout_process hne hspace) (ends_entries entries) hrest
      simpa [Entry.call, List.append_assoc] using htexts

theorem texts_swap {sizes : List (BitVec 64)} {calls : List (List Directive × List Item)}
    (hsizes : ∀ v ∈ sizes, v.toNat < 2 ^ 63) (ht : Ends t) (h : Texts calls t) :
    Texts (sizes.map (fun v => ([.conv .signed], [.num v])) ++ calls) (printSwap sizes ++ t) := by
  induction sizes with
  | nil => exact h
  | cons v sizes ih =>
      have hrest := ih fun v' hv' => hsizes v' (List.mem_cons_of_mem _ hv')
      have hlayout := (layout_fields .signed (fun n => .num (strtol false n)) .signed [v.toNat]).2
      simp only [List.map_cons, List.map_nil, strtol_toNat (hsizes v (by simp))] at hlayout
      have htexts := Texts.cons hlayout (ends_swap sizes ht) hrest
      simpa [printSwap, List.append_assoc] using htexts

/-- **What is printed is a configuration file.** -/
theorem texts_print {d : Setup}
    (hnums : ∀ v ∈ d.timeSlot :: d.numCpus :: d.numProcesses :: d.ram :: d.swap, v.toNat < 2 ^ 63)
    (hname : ∀ e ∈ d.entries, e.name ≠ [] ∧ ∀ c ∈ e.name, isspace c = false) :
    Texts d.calls d.print := by
  have hswap := texts_swap (fun v (hv : v ∈ d.swap) => hnums v (by simp [hv]))
    (ends_entries d.entries) (texts_entries hname)
  have hread := fun {ds : List Char} {n : Nat} (h : Numeral ds n) => Conv.Reads.signed h
  have hram := (layout_fields .signed (fun n => .num (strtol false n)) hread [d.ram.toNat]).1
  have hheader := (layout_fields .signed (fun n => .num (strtol false n)) hread
    [d.timeSlot.toNat, d.numCpus.toNat, d.numProcesses.toNat]).1
  simp only [List.map_cons, List.map_nil, strtol_toNat (hnums d.ram (by simp))] at hram
  simp only [List.map_cons, List.map_nil, strtol_toNat (hnums d.timeSlot (by simp)),
    strtol_toNat (hnums d.numCpus (by simp)), strtol_toNat (hnums d.numProcesses (by simp))] at hheader
  exact .cons hheader (ends_cons (by decide))
    (.cons (Layout.prepend Load.newline_spaces hram) (ends_swap _ (ends_entries _)) hswap)

/-- The configuration `input/os_sc`, with one process, and its program. -/
abbrev osSc : Setup :=
  ⟨2, 1, 1, 2048, [16777216, 0, 0, 0], [⟨9, ['s', 'c', '3'], 15⟩]⟩

/-- The program of `input/proc/sc3`. -/
abbrev sc3 : List Load.Stmt := [⟨.syscall, [440, 1]⟩]

/-- The two files. -/
def osScFiles (path : List Char) : Option (List Char) :=
  if path = "input/os_sc".toList then some osSc.print
  else if path = procDir ++ ['s', 'c', '3'] then some (Load.print 20 1 sc3)
  else none

/-- The system call 440 is the only instruction that is ever executed. -/
theorem boot_runs_os_sc :
    ∃ procs, boot (fun _ => ⟨0, 0⟩) (fun _ => Load.zeroed) osScFiles "input/os_sc".toList =
        .ok (osSc.config, procs) ∧
      (∀ i < 1, ∃ p, procs[i]? = some p ∧ p.pid = BitVec.ofNat 32 (i + 1)) ∧
      ∀ as s, Steps Os.Step (Os.init (system osSc.config procs)) as s → ∀ i < 1,
        s.executed i = [⟨.syscall, 440, 1, 0, 0⟩].take (s.pc i) := by
  have hnums : ∀ v ∈ [(2 : BitVec 64), 1, 1, 2048, 16777216, 0, 0, 0], v.toNat < 2 ^ 63 := by
    simp
  have hname : ∀ c ∈ ['s', 'c', '3'], isspace c = false := fun c hc => by
    simpa using List.all_eq_true.mp (show ['s', 'c', '3'].all (!isspace ·) = true from rfl) c hc
  have htexts := texts_print (d := osSc) hnums fun e he => by
    rw [List.mem_singleton.mp he]
    exact ⟨by simp, hname⟩
  obtain ⟨tail, -, hsc3⟩ := Load.describes_print 20 1 sc3 (by decide) (by decide)
  have hfile : osScFiles (procDir ++ ['s', 'c', '3']) = some (Load.print 20 1 sc3) := by
    decide +kernel
  refine boot_runs (fun _ => ⟨0, 0⟩) (fun _ => Load.zeroed) (fun _ => sc3)
    ⟨htexts, rfl, rfl, by decide⟩ (if_pos rfl) fun i e he => by
      cases i with
      | zero =>
          cases he
          exact ⟨20, _, tail, hfile, hsc3⟩
      | succ i => simp at he

/-! ## The old format -/

/-- A configuration file without the sizes of the memory: behind the first line comes the start time of
the first process, and its name, which does not look like a number. -/
structure Legacy (numProcesses : BitVec 32) (text : List Char) : Prop where
  text : ∃ a b n h g w v g' c r, text = h ++ (g ++ (w ++ (g' ++ c :: r))) ∧
    Layout headerFormat [.num a, .num b, .num n] h ∧ n.setWidth 32 = numProcesses ∧
    Ends (g ++ (w ++ (g' ++ c :: r))) ∧ Spaces g ∧ Conv.signed.Reads (.num v) w ∧ Spaces g' ∧ g' ≠ [] ∧
    isspace c = false ∧ c ≠ '-' ∧ c ≠ '+' ∧ c.isDigit = false

/-- No number begins with the character, and no white space. -/
structure NotNumeric (c : Char) : Prop where
  space : isspace c = false
  minus : c ≠ '-'
  plus : c ≠ '+'
  digit : c.isDigit = false

section stuck

variable {c : Char} {r : List Char}

/-- A conversion of a number leaves such a character where it is. -/
theorem scanf_stuck (hc : NotNumeric c) (conv : Conv) (hconv : conv ≠ .word) (f : List Directive) :
    scanf (.conv conv :: f) (c :: r) = ([], c :: r) := by
  have hread : conv.read (c :: r) = (none, c :: r) := by
    unfold Conv.read
    simp only [skipSpace_of_not hc.space]
    cases conv with
    | unsigned => exact number_none hc.minus hc.plus hc.digit
    | signed => exact number_none hc.minus hc.plus hc.digit
    | word => exact absurd rfl hconv
  simp only [scanf, hread]

/-- The number behind the first line is taken for the size of the memory: in a file without the sizes,
this is the start time of the first process, and the input is then at its name. -/
theorem ram_of_start (hc : NotNumeric c) {s g w g' : List Char} {v : BitVec 64}
    (hskip : skipSpace s = skipSpace (g ++ (w ++ (g' ++ c :: r)))) (hg : Spaces g)
    (hw : Conv.signed.Reads (.num v) w) (hg' : Spaces g') (hne : g' ≠ []) :
    scanf [.conv .signed, .space] s = ([.num v], c :: r) := by
  simp only [scanf, Conv.read_congr .signed hskip, Conv.read_append hg hw (hg'.ends_append (.inl hne)),
    skipSpace_append hg', skipSpace_of_not hc.space]

/-- The sizes of the swap devices stay what they were, and the input stays at the name. -/
theorem readSizes_stuck (hc : NotNumeric c) (k : Nat) :
    readSizes k (c :: r) = (List.replicate k 0, c :: r) := by
  induction k with
  | zero => rfl
  | succ k ih =>
      simp only [readSizes, scanf_stuck hc .signed (by decide), ih]
      rfl

/-- Neither a start time nor a name is read, and the path is made of an array that nothing was written
to. -/
theorem readProcess_stuck (hc : NotNumeric c) (raw : RawProcess) :
    readProcess raw (c :: r) = .error (.fault .uninitialized) := by
  unfold readProcess processFormat
  rw [scanf_stuck hc .unsigned (by decide)]
  rfl

end stuck

/-- **A configuration without the sizes of the memory is not read.** The start time of the first process is
taken for the size of the memory, and the conversions stop at its name for good: the name of no process is
read, and the path is made of an array that nothing was written to. -/
theorem readConfig_legacy {numProcesses : BitVec 32} (h : Legacy numProcesses text)
    (hsome : 0 < numProcesses.toInt) (hfile : files path = some text) :
    readConfig raw files path = .error (.fault .uninitialized) := by
  obtain ⟨a, b, n, header, g, w, v, g', c, r, rfl, hheader, rfl, hends, hg, hw, hg', hne, hspace, hminus,
    hplus, hdigit⟩ := h.text
  have hc : NotNumeric c := ⟨hspace, hminus, hplus, hdigit⟩
  obtain ⟨hitems, hskip⟩ := scanf_layout hheader hends
  have hram := ram_of_start hc hskip hg hw hg' hne
  have hrest : (scanf [.space] (c :: r)).2 = c :: r := skipSpace_of_not hspace
  obtain ⟨k, hk⟩ : ∃ k, (n.setWidth 32).toInt.toNat = k + 1 :=
    ⟨(n.setWidth 32).toInt.toNat - 1, by omega⟩
  have hnum : (Load.arg 0 [.num a, .num b, .num n] 2).toInt.toNat = k + 1 := hk
  unfold readConfig
  simp only [hfile, hitems, hram, readSizes_stuck hc, hrest, hnum, readProcesses, readProcess_stuck hc, bind,
    Except.bind]

/-- The first two lines of the configuration `input/sched_0`: two processes and no memory. -/
theorem readConfig_legacy_sched :
    readConfig (fun _ => ⟨0, 0⟩)
      (fun _ => some ['2', ' ', '1', ' ', '2', '\n', '0', ' ', 's', '0', ' ', '4', '\n']) [] =
      .error (.fault .uninitialized) := by
  have hdigit : ∀ c : Char, c.isDigit = true → ∀ n, Nat.ofDigitChars 10 [c] 0 = n →
      Conv.signed.Reads (.num (strtol false n)) [c] := fun c hc n hn =>
    .signed ⟨by simp, fun c' hc' => by rwa [List.mem_singleton.mp hc'], hn⟩
  have hblank : Spaces [' '] := fun c hc => by
    rw [List.mem_singleton.mp hc]
    decide
  have hheader : Layout headerFormat
      [.num (strtol false 2), .num (strtol false 1), .num (strtol false 2)]
      ['2', ' ', '1', ' ', '2'] :=
    .item (g := []) (w := ['2']) spaces_nil (hdigit '2' (by decide) 2 rfl) (ends_cons (by decide))
      (.space (g := [' ']) hblank
        (.item (g := []) (w := ['1']) spaces_nil (hdigit '1' (by decide) 1 rfl)
          (ends_cons (by decide))
          (.space (g := [' ']) hblank
            (.item (g := []) (w := ['2']) spaces_nil (hdigit '2' (by decide) 2 rfl) ends_nil
              (.space (g := []) (t := []) spaces_nil .nil)))))
  have htext : Legacy 2 ['2', ' ', '1', ' ', '2', '\n', '0', ' ', 's', '0', ' ', '4', '\n'] :=
    ⟨_, _, _, ['2', ' ', '1', ' ', '2'], ['\n'], ['0'], _, [' '], 's', ['0', ' ', '4', '\n'], rfl,
      hheader, by decide, ends_cons (by decide), Load.newline_spaces,
      hdigit '0' (by decide) 0 rfl, hblank, by decide, by decide, by decide, by decide, by decide⟩
  exact readConfig_legacy (fun _ => ⟨0, 0⟩) htext (by decide) rfl

end Boot

end Ossim
