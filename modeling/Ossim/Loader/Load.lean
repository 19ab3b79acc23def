import Ossim.Basic
import Ossim.Library.Scan

/-!
# Process descriptions (`loader.c`)

A process description is a text: the priority, the number of instructions, and the instructions, one after
another. `load` reads it with `fscanf`, and does not look at what `fscanf` returns. So what it makes of a
text that is not well formed depends on what its variables held before: `opcode` and `buf` keep their
contents, and an argument that was not read is what `malloc` left there.

`Body` says which texts describe a program, with any white space. What `load` does with such a text is
`loadText_body`, whatever comes after it: the text may end there (`load_describes`), or too early
(`load_truncated`), or go on with a word that is no opcode (`load_unknown`).
-/

namespace Ossim

open Scan

/-- The ways in which the program can end while it reads its files. -/
inductive Stop where
  /-- `exit(1)`, with what was printed before. -/
  | exit (output : List Char)
  | fault (f : Fault)
  deriving DecidableEq

/-- A local variable that is read. -/
def initialized {α : Type} : Option α → Except Stop α
  | some a => .ok a
  | none => .error (.fault .uninitialized)

/-- The string in an array, up to its terminating zero. -/
def cstr (w : List Char) : List Char := w.takeWhile (· ≠ '\x00')

namespace Load

/-- `OPT_CALC` and the others. -/
def opt : Opcode → List Char
  | .calc => ['c', 'a', 'l', 'c']
  | .alloc => ['a', 'l', 'l', 'o', 'c']
  | .free => ['f', 'r', 'e', 'e']
  | .read => ['r', 'e', 'a', 'd']
  | .write => ['w', 'r', 'i', 't', 'e']
  | .syscall => ['s', 'y', 's', 'c', 'a', 'l', 'l']

/-- `get_opcode`. -/
def getOpcode (w : List Char) : Except Stop Opcode :=
  if w = opt .calc then .ok .calc
  else if w = opt .alloc then .ok .alloc
  else if w = opt .free then .ok .free
  else if w = opt .read then .ok .read
  else if w = opt .write then .ok .write
  else if w = opt .syscall then .ok .syscall
  else .error (.exit ("get_opcode return Opcode: ".toList ++ w ++ ['\n']))

/-- The formats of the arguments. -/
def format : Opcode → List Directive
  | .calc => []
  | .alloc => [.conv .unsigned, .space, .conv .unsigned, .space]
  | .free => [.conv .unsigned, .space]
  | .read | .write =>
    [.conv .unsigned, .space, .conv .unsigned, .space, .conv .unsigned, .space]
  | .syscall => [.conv .signed, .conv .signed, .conv .signed, .conv .signed]

/-- An argument, which keeps its value if nothing was read for it. -/
def arg (old : BitVec 32) (xs : List Item) (k : Nat) : BitVec 32 :=
  ((numAt xs k).map (·.setWidth 32)).getD old

/-- The arguments that were read, over what was in the memory. -/
def fillArgs (raw : Inst) (op : Opcode) (xs : List Item) : Inst :=
  ⟨op, arg raw.arg0 xs 0, arg raw.arg1 xs 1, arg raw.arg2 xs 2, arg raw.arg3 xs 3⟩

/-- `%s` into an array of `size` characters. -/
def readString (size : Nat) (old : Option (List Char)) (xs : List Item) :
    Except Stop (Option (List Char)) :=
  match xs with
  | .str w :: _ => if w.length < size then .ok (some w) else .error (.fault .outOfBounds)
  | _ => .ok old

/-- The arrays `opcode` and `buf`, as far as they have been assigned. -/
structure Locals where
  opcode : Option (List Char)
  buf : Option (List Char)

/-- One round of the loop, for the instruction that `malloc` has left as `raw`. -/
def loadInst (raw : Inst) (l : Locals) (s : List Char) :
    Except Stop (Inst × Locals × List Char) := do
  let (xs, s) := scanf [.conv .word] s
  let opcode ← readString 10 l.opcode xs
  let op ← getOpcode (cstr (← initialized opcode))
  match op with
  | .syscall =>
    let (buf, s) := match fgets 200 s with
      | some (line, s) => (some line, s)
      | none => (l.buf, s)
    let xs := (scanf (format op) (cstr (← initialized buf))).1
    return (fillArgs raw op xs, ⟨opcode, buf⟩, s)
  | op =>
    let (xs, s) := scanf (format op) s
    return (fillArgs raw op xs, ⟨opcode, l.buf⟩, s)

/-- The loop, with `n` rounds to go. -/
def loadText (raw : Nat → Inst) : Nat → Nat → Locals → List Char → Except Stop (List Inst)
  | 0, _, _, _ => .ok []
  | n + 1, i, l, s => do
    let (inst, l, s) ← loadInst (raw i) l s
    return inst :: (← loadText raw n (i + 1) l s)

/-- The part of `struct pcb_t` that `load` fills in. -/
structure Proc where
  pid : BitVec 32
  bp : BitVec 32
  pc : BitVec 32
  path : List Char
  priority : BitVec 32
  text : List Inst
  deriving DecidableEq

/-- What `malloc` has left in a new process control block and its code. -/
structure Raw where
  priority : BitVec 32
  text : Nat → Inst

/-- `load`. The file system is a function, and `availPid` the static variable. -/
def load (raw : Raw) (files : List Char → Option (List Char)) (availPid : BitVec 32)
    (path : List Char) : Except Stop (Proc × BitVec 32) :=
  match files path with
  | none =>
    .error (.exit ("Cannot find process description at '".toList ++ path ++ "'\n".toList))
  | some s => do
    let (xs, s) := scanf [.conv .unsigned, .space, .conv .unsigned] s
    let size ← initialized ((numAt xs 1).map (·.setWidth 32))
    let text ← loadText raw.text (BitVec.toNat size) 0 ⟨none, none⟩ s
    return (⟨availPid, 1024, 0, path.take 16, arg raw.priority xs 0, text⟩, availPid + 1)

/-! ## Which texts describe a program -/

/-- An instruction as it is written: the opcode and its arguments. -/
structure Stmt where
  opcode : Opcode
  args : List (BitVec 32)

/-- The instruction, over what was in the memory before. -/
def Stmt.inst (st : Stmt) (raw : Inst) : Inst :=
  ⟨st.opcode, st.args[0]?.getD raw.arg0, st.args[1]?.getD raw.arg1, st.args[2]?.getD raw.arg2,
    st.args[3]?.getD raw.arg3⟩

/-- A program in memory, from index `i` on. -/
def code (raw : Nat → Inst) : Nat → List Stmt → List Inst
  | _, [] => []
  | i, st :: prog => st.inst (raw i) :: code raw (i + 1) prog

/-- The argument that an item gives. -/
def value : Item → BitVec 32
  | .num v => v.setWidth 32
  | .str _ => 0

/-- The text `a` of the arguments of an instruction, with `t` after it. The arguments of a system call
are on the same line as its name. -/
inductive Stmt.Args : Stmt → List Char → List Char → Prop
  | fields {op : Opcode} {xs : List Item} {a t : List Char} (hop : op ≠ .syscall)
      (h : Layout (format op) xs a) (ht : Ends t) : Args ⟨op, xs.map value⟩ a t
  | line {xs : List Item} {a g t : List Char} (hlen : xs.length ≤ 4)
      (h : Layout (List.replicate xs.length (.conv .signed)) xs a) (hg : Spaces g)
      (hline : '\n' ∉ a ++ g) (hzero : '\x00' ∉ a ++ g) (hfits : (a ++ g).length < 199) :
      Args ⟨.syscall, xs.map value⟩ (a ++ g ++ ['\n']) t
  | lastLine {xs : List Item} {a g : List Char} (hlen : xs.length ≤ 4)
      (h : Layout (List.replicate xs.length (.conv .signed)) xs a) (hg : Spaces g)
      (hsome : a ++ g ≠ []) (hline : '\n' ∉ a ++ g) (hzero : '\x00' ∉ a ++ g)
      (hfits : (a ++ g).length ≤ 199) : Args ⟨.syscall, xs.map value⟩ (a ++ g) []

/-- The text of a program, up to `tail`. -/
inductive Body : List Stmt → List Char → List Char → Prop
  | nil (t : List Char) : Body [] t t
  | cons {st : Stmt} {prog : List Stmt} {g a t tail : List Char} (hg : Spaces g)
      (ha : st.Args a t) (hends : Ends (a ++ t)) (h : Body prog t tail) :
      Body (st :: prog) (g ++ (opt st.opcode ++ (a ++ t))) tail

/-- A process description: a priority, a number of instructions, and the text of a program up to
`tail`. -/
def Describes (priority : BitVec 32) (size : Nat) (prog : List Stmt) (text tail : List Char) : Prop :=
  ∃ p n h t, text = h ++ t ∧
    Layout [.conv .unsigned, .space, .conv .unsigned] [.num p, .num n] h ∧ Ends t ∧
    Body prog t tail ∧ p.setWidth 32 = priority ∧ (n.setWidth 32).toNat = size

/-- An instruction that is read again at the end of the file: its opcode is still in `opcode`, and the
line of a system call in `buf`. -/
def Stmt.again (st : Stmt) : Stmt :=
  if st.opcode = .syscall then st else ⟨st.opcode, []⟩

/-! ## Reading one instruction -/

section instruction

variable (raw : Inst) {l : Locals} {s : List Char}

theorem getOpcode_opt (op : Opcode) : getOpcode (opt op) = .ok op := by
  cases op <;> rfl

theorem cstr_of_not_mem {w : List Char} (h : '\x00' ∉ w) : cstr w = w := by
  refine List.takeWhile_eq_self_iff.mpr fun c hc => ?_
  rw [decide_eq_true_eq]
  rintro rfl
  exact h hc

/-- The word of an opcode fits into `opcode`. -/
theorem reads_opt (op : Opcode) :
    Conv.word.Reads (.str (opt op)) (opt op) ∧ (opt op).length < 10 ∧ cstr (opt op) = opt op := by
  cases op <;> exact ⟨reads_word_of_all (by simp [opt]) rfl, by decide, rfl⟩

/-- An opcode is read. -/
theorem scanf_opt {op : Opcode} {g a : List Char} (hg : Spaces g) (ha : Ends a)
    (hs : skipSpace s = skipSpace (g ++ (opt op ++ a))) :
    scanf [.conv .word] s = ([.str (opt op)], a) := by
  simp only [scanf, Conv.read_congr .word hs, Conv.read_append hg (reads_opt op).1 ha]

/-- The number of an item is what `arg` finds. -/
theorem fillArgs_eq (op : Opcode) {xs : List Item} (h : ∀ x ∈ xs, ∃ v, x = .num v) :
    fillArgs raw op xs = (⟨op, xs.map value⟩ : Stmt).inst raw := by
  have harg : ∀ (old : BitVec 32) (k : Nat), arg old xs k = ((xs.map value)[k]?).getD old := by
    intro old k
    rw [List.getElem?_map]
    unfold arg numAt
    cases hk : xs[k]? with
    | none => rfl
    | some x =>
        obtain ⟨v, rfl⟩ := h x (List.mem_of_getElem? hk)
        rfl
  simp only [fillArgs, Stmt.inst, harg]

/-- A format without `%s` reads numbers. -/
theorem nums_of_layout {f : List Directive} {xs : List Item} {t : List Char} (h : Layout f xs t)
    (hf : ∀ d, .conv d ∈ f → d ≠ .word) : ∀ x ∈ xs, ∃ v, x = .num v := by
  induction h with
  | nil => exact fun x hx => nomatch hx
  | space hg h ih => exact ih fun d hd => hf d (List.mem_cons_of_mem _ hd)
  | item hg hw ht h ih =>
      intro x hx
      rcases List.mem_cons.mp hx with rfl | hx
      · cases hw with
        | word => exact absurd rfl (hf _ (by simp))
        | unsigned | unsignedPlus | unsignedMinus | signed | signedPlus | signedMinus =>
            exact ⟨_, rfl⟩
      · exact ih (fun d hd => hf d (List.mem_cons_of_mem _ hd)) x hx

theorem ne_word_of_mem_format {op : Opcode} {d : Conv} (h : .conv d ∈ format op) : d ≠ .word := by
  cases op <;> simp [format] at h <;> simp [h]

/-- The arguments of a system call, in its line. -/
theorem scanf_line {xs : List Item} {a g : List Char} (hlen : xs.length ≤ 4)
    (h : Layout (List.replicate xs.length (.conv .signed)) xs a) (hg : Spaces g) :
    (scanf (format .syscall) (a ++ g)).1 = xs := by
  have hformat : format .syscall =
      List.replicate xs.length (.conv .signed) ++ List.replicate (4 - xs.length) (.conv .signed) := by
    rw [List.replicate_append_replicate, show xs.length + (4 - xs.length) = 4 by omega]
    rfl
  rw [hformat, (scanf_append h hg.ends _).1, (scanf_spaces _ hg).1, List.append_nil]

/-- What `opcode` and `buf` hold after an instruction has been read. -/
structure Holds (st : Stmt) (l : Locals) : Prop where
  opcode : l.opcode = some (opt st.opcode)
  buf : st.opcode = .syscall → ∃ b, l.buf = some b ∧
    ∀ raw, fillArgs raw .syscall (scanf (format .syscall) (cstr b)).1 = st.inst raw

theorem loadInst_line {xs : List Item} {a g g' b t t' : List Char} (hg : Spaces g)
    (hs : skipSpace s = skipSpace (g ++ (opt .syscall ++ b))) (hends : Ends b)
    (hfgets : fgets 200 b = some (t, t')) (hcstr : cstr t = a ++ g') (hlen : xs.length ≤ 4)
    (h : Layout (List.replicate xs.length (.conv .signed)) xs a) (hg' : Spaces g') :
    ∃ l', loadInst raw l s = .ok ((⟨.syscall, xs.map value⟩ : Stmt).inst raw, l', t') ∧
      Holds ⟨.syscall, xs.map value⟩ l' := by
  have hnums : ∀ x ∈ xs, ∃ v, x = .num v := nums_of_layout h fun d hd => by
    rw [List.mem_replicate] at hd
    obtain ⟨-, hd⟩ := hd
    cases hd
    decide
  have hargs : ∀ raw, fillArgs raw .syscall (scanf (format .syscall) (cstr t)).1 =
      (⟨.syscall, xs.map value⟩ : Stmt).inst raw := fun raw => by
    rw [hcstr, scanf_line hlen h hg', fillArgs_eq raw .syscall hnums]
  refine ⟨⟨some (opt .syscall), some t⟩, ?_, ⟨rfl, fun _ => ⟨t, rfl, hargs⟩⟩⟩
  obtain ⟨-, hfits, hcstr'⟩ := reads_opt .syscall
  simp only [loadInst, scanf_opt hg hends hs, readString, if_pos hfits, initialized, hcstr',
    getOpcode_opt, hfgets, hargs, bind, Except.bind, pure, Except.pure]

/-- **One instruction of a text.** -/
theorem loadInst_text {st : Stmt} {g a t : List Char} (hg : Spaces g) (ha : st.Args a t)
    (hends : Ends (a ++ t)) (hs : skipSpace s = skipSpace (g ++ (opt st.opcode ++ (a ++ t)))) :
    ∃ l' s', loadInst raw l s = .ok (st.inst raw, l', s') ∧ skipSpace s' = skipSpace t ∧
      Holds st l' := by
  cases ha with
  | @fields op xs a t hop h ht =>
      obtain ⟨-, hfits, hcstr⟩ := reads_opt op
      obtain ⟨hitems, hrest⟩ := scanf_layout h ht
      have hfill := fillArgs_eq raw op (nums_of_layout h fun d hd =>
        ne_word_of_mem_format hd)
      refine ⟨⟨some (opt op), l.buf⟩, (scanf (format op) (a ++ t)).2, ?_, hrest,
        rfl, fun h => absurd h hop⟩
      rw [← hfill, ← hitems]
      cases op with
      | syscall => exact absurd rfl hop
      | _ =>
          simp only [loadInst, scanf_opt hg hends hs, readString, if_pos hfits, initialized, hcstr,
            getOpcode_opt, bind, Except.bind, pure, Except.pure]
  | @line xs a g' t hlen h hg' hline hzero hfits =>
      have hfgets : fgets 200 (a ++ g' ++ ['\n'] ++ t) = some (a ++ g' ++ ['\n'], t) := by
        unfold fgets
        rw [if_neg (by simp), List.append_assoc (a ++ g'), List.singleton_append,
          line_append hline (by simpa using hfits)]
      have hcstr : cstr (a ++ g' ++ ['\n']) = a ++ (g' ++ ['\n']) := by
        rw [cstr_of_not_mem (by simpa using hzero), List.append_assoc]
      obtain ⟨l', hload, hholds⟩ := loadInst_line raw (l := l) hg hs hends hfgets hcstr hlen h
        (hg'.append (fun c hc => by
          rw [List.mem_singleton.mp hc]
          decide))
      exact ⟨l', t, hload, rfl, hholds⟩
  | @lastLine xs a g' hlen h hg' hsome hline hzero hfits =>
      have hfgets : fgets 200 (a ++ g' ++ []) = some (a ++ g', []) := by
        unfold fgets
        rw [List.append_nil, if_neg hsome, line_eof hline (by simpa using hfits)]
      obtain ⟨l', hload, hholds⟩ := loadInst_line raw (l := l) hg hs hends hfgets
        (cstr_of_not_mem hzero) hlen h hg'
      exact ⟨l', [], hload, rfl, hholds⟩

/-- At the end of the file the last instruction is read once more. -/
theorem loadInst_again {st : Stmt} (hs : Spaces s) (hl : Holds st l) :
    loadInst raw l s = .ok (st.again.inst raw, l, []) := by
  obtain ⟨hopcode, hbuf⟩ := hl
  obtain ⟨-, -, hcstr⟩ := reads_opt st.opcode
  have hscan : scanf [.conv .word] s = ([], []) := by simp only [scanf, Conv.read_spaces .word hs]
  obtain ⟨op, args⟩ := st
  obtain ⟨opcode, buf⟩ := l
  cases hopcode
  cases op with
  | syscall =>
      obtain ⟨b, rfl, hargs⟩ := hbuf rfl
      simp only [loadInst, hscan, readString, initialized, hcstr, getOpcode_opt, fgets, if_true, hargs,
        Stmt.again, bind, Except.bind, pure, Except.pure]
  | _ =>
      simp only [loadInst, hscan, readString, initialized, hcstr, getOpcode_opt, bind, Except.bind, pure,
        Except.pure]
      rfl

end instruction

/-! ## Reading a program -/

section program

variable (raw : Nat → Inst)

/-- **The text of a program.** The loop goes on behind it, with the last instruction in its arrays. -/
theorem loadText_body {prog : List Stmt} {t tail : List Char} (h : Body prog t tail) (n i : Nat)
    (l : Locals) {s : List Char} (hs : skipSpace s = skipSpace t) :
    ∃ l' s', skipSpace s' = skipSpace tail ∧ (prog = [] → l' = l) ∧
      (∀ st, prog.getLast? = some st → Holds st l') ∧
      loadText raw (prog.length + n) i l s =
        (loadText raw n (i + prog.length) l' s').map (code raw i prog ++ ·) := by
  induction h generalizing i l s with
  | nil t =>
      refine ⟨l, s, hs, fun _ => rfl, (fun st hst => nomatch hst), ?_⟩
      rw [List.length_nil, Nat.zero_add]
      cases loadText raw n i l s <;> rfl
  | @cons st prog g a t tail hg ha hends hbody ih =>
      obtain ⟨l₁, s₁, hload, hskip, hholds⟩ := loadInst_text (raw i) (l := l) hg ha hends hs
      obtain ⟨l', s', hskip', hnone, hlast, htext⟩ := ih (i + 1) l₁ hskip
      refine ⟨l', s', hskip', (fun hnil => nomatch hnil), fun st' hst' => ?_, ?_⟩
      · cases prog with
        | nil =>
            cases hst'
            rwa [hnone rfl]
        | cons st₁ prog => exact hlast st' (by simpa using hst')
      · have hlen : (st :: prog).length + n = (prog.length + n) + 1 := by
          rw [List.length_cons]
          omega
        rw [hlen]
        simp only [loadText, hload, htext, bind, Except.bind]
        rw [show i + (st :: prog).length = i + 1 + prog.length by rw [List.length_cons]; omega]
        cases loadText raw n (i + 1 + prog.length) l' s' <;> rfl

/-- The end of the file, again and again. -/
theorem loadText_again {st : Stmt} {l : Locals} {s : List Char} (hs : Spaces s) (hl : Holds st l)
    (n i : Nat) : loadText raw n i l s = .ok (code raw i (List.replicate n st.again)) := by
  induction n generalizing i s with
  | zero => rfl
  | succ n ih =>
      simp only [loadText, loadInst_again (raw i) hs hl, ih spaces_nil, List.replicate_succ, code, bind,
        Except.bind, pure, Except.pure]

theorem code_append (i : Nat) (prog prog' : List Stmt) :
    code raw i (prog ++ prog') = code raw i prog ++ code raw (i + prog.length) prog' := by
  induction prog generalizing i with
  | nil => rfl
  | cons st prog ih =>
      simp only [List.cons_append, code, ih, List.length_cons]
      rw [show i + 1 + prog.length = i + (prog.length + 1) by omega]

end program

variable {files : List Char → Option (List Char)} {path : List Char} {priority : BitVec 32}
  {prog : List Stmt} {text tail : List Char}

/-- **A described program is loaded up to its end**, and what is left of the loop reads what follows. -/
theorem load_body (raw : Raw) (availPid : BitVec 32) {n : Nat}
    (h : Describes priority (prog.length + n) prog text tail)
    (hfile : files path = some text) :
    ∃ l s, skipSpace s = skipSpace tail ∧ (∀ st, prog.getLast? = some st → Holds st l) ∧
      load raw files availPid path =
        (loadText raw.text n prog.length l s).map fun rest =>
          (⟨availPid, 1024, 0, path.take 16, priority, code raw.text 0 prog ++ rest⟩, availPid + 1) := by
  obtain ⟨p, m, header, t, rfl, hheader, ht, hbody, rfl, hsize⟩ := h
  obtain ⟨hitems, hrest⟩ := scanf_layout hheader ht
  obtain ⟨l, s, hskip, -, hlast, htext⟩ := loadText_body raw.text hbody n 0 ⟨none, none⟩ hrest
  refine ⟨l, s, hskip, hlast, ?_⟩
  rw [Nat.zero_add] at htext
  unfold load
  simp only [hfile, hitems]
  show (loadText raw.text (m.setWidth 32).toNat 0 ⟨none, none⟩ _ >>= _) = _
  rw [hsize, htext]
  cases loadText raw.text n prog.length l s <;> rfl

/-- **A description that ends too early.** If at least one instruction is there, and the number of
instructions is larger, the last one is repeated: `opcode` still holds its opcode, so no error is noticed.
Its arguments are what `malloc` has left in the memory, except for a system call, whose line is still in
`buf`. If the number is the right one, the program is loaded as it is written. -/
theorem load_truncated (raw : Raw) (availPid : BitVec 32) {n : Nat} {st : Stmt}
    (h : Describes priority (prog.length + n) prog text tail)
    (htail : Spaces tail) (hlast : prog.getLast? = some st) (hfile : files path = some text) :
    load raw files availPid path =
      .ok (⟨availPid, 1024, 0, path.take 16, priority,
        code raw.text 0 (prog ++ List.replicate n st.again)⟩, availPid + 1) := by
  obtain ⟨l, s, hskip, hholds, hload⟩ := load_body raw availPid h hfile
  have hs : Spaces s := spaces_of_skipSpace (hskip.trans (skipSpace_spaces htail))
  rw [hload, loadText_again raw.text hs (hholds st hlast), code_append, Nat.zero_add]
  rfl

/-- **What is written is loaded.** The instructions a text describes, in whatever layout, are the ones in
memory, in order, after which the text may go on. -/
theorem load_describes (raw : Raw) (availPid : BitVec 32)
    (h : Describes priority prog.length prog text tail)
    (hfile : files path = some text) :
    load raw files availPid path =
      .ok (⟨availPid, 1024, 0, path.take 16, priority, code raw.text 0 prog⟩, availPid + 1) := by
  obtain ⟨l, s, -, -, hload⟩ := load_body raw availPid (n := 0) h hfile
  rw [hload]
  simp only [loadText, Except.map, List.append_nil]

/-! ## The usual layout -/

/-- The arguments that belong to an opcode. -/
def Stmt.Fits (st : Stmt) : Prop :=
  match st.opcode with
  | .calc => st.args.length = 0
  | .alloc => st.args.length = 2
  | .free => st.args.length = 1
  | .read | .write => st.args.length = 3
  | .syscall => st.args.length ≤ 4

instance (st : Stmt) : Decidable st.Fits := by
  unfold Stmt.Fits
  split <;> infer_instance

/-- The instructions, one in a line. -/
def printBody : List Stmt → List Char
  | [] => []
  | st :: prog => opt st.opcode ++ (fields (st.args.map (·.toNat)) ++ '\n' :: printBody prog)

/-- A process description, with a number of instructions. -/
def print (priority : BitVec 32) (size : Nat) (prog : List Stmt) : List Char :=
  Nat.toDigits 10 priority.toNat ++ fields [size] ++ '\n' :: printBody prog

theorem setWidth_strtoul (x : BitVec 32) : (strtoul false x.toNat).setWidth 32 = x := by
  have hlt := x.isLt
  unfold strtoul
  rw [if_pos (by omega)]
  simp

theorem setWidth_strtol (x : BitVec 32) : (strtol false x.toNat).setWidth 32 = x := by
  have hlt := x.isLt
  unfold strtol
  rw [if_neg (by decide), if_pos (by omega)]
  simp

theorem newline_spaces : Spaces ['\n'] := fun c hc => by
  rw [List.mem_singleton.mp hc]
  decide

/-- The fields of an instruction other than a system call. -/
theorem layout_format {st : Stmt} (h : st.Fits) (hop : st.opcode ≠ .syscall) :
    Layout (format st.opcode) ((st.args.map (·.toNat)).map fun n => .num (strtoul false n))
      (fields (st.args.map (·.toNat))) := by
  have hlayout := (layout_fields .unsigned (fun n => .num (strtoul false n)) .unsigned
    (st.args.map (·.toNat))).1
  rw [List.length_map] at hlayout
  suffices hformat : format st.opcode =
      (List.replicate st.args.length [.conv .unsigned, .space]).flatten by rwa [hformat]
  obtain ⟨op, args⟩ := st
  cases op with
  | syscall => exact absurd rfl hop
  | _ =>
      simp only [Stmt.Fits] at h
      rw [h]
      rfl

/-- The line of a system call. -/
theorem args_print {args : List (BitVec 32)} (h : args.length ≤ 4) (t : List Char) :
    (⟨.syscall, args⟩ : Stmt).Args (fields (args.map (·.toNat)) ++ [] ++ ['\n']) t := by
  have hvalue : args =
      ((args.map (·.toNat)).map fun n => Item.num (strtol false n)).map value := by
    simp only [List.map_map]
    exact (List.map_id'' (fun x => setWidth_strtol x) args).symm
  have hlayout := (layout_fields .signed (fun n => .num (strtol false n)) .signed
    (args.map (·.toNat))).2
  have hlen := length_fields_le (args.map (·.toNat)) (w := 10) (by decide) fun n hn => by
    obtain ⟨x, -, rfl⟩ := List.mem_map.mp hn
    have := x.isLt
    omega
  rw [List.length_map] at hlen
  conv in (⟨.syscall, args⟩ : Stmt) => rw [hvalue]
  refine .line (by simpa using h) (by simpa using hlayout) spaces_nil ?_ ?_ ?_
  · rw [List.append_nil]
    exact not_mem_fields (by decide) (by decide) _
  · rw [List.append_nil]
    exact not_mem_fields (by decide) (by decide) _
  · rw [List.append_nil]
    omega

/-- What is printed is a text of the program. -/
theorem body_print (hfits : ∀ st ∈ prog, st.Fits) {g : List Char} (hg : Spaces g) :
    ∃ tail, Spaces tail ∧ Body prog (g ++ printBody prog) tail := by
  induction prog generalizing g with
  | nil => exact ⟨g, hg, by simpa [printBody] using Body.nil g⟩
  | cons st prog ih =>
      have hst := hfits st (by simp)
      have hrest := fun st' h => hfits st' (List.mem_cons_of_mem st h)
      by_cases hop : st.opcode = .syscall
      · obtain ⟨tail, htail, hbody⟩ := ih hrest spaces_nil
        obtain ⟨op, args⟩ := st
        cases hop
        have hargs := args_print hst (printBody prog)
        refine ⟨tail, htail, ?_⟩
        have hends : Ends (fields (args.map (·.toNat)) ++ [] ++ ['\n'] ++ printBody prog) := by
          rw [List.append_nil, List.append_assoc]
          exact ends_fields _ (ends_cons (by decide))
        have htext := Body.cons hg hargs hends hbody
        simpa [printBody] using htext
      · obtain ⟨tail, htail, hbody⟩ := ih hrest newline_spaces
        refine ⟨tail, htail, ?_⟩
        have hends : Ends ('\n' :: printBody prog) := ends_cons (by decide)
        have hvalue : st.args =
            ((st.args.map (·.toNat)).map fun n => Item.num (strtoul false n)).map value := by
          simp only [List.map_map]
          exact (List.map_id'' (fun x => setWidth_strtoul x) st.args).symm
        have hargs : st.Args (fields (st.args.map (·.toNat))) ('\n' :: printBody prog) := by
          have hfields := Stmt.Args.fields hop (layout_format hst hop) hends
          rwa [← hvalue] at hfields
        exact Body.cons hg hargs (ends_fields _ hends) hbody

/-- **What is printed is a description of the program.** -/
theorem describes_print (priority : BitVec 32) (size : Nat) (prog : List Stmt)
    (hsize : size < 2 ^ 32) (hfits : ∀ st ∈ prog, st.Fits) :
    ∃ tail, Spaces tail ∧ Describes priority size prog (print priority size prog) tail := by
  obtain ⟨tail, htail, hbody⟩ := body_print hfits newline_spaces
  refine ⟨tail, htail, strtoul false priority.toNat, strtoul false size,
    Nat.toDigits 10 priority.toNat ++ fields [size], '\n' :: printBody prog, rfl, ?_,
    ends_cons (by decide), hbody, setWidth_strtoul priority, ?_⟩
  · have hfields := (layout_fields .unsigned (fun n => .num (strtoul false n)) .unsigned [size]).2
    exact .item (g := []) spaces_nil (.unsigned (numeral_toDigits _)) (by
      simpa using ends_fields [size] ends_nil) (.space (g := []) spaces_nil hfields)
  · unfold strtoul
    rw [if_pos (by omega)]
    simpa using hsize

/-- The memory before anything is loaded. -/
def zeroed : Raw := ⟨0, fun _ => ⟨.calc, 0, 0, 0, 0⟩⟩

/-- The program of `input/proc/m0s`. -/
abbrev m0s : List Stmt :=
  [⟨.alloc, [300, 0]⟩, ⟨.alloc, [100, 1]⟩, ⟨.free, [0]⟩, ⟨.alloc, [100, 2]⟩, ⟨.write, [102, 1, 20]⟩,
    ⟨.write, [1, 2, 1000]⟩]

example : print 1 6 m0s =
    "1 6\nalloc 300 0\nalloc 100 1\nfree 0\nalloc 100 2\nwrite 102 1 20\nwrite 1 2 1000\n".toList := by
  decide +kernel

/-- The process description `input/proc/m0s`. -/
theorem load_describes_m0s :
    load zeroed (fun _ => some (print 1 6 m0s)) 1 "input/proc/m0s".toList =
      .ok (⟨1, 1024, 0, "input/proc/m0s".toList, 1, code zeroed.text 0 m0s⟩, 2) := by
  obtain ⟨tail, -, htext⟩ := describes_print 1 6 m0s (by decide) (by decide)
  have hpath : "input/proc/m0s".toList.take 16 = "input/proc/m0s".toList := by decide +kernel
  have hload : load zeroed (fun _ => some (print 1 6 m0s)) 1 "input/proc/m0s".toList = _ :=
    load_describes zeroed 1 htext rfl
  rwa [hpath] at hload

/-- A description that promises four instructions and has two. -/
abbrev short : List Stmt := [⟨.alloc, [100, 1]⟩, ⟨.syscall, [101, 1]⟩]

/-- The system call is made three times. -/
theorem load_truncated_short :
    load zeroed (fun _ => some (print 1 4 short)) 1 [] =
      .ok (⟨1, 1024, 0, [], 1,
        [⟨.alloc, 100, 1, 0, 0⟩, ⟨.syscall, 101, 1, 0, 0⟩, ⟨.syscall, 101, 1, 0, 0⟩,
          ⟨.syscall, 101, 1, 0, 0⟩]⟩, 2) := by
  obtain ⟨tail, htail, htext⟩ := describes_print 1 4 short (by decide) (by decide)
  exact load_truncated zeroed 1 (n := 2) htext htail rfl rfl

end Load

end Ossim
