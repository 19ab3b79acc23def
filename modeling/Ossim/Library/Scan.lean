import Mathlib.Data.List.TakeWhile
import Mathlib.Data.Nat.Bitwise

/-!
# Formatted input

`fscanf`, `sscanf` and `fgets` on a stream of characters. A format is a list of directives. White space in
a format stands for any amount of white space, and a conversion skips the white space before it. The
conversions of one call stop at the first that fails; the ones before it have been assigned. So `scanf`
returns the items it has read, and what is left of the stream.

A text belongs to a format, through `Layout`, if it has an item for each conversion, with any white space
between them. `scanf_layout` is what reading such a text gives, wherever it stands in the stream.

Numbers are read as the C library reads them: `strtoul` and `strtol` give 64 bits, with a sign, and
saturate.
-/

namespace Scan

/-- `isspace`. -/
def isspace (c : Char) : Bool := c == ' ' || (9 ≤ c.toNat && c.toNat ≤ 13)

/-- White space in a format. -/
def skipSpace (s : List Char) : List Char := s.dropWhile isspace

/-- An optional sign. -/
def sign : List Char → Bool × List Char
  | '-' :: s => (true, s)
  | '+' :: s => (false, s)
  | s => (false, s)

/-- `strtoul`, for the sign and the magnitude of a number. -/
def strtoul (neg : Bool) (m : Nat) : BitVec 64 :=
  if m < 2 ^ 64 then (if neg then -BitVec.ofNat 64 m else BitVec.ofNat 64 m) else BitVec.allOnes 64

/-- `strtol`. -/
def strtol (neg : Bool) (m : Nat) : BitVec 64 :=
  if neg then (if m ≤ 2 ^ 63 then -BitVec.ofNat 64 m else BitVec.intMin 64)
  else if m < 2 ^ 63 then BitVec.ofNat 64 m else BitVec.intMax 64

/-- A conversion. -/
inductive Conv where
  /-- `%u` and `%lu`. -/
  | unsigned
  /-- `%d`. -/
  | signed
  /-- `%s`. -/
  | word
  deriving DecidableEq

/-- A directive of a format. -/
inductive Directive where
  | space
  | conv (d : Conv)

/-- What a conversion has read. -/
inductive Item where
  | num (v : BitVec 64)
  | str (w : List Char)
  deriving DecidableEq

/-- The number that was assigned to an argument of the call, if it came to that. -/
def numAt (xs : List Item) (k : Nat) : Option (BitVec 64) :=
  match xs[k]? with
  | some (.num v) => some v
  | _ => none

/-- A number: the sign is read, and then the digits. Without a digit the conversion fails. -/
def number (value : Bool → Nat → BitVec 64) (s : List Char) : Option Item × List Char :=
  let (neg, s) := sign s
  let digits := s.takeWhile Char.isDigit
  if digits = [] then (none, s)
  else (some (.num (value neg (Nat.ofDigitChars 10 digits 0))), s.dropWhile Char.isDigit)

/-- One conversion. -/
def Conv.read (d : Conv) (s : List Char) : Option Item × List Char :=
  let s := skipSpace s
  match d with
  | .unsigned => number strtoul s
  | .signed => number strtol s
  | .word =>
    let w := s.takeWhile (!isspace ·)
    if w = [] then (none, s) else (some (.str w), s.dropWhile (!isspace ·))

/-- `fscanf` and `sscanf`. -/
def scanf : List Directive → List Char → List Item × List Char
  | [], s => ([], s)
  | .space :: f, s => scanf f (skipSpace s)
  | .conv d :: f, s =>
    match d.read s with
    | (none, s) => ([], s)
    | (some x, s) =>
      let (xs, s) := scanf f s
      (x :: xs, s)

/-- The characters of a line, up to its end or the given number. -/
def line : Nat → List Char → List Char × List Char
  | 0, s => ([], s)
  | _ + 1, [] => ([], [])
  | n + 1, c :: s =>
    if c = '\n' then ([c], s)
    else
      let (l, s) := line n s
      (c :: l, s)

/-- `fgets` into an array of `n` characters; at the end of the file it returns `NULL`. -/
def fgets (n : Nat) (s : List Char) : Option (List Char × List Char) :=
  if s = [] then none else some (line (n - 1) s)

/-! ## White space -/

/-- Any amount of white space. -/
def Spaces (g : List Char) : Prop := ∀ c ∈ g, isspace c = true

/-- A token ends here. -/
def Ends (s : List Char) : Prop := ∀ c r, s = c :: r → isspace c = true

theorem ends_nil : Ends [] := fun _ _ h => nomatch h

theorem ends_cons {c : Char} {s : List Char} (h : isspace c = true) : Ends (c :: s) := by
  rintro _ _ ⟨⟩
  exact h

/-- White space and something after it end a token. -/
theorem Spaces.ends_append {g s : List Char} (hg : Spaces g) (h : g ≠ [] ∨ Ends s) : Ends (g ++ s) := by
  cases g with
  | nil => exact h.resolve_left (by simp)
  | cons c g => exact ends_cons (hg c (by simp))

theorem spaces_nil : Spaces [] := fun _ h => nomatch h

theorem Spaces.append {g g' : List Char} (hg : Spaces g) (hg' : Spaces g') : Spaces (g ++ g') :=
  fun c hc => (List.mem_append.mp hc).elim (hg c) (hg' c)

theorem Spaces.ends {g : List Char} (hg : Spaces g) : Ends g := by
  rintro c r rfl
  exact hg c (by simp)

@[simp] theorem skipSpace_skipSpace (s : List Char) : skipSpace (skipSpace s) = skipSpace s := by
  induction s with
  | nil => rfl
  | cons c s ih =>
      unfold skipSpace at ih ⊢
      by_cases hc : isspace c = true
      · simpa [hc] using ih
      · simp [hc]

theorem skipSpace_append {g s : List Char} (hg : Spaces g) : skipSpace (g ++ s) = skipSpace s :=
  List.dropWhile_append_of_pos hg

theorem skipSpace_spaces {g : List Char} (hg : Spaces g) : skipSpace g = [] := by
  simpa [skipSpace] using skipSpace_append (s := []) hg

theorem spaces_of_skipSpace {s : List Char} (h : skipSpace s = []) : Spaces s :=
  fun c hc => List.dropWhile_eq_nil_iff.mp h c hc

/-- Where a stream has no white space, nothing is skipped. -/
theorem skipSpace_of_not {c : Char} {s : List Char} (h : isspace c = false) :
    skipSpace (c :: s) = c :: s := by
  simp [skipSpace, h]

/-! ## Tokens -/

/-- A number in decimal digits, with zeros before it or not. -/
structure Numeral (ds : List Char) (n : Nat) : Prop where
  ne_nil : ds ≠ []
  digits : ∀ c ∈ ds, c.isDigit = true
  value : Nat.ofDigitChars 10 ds 0 = n

/-- The usual way to write a number. -/
theorem numeral_toDigits (n : Nat) : Numeral (Nat.toDigits 10 n) n where
  ne_nil h := by
    have hlen := Nat.length_toDigits_pos (b := 10) (n := n)
    rw [h] at hlen
    cases hlen
  digits _ hc := Nat.isDigit_of_mem_toDigits (by decide) (by decide) hc
  value := Nat.ofDigitChars_ten_toDigits

/-- The text of an item. -/
inductive Conv.Reads : Conv → Item → List Char → Prop
  | unsigned {ds : List Char} {n : Nat} (h : Numeral ds n) :
      Reads .unsigned (.num (strtoul false n)) ds
  | unsignedPlus {ds : List Char} {n : Nat} (h : Numeral ds n) :
      Reads .unsigned (.num (strtoul false n)) ('+' :: ds)
  | unsignedMinus {ds : List Char} {n : Nat} (h : Numeral ds n) :
      Reads .unsigned (.num (strtoul true n)) ('-' :: ds)
  | signed {ds : List Char} {n : Nat} (h : Numeral ds n) : Reads .signed (.num (strtol false n)) ds
  | signedPlus {ds : List Char} {n : Nat} (h : Numeral ds n) :
      Reads .signed (.num (strtol false n)) ('+' :: ds)
  | signedMinus {ds : List Char} {n : Nat} (h : Numeral ds n) :
      Reads .signed (.num (strtol true n)) ('-' :: ds)
  | word {w : List Char} (hne : w ≠ []) (h : ∀ c ∈ w, isspace c = false) : Reads .word (.str w) w

/-- A word, by inspection. -/
theorem reads_word_of_all {w : List Char} (hne : w ≠ []) (hall : w.all (!isspace ·) = true) :
    Conv.word.Reads (.str w) w :=
  .word hne fun c hc => by simpa using List.all_eq_true.mp hall c hc

theorem not_isspace_of_isDigit {c : Char} (h : c.isDigit = true) : isspace c = false := by
  simp only [Char.isDigit, Bool.and_eq_true, decide_eq_true_eq] at h
  have hge : 48 ≤ c.toNat := h.1
  have hne : c ≠ ' ' := by
    rintro rfl
    exact absurd hge (by decide)
  simp only [isspace, Bool.or_eq_false_iff, beq_eq_false_iff_ne, Bool.and_eq_false_iff,
    decide_eq_false_iff_not]
  exact ⟨hne, .inr (by omega)⟩

theorem not_isDigit_of_isspace {c : Char} (h : isspace c = true) : c.isDigit = false := by
  cases hd : c.isDigit with
  | false => rfl
  | true => cases h.symm.trans (not_isspace_of_isDigit hd)

/-- What is taken from a token and what follows it is the token. -/
theorem span_append {p : Char → Bool} {w s : List Char} (hw : ∀ c ∈ w, p c = true)
    (hs : ∀ c r, s = c :: r → p c = false) :
    (w ++ s).takeWhile p = w ∧ (w ++ s).dropWhile p = s := by
  have htake : s.takeWhile p = [] ∧ s.dropWhile p = s := by
    cases s with
    | nil => exact ⟨rfl, rfl⟩
    | cons c r => simp [hs c r rfl]
  rw [List.takeWhile_append_of_pos hw, List.dropWhile_append_of_pos hw, htake.1, htake.2]
  exact ⟨List.append_nil w, rfl⟩

theorem sign_of_numeral {ds s : List Char} {n : Nat} (h : Numeral ds n) :
    sign (ds ++ s) = (false, ds ++ s) := by
  obtain ⟨c, r, rfl⟩ := List.exists_cons_of_ne_nil h.ne_nil
  have hc := h.digits c (by simp)
  have hminus : c ≠ '-' := by
    rintro rfl
    exact absurd hc (by decide)
  have hplus : c ≠ '+' := by
    rintro rfl
    exact absurd hc (by decide)
  simp [sign, hminus, hplus]

/-- Digits, and something that is not one. -/
theorem number_numeral {value : Bool → Nat → BitVec 64} {t ds s : List Char} {n : Nat} {neg : Bool}
    (h : Numeral ds n) (hsign : sign t = (neg, ds ++ s)) (hs : Ends s) :
    number value t = (some (.num (value neg n)), s) := by
  obtain ⟨htake, hdrop⟩ := span_append h.digits fun c r hcr => not_isDigit_of_isspace (hs c r hcr)
  unfold number
  simp only [hsign, htake, hdrop, if_neg h.ne_nil, h.value]

/-- No white space at the beginning of a token. -/
theorem Conv.Reads.skipSpace_eq {d : Conv} {x : Item} {w s : List Char} (h : d.Reads x w) :
    skipSpace (w ++ s) = w ++ s := by
  have hdigits : ∀ {ds : List Char} {n : Nat}, Numeral ds n → skipSpace (ds ++ s) = ds ++ s :=
    fun hn => by
      obtain ⟨c, r, rfl⟩ := List.exists_cons_of_ne_nil hn.ne_nil
      exact skipSpace_of_not (not_isspace_of_isDigit (hn.digits c (by simp)))
  cases h with
  | unsigned hn | signed hn => exact hdigits hn
  | unsignedPlus | unsignedMinus | signedPlus | signedMinus => exact skipSpace_of_not (by decide)
  | word hne hw =>
      obtain ⟨c, r, rfl⟩ := List.exists_cons_of_ne_nil hne
      exact skipSpace_of_not (hw c (by simp))

/-- **Reading a token.** -/
theorem Conv.read_append {d : Conv} {x : Item} {g w s : List Char} (hg : Spaces g) (h : d.Reads x w)
    (hs : Ends s) : d.read (g ++ (w ++ s)) = (some x, s) := by
  have hskip : skipSpace (g ++ (w ++ s)) = w ++ s := by rw [skipSpace_append hg, h.skipSpace_eq]
  unfold Conv.read
  simp only [hskip]
  cases h with
  | unsigned hn => exact number_numeral hn (sign_of_numeral hn) hs
  | unsignedPlus hn => exact number_numeral hn rfl hs
  | unsignedMinus hn => exact number_numeral hn rfl hs
  | signed hn => exact number_numeral hn (sign_of_numeral hn) hs
  | signedPlus hn => exact number_numeral hn rfl hs
  | signedMinus hn => exact number_numeral hn rfl hs
  | word hne hw =>
      obtain ⟨htake, hdrop⟩ := span_append (p := (!isspace ·)) (w := w) (s := s)
        (fun c hc => by simp [hw c hc]) fun c r hcr => by simp [hs c r hcr]
      simp only [htake, hdrop, if_neg hne]

/-- A conversion does not see the white space before it. -/
theorem Conv.read_skipSpace (d : Conv) (s : List Char) : d.read (skipSpace s) = d.read s := by
  unfold Conv.read
  rw [skipSpace_skipSpace]

theorem Conv.read_congr (d : Conv) {s s' : List Char} (h : skipSpace s = skipSpace s') :
    d.read s = d.read s' := by
  rw [← d.read_skipSpace s, h, d.read_skipSpace]

/-- At the end of the file every conversion fails. -/
theorem Conv.read_spaces (d : Conv) {g : List Char} (hg : Spaces g) : d.read g = (none, []) := by
  unfold Conv.read
  simp only [skipSpace_spaces hg]
  cases d <;> rfl

/-! ## Formats -/

/-- A text with an item for each conversion of a format. -/
inductive Layout : List Directive → List Item → List Char → Prop
  | nil : Layout [] [] []
  | space {g t : List Char} {f : List Directive} {xs : List Item} (hg : Spaces g)
      (h : Layout f xs t) : Layout (.space :: f) xs (g ++ t)
  | item {d : Conv} {x : Item} {g w t : List Char} {f : List Directive} {xs : List Item}
      (hg : Spaces g) (hw : d.Reads x w) (ht : Ends t) (h : Layout f xs t) :
      Layout (.conv d :: f) (x :: xs) (g ++ (w ++ t))

/-- What follows a text ends its last token. -/
theorem ends_append {t s : List Char} (ht : Ends t) (hs : Ends s) : Ends (t ++ s) := by
  cases t with
  | nil => exact hs
  | cons c t => exact ends_cons (ht c t rfl)

/-- Numbers with a blank before each, as they are usually written. -/
def fields : List Nat → List Char
  | [] => []
  | n :: ns => ' ' :: (Nat.toDigits 10 n ++ fields ns)

theorem ends_fields (ns : List Nat) {t : List Char} (ht : Ends t) : Ends (fields ns ++ t) := by
  cases ns with
  | nil => exact ht
  | cons n ns => exact ends_cons (by decide)

/-- Fields are blanks and digits. -/
theorem not_mem_fields {c : Char} (hblank : c ≠ ' ') (hdigit : c.isDigit = false) (ns : List Nat) :
    c ∉ fields ns := by
  induction ns with
  | nil => exact List.not_mem_nil
  | cons n ns ih =>
      simp only [fields, List.mem_cons, List.mem_append, not_or]
      refine ⟨hblank, fun hc => ?_, ih⟩
      cases hdigit.symm.trans (Nat.isDigit_of_mem_toDigits (by decide) (by decide) hc)

theorem length_fields_le (ns : List Nat) {w : Nat} (hw : 0 < w) (h : ∀ n ∈ ns, n < 10 ^ w) :
    (fields ns).length ≤ (w + 1) * ns.length := by
  induction ns with
  | nil => exact Nat.zero_le _
  | cons n ns ih =>
      have hn := (Nat.length_toDigits_le_iff (by decide) hw).mpr (h n (by simp))
      have hns := ih fun m hm => h m (List.mem_cons_of_mem _ hm)
      simp only [fields, List.length_cons, List.length_append]
      rw [Nat.mul_succ]
      omega

/-- The format of fields, with white space after each number or not. -/
theorem layout_fields (d : Conv) (read : Nat → Item)
    (hread : ∀ {ds : List Char} {n : Nat}, Numeral ds n → d.Reads (read n) ds) (ns : List Nat) :
    Layout (List.replicate ns.length [.conv d, .space]).flatten (ns.map read) (fields ns) ∧
      Layout (List.replicate ns.length (.conv d)) (ns.map read) (fields ns) := by
  have hblank : Spaces [' '] := fun c hc => by
    rw [List.mem_singleton.mp hc]
    decide
  induction ns with
  | nil => exact ⟨.nil, .nil⟩
  | cons n ns ih =>
      have hends : Ends (fields ns) := by simpa using ends_fields ns ends_nil
      exact ⟨.item hblank (hread (numeral_toDigits n)) hends (.space spaces_nil ih.1),
        .item hblank (hread (numeral_toDigits n)) hends ih.2⟩

/-- More white space at the beginning. -/
theorem Layout.prepend {d : Directive} {f : List Directive} {xs : List Item} {g t : List Char}
    (hg : Spaces g) (h : Layout (d :: f) xs t) : Layout (d :: f) xs (g ++ t) := by
  cases h with
  | space hg' h =>
      rw [← List.append_assoc]
      exact .space (hg.append hg') h
  | item hg' hw ht h =>
      rw [← List.append_assoc]
      exact .item (hg.append hg') hw ht h

/-- White space before a stream makes no difference but for what is left of it. -/
theorem scanf_skipSpace (f : List Directive) (s : List Char) :
    (scanf f (skipSpace s)).1 = (scanf f s).1 ∧
      skipSpace (scanf f (skipSpace s)).2 = skipSpace (scanf f s).2 := by
  cases f with
  | nil => exact ⟨rfl, skipSpace_skipSpace s⟩
  | cons d f =>
      cases d with
      | space =>
          simp only [scanf, skipSpace_skipSpace]
          exact ⟨trivial, trivial⟩
      | conv d =>
          simp only [scanf, d.read_skipSpace]
          exact ⟨trivial, trivial⟩

/-- **Reading a text.** Every conversion gets its item, and the rest of the format goes on behind it. -/
theorem scanf_append {f : List Directive} {xs : List Item} {t s : List Char} (h : Layout f xs t)
    (hs : Ends s) (f' : List Directive) :
    (scanf (f ++ f') (t ++ s)).1 = xs ++ (scanf f' s).1 ∧
      skipSpace (scanf (f ++ f') (t ++ s)).2 = skipSpace (scanf f' s).2 := by
  induction h with
  | nil => exact ⟨rfl, rfl⟩
  | @space g t f xs hg h ih =>
      rw [List.append_assoc]
      simp only [List.cons_append, scanf, skipSpace_append hg]
      obtain ⟨hitems, hrest⟩ := scanf_skipSpace (f ++ f') (t ++ s)
      exact ⟨hitems.trans ih.1, hrest.trans ih.2⟩
  | @item d x g w t f xs hg hw ht h ih =>
      rw [List.append_assoc, List.append_assoc]
      simp only [List.cons_append, scanf, Conv.read_append hg hw (ends_append ht hs)]
      exact ⟨congrArg (x :: ·) ih.1, ih.2⟩

theorem scanf_layout {f : List Directive} {xs : List Item} {t s : List Char} (h : Layout f xs t)
    (hs : Ends s) :
    (scanf f (t ++ s)).1 = xs ∧ skipSpace (scanf f (t ++ s)).2 = skipSpace s := by
  have happend := scanf_append h hs []
  rwa [List.append_nil, show (scanf [] s).1 = [] from rfl, List.append_nil] at happend

theorem scanf_congr (f : List Directive) {s s' : List Char} (h : skipSpace s = skipSpace s') :
    (scanf f s).1 = (scanf f s').1 ∧ skipSpace (scanf f s).2 = skipSpace (scanf f s').2 := by
  obtain ⟨hitems, hrest⟩ := scanf_skipSpace f s
  obtain ⟨hitems', hrest'⟩ := scanf_skipSpace f s'
  rw [h] at hitems hrest
  exact ⟨hitems.symm.trans hitems', hrest.symm.trans hrest'⟩

/-- At the end of the file nothing is read. -/
theorem scanf_spaces (f : List Directive) {g : List Char} (hg : Spaces g) :
    (scanf f g).1 = [] ∧ Spaces (scanf f g).2 := by
  induction f generalizing g with
  | nil => exact ⟨rfl, hg⟩
  | cons d f ih =>
      cases d with
      | space =>
          simp only [scanf]
          exact ih (by rw [skipSpace_spaces hg]; exact spaces_nil)
      | conv d =>
          simp only [scanf, d.read_spaces hg]
          exact ⟨trivial, spaces_nil⟩

/-- A text for one call after another. -/
inductive Texts : List (List Directive × List Item) → List Char → Prop
  | nil {t : List Char} (ht : Ends t) : Texts [] t
  | cons {f : List Directive} {xs : List Item} {calls : List (List Directive × List Item)}
      {a t : List Char} (h : Layout f xs a) (ht : Ends t) (hrest : Texts calls t) :
      Texts ((f, xs) :: calls) (a ++ t)

/-- The first call reads its items, and leaves the text of the others. -/
theorem Texts.scanf {f : List Directive} {xs : List Item} {calls : List (List Directive × List Item)}
    {t s : List Char} (h : Texts ((f, xs) :: calls) t) (hs : skipSpace s = skipSpace t) :
    (scanf f s).1 = xs ∧ ∃ t', Texts calls t' ∧ skipSpace (scanf f s).2 = skipSpace t' := by
  cases h with
  | @cons _ _ _ a t hlayout ht hrest =>
      obtain ⟨hitems, hskip⟩ := scanf_layout hlayout ht
      obtain ⟨hitems', hskip'⟩ := scanf_congr f hs
      exact ⟨hitems'.trans hitems, t, hrest, hskip'.trans hskip⟩

/-- A character that begins no number stops a conversion, and stays in the stream. -/
theorem number_none {value : Bool → Nat → BitVec 64} {c : Char} {s : List Char} (hminus : c ≠ '-')
    (hplus : c ≠ '+') (hdigit : c.isDigit = false) : number value (c :: s) = (none, c :: s) := by
  simp [number, sign, hminus, hplus, hdigit]

/-! ## Lines -/

/-- A line that fits is read with its end. -/
theorem line_append {l s : List Char} {n : Nat} (hl : '\n' ∉ l) (hn : l.length < n) :
    line n (l ++ '\n' :: s) = (l ++ ['\n'], s) := by
  induction l generalizing n with
  | nil =>
      cases n with
      | zero => cases hn
      | succ n => simp [line]
  | cons c l ih =>
      cases n with
      | zero => cases hn
      | succ n =>
          have hc : c ≠ '\n' := fun h => hl (by simp [h])
          simp [line, hc, ih (fun h => hl (List.mem_cons_of_mem _ h)) (by simpa using hn)]

/-- The last line may lack its end. -/
theorem line_eof {l : List Char} {n : Nat} (hl : '\n' ∉ l) (hn : l.length ≤ n) :
    line n l = (l, []) := by
  induction l generalizing n with
  | nil => cases n <;> rfl
  | cons c l ih =>
      cases n with
      | zero => cases hn
      | succ n =>
          have hc : c ≠ '\n' := fun h => hl (by simp [h])
          simp [line, hc, ih (fun h => hl (List.mem_cons_of_mem _ h)) (by simpa using hn)]

end Scan
