import Ossim.Cpu.Read

/-!
# The name that `killall` looks for (`sys_killall.c`)

The name is read into `char proc_name[100]`, one byte a round, until the byte is `-1` or the number
of bytes is larger than the caller's program. Nothing compares it with the size of the array. A
round writes the byte it has read, and the last one of a name that did not end in time writes a zero
behind it; so a program of `size` instructions that names a region without a byte `-1` makes the
loop write to index `size + 1`.

`NameReads` are the reads of the loop, whatever they find and wherever the pages are. From them on
it is only counting: `readName_of_stop` and `readName_of_no_stop` are the two ways in which the loop
ends.
-/

namespace Ossim.Mm

namespace Pcb

/-- `data` before the loop reads byte `i`. -/
def dataBefore (data : Nat → BitVec 32) : Nat → BitVec 32
  | 0 => 0
  | i + 1 => data i

/-- The reads the loop makes up to index `size`: the states the process goes through, and the values
of `data` after each read. A read that fails leaves the value. -/
structure NameReads (c : Pcb) (memrg : BitVec 32) (size : Nat) (st : Nat → Pcb)
    (data : Nat → BitVec 32) : Prop where
  start : st 0 = c
  read : ∀ i ≤ size, (∀ j < i, data j ≠ -1) →
    ∃ r v, (st i).libread memrg (BitVec.ofNat 32 i) = .ok (r, v, st (i + 1)) ∧
      v.getD (dataBefore data i) = data i

/-- The character that the loop writes after a read. -/
def nameChar (data : BitVec 32) : Byte := if data = -1 then 0 else data.setWidth 8

/-- The first `i` characters of the name. -/
def nameChars (data : Nat → BitVec 32) (i : Nat) : List Byte :=
  (List.range i).map fun j => nameChar (data j)

@[simp] theorem length_nameChars (data : Nat → BitVec 32) (i : Nat) :
    (nameChars data i).length = i := by
  simp [nameChars]

theorem nameChars_succ (data : Nat → BitVec 32) (i : Nat) :
    nameChars data (i + 1) = nameChars data i ++ [nameChar (data i)] := by
  simp [nameChars, List.range_succ]

/-- The name is read safely: the loop returns without a write behind the array, the array has a zero
in it, and if the first byte `-1` is at `k`, the bytes before it and a zero are what has been
written. -/
def NameSafe (size : Nat) (data : Nat → BitVec 32) (result : Exec (List Byte × Pcb)) : Prop :=
  ∃ procName c', result = .ok (procName, c') ∧ procName.length ≤ 100 ∧ 0 ∈ procName ∧
    ∀ k < 100, k ≤ size → data k = -1 → (∀ j < k, data j ≠ -1) →
      procName.take k = (List.range k).map (fun j => (data j).setWidth 8) ∧ procName[k]? = some 0

variable {c : Pcb} {memrg : BitVec 32} {size : Nat} {st : Nat → Pcb} {data : Nat → BitVec 32}

/-! ## The loop -/

/-- One round. -/
theorem readName_succ (h : NameReads c memrg size st data) {i n : Nat} (hi : i ≤ size)
    (hno : ∀ j < i, data j ≠ -1) :
    readName memrg (n + 1) (st i) (nameChars data i) (dataBefore data i) =
      if i < 100 then readName memrg n (st (i + 1)) (nameChars data (i + 1)) (data i)
      else .error .outOfBounds := by
  obtain ⟨r, v, hread, hdata⟩ := h.read i hi hno
  have hbefore : dataBefore data i ≠ -1 := by
    cases i with
    | zero => exact show (0 : BitVec 32) ≠ -1 by decide
    | succ j => exact hno j (Nat.lt_succ_self j)
  have hput : putChar (nameChars data i) (nameChar (data i)) =
      if i < 100 then .ok (nameChars data (i + 1)) else .error .outOfBounds := by
    rw [putChar, length_nameChars, nameChars_succ]
  rw [nameChar] at hput
  simp only [readName, if_neg hbefore, length_nameChars, hread, hdata, hput, bind, Except.bind]
  by_cases hlt : i < 100
  · simp only [if_pos hlt]
  · simp only [if_neg hlt]

/-- The loop stops behind the first byte `-1`. -/
theorem readName_of_stop (h : NameReads c memrg size st data) {i n k : Nat} (hn : i + n = size + 1)
    (hik : i ≤ k) (hk : k < size) (hno : ∀ j < k, data j ≠ -1) (hstop : data k = -1) :
    readName memrg n (st i) (nameChars data i) (dataBefore data i) =
      if k < 100 then .ok (nameChars data (k + 1), st (k + 1)) else .error .outOfBounds := by
  induction n generalizing i with
  | zero => omega
  | succ n ih =>
      rw [readName_succ h (by omega) fun j hj => hno j (by omega)]
      rcases Nat.eq_or_lt_of_le hik with rfl | hlt
      · -- the next round looks at the byte and ends
        obtain ⟨m, rfl⟩ : ∃ m, n = m + 1 := ⟨n - 1, by omega⟩
        rw [readName, if_pos hstop]
      · have hrest : readName memrg n (st (i + 1)) (nameChars data (i + 1)) (data i) = _ :=
          ih (by omega) hlt
        rw [hrest]
        split <;> split <;> first | rfl | omega

/-- Without one before index `size` it goes on, and writes a zero behind the byte at `size`. -/
theorem readName_of_no_stop (h : NameReads c memrg size st data) {i n : Nat}
    (hn : i + n = size + 1) (hno : ∀ j < size, data j ≠ -1) :
    readName memrg n (st i) (nameChars data i) (dataBefore data i) =
      if size < 99 then .ok (nameChars data (size + 1) ++ [0], st (size + 1))
      else .error .outOfBounds := by
  induction n generalizing i with
  | zero =>
      obtain rfl : i = size + 1 := by omega
      have hput : putChar (nameChars data (size + 1)) 0 =
          if size + 1 < 100 then .ok (nameChars data (size + 1) ++ [0])
          else .error .outOfBounds := by
        rw [putChar, length_nameChars]
      simp only [readName, hput, bind, Except.bind]
      by_cases hlt : size < 99
      · rw [if_pos hlt, if_pos (by omega)]
        rfl
      · rw [if_neg hlt, if_neg (by omega)]
  | succ n ih =>
      rw [readName_succ h (by omega) fun j hj => hno j (by omega)]
      have hrest : readName memrg n (st (i + 1)) (nameChars data (i + 1)) (data i) = _ :=
        ih (by omega)
      rw [hrest]
      split <;> split <;> first | rfl | omega

/-! ## When it is safe -/

/-- The characters before the first byte `-1`, and what is written for it. -/
theorem nameChars_stop {k m : Nat} (hkm : k < m) (hno : ∀ j < k, data j ≠ -1)
    (hstop : data k = -1) :
    (nameChars data m).take k = (List.range k).map (fun j => (data j).setWidth 8) ∧
      (nameChars data m)[k]? = some 0 := by
  constructor
  · have htake : (List.range m).take k = List.range k := by
      rw [List.take_range, Nat.min_eq_left hkm.le]
    rw [nameChars, ← List.map_take, htake]
    refine List.map_congr_left fun j hj => ?_
    rw [nameChar, if_neg (hno j (List.mem_range.mp hj))]
  · rw [nameChars, List.getElem?_map, List.getElem?_range hkm, Option.map_some, nameChar,
      if_pos hstop]

/-- The first byte `-1` is only at one place. -/
theorem first_stop_unique {k k' : Nat} (hno : ∀ j < k, data j ≠ -1) (hstop : data k = -1)
    (hno' : ∀ j < k', data j ≠ -1) (hstop' : data k' = -1) : k' = k := by
  rcases Nat.lt_trichotomy k' k with hlt | rfl | hlt
  · exact absurd hstop' (hno k' hlt)
  · rfl
  · exact absurd hstop (hno' k hlt)

theorem not_nameSafe_error {e : Fault} : ¬ NameSafe size data (.error e) := by
  rintro ⟨procName, c', hok, -⟩
  cases hok

/-- A name that ends at its byte `-1` is safe. -/
theorem nameSafe_of_stop {k : Nat} {c' : Pcb} (hk : k < 100) (hno : ∀ j < k, data j ≠ -1)
    (hstop : data k = -1) : NameSafe size data (.ok (nameChars data (k + 1), c')) := by
  have hchars := nameChars_stop (Nat.lt_succ_self k) hno hstop
  refine ⟨_, c', rfl, ?_, List.mem_of_getElem? hchars.2, ?_⟩
  · rw [length_nameChars]
    exact hk
  · intro k' _ _ hstop' hno'
    obtain rfl := first_stop_unique hno hstop hno' hstop'
    exact hchars

/-- A name that runs up to the size of the program is safe if the array has room for it. -/
theorem nameSafe_of_no_stop {c' : Pcb} (hsize : size < 99) :
    NameSafe size data (.ok (nameChars data (size + 1) ++ [0], c')) := by
  refine ⟨_, c', rfl, ?_, List.mem_append_right _ List.mem_cons_self, ?_⟩
  · rw [List.length_append, length_nameChars, List.length_singleton]
    omega
  · intro k _ hk hstop hbefore
    have hlen : k < (nameChars data (size + 1)).length := by
      rw [length_nameChars]
      omega
    obtain ⟨htake, hzero⟩ := nameChars_stop (show k < size + 1 by omega) hbefore hstop
    rw [List.take_append_of_le_length hlen.le, List.getElem?_append_left hlen]
    exact ⟨htake, hzero⟩

/-- **The name is read safely exactly if the program has at most 98 instructions, or a byte `-1`
stands among the first 100 of the region and before the size of the program.** -/
theorem readName_safe_iff (h : NameReads c memrg size st data) :
    NameSafe size data (readName memrg (size + 1) c [] 0) ↔
      size ≤ 98 ∨ ∃ k < 100, k < size ∧ data k = -1 := by
  obtain rfl := h.start
  by_cases hex : ∃ k, k < size ∧ data k = -1
  · have hno : ∀ j < Nat.find hex, data j ≠ -1 := fun j hj heq =>
      Nat.find_min hex hj ⟨hj.trans (Nat.find_spec hex).1, heq⟩
    obtain ⟨hk, hstop⟩ := Nat.find_spec hex
    generalize Nat.find hex = k at hno hk hstop
    have hrun : readName memrg (size + 1) (st 0) [] 0 = _ :=
      readName_of_stop h (Nat.zero_add _) (Nat.zero_le k) hk hno hstop
    rw [hrun]
    by_cases hlt : k < 100
    · rw [if_pos hlt]
      exact ⟨fun _ => .inr ⟨k, hlt, hk, hstop⟩, fun _ => nameSafe_of_stop hlt hno hstop⟩
    · rw [if_neg hlt]
      refine ⟨fun hsafe => absurd hsafe not_nameSafe_error, ?_⟩
      rintro (hsize | ⟨k', hlt', -, hstop'⟩)
      · omega
      · exact absurd hstop' (hno k' (by omega))
  · have hno : ∀ j < size, data j ≠ -1 := fun j hj heq => hex ⟨j, hj, heq⟩
    have hrun : readName memrg (size + 1) (st 0) [] 0 = _ :=
      readName_of_no_stop h (Nat.zero_add _) hno
    rw [hrun]
    by_cases hlt : size < 99
    · rw [if_pos hlt]
      exact ⟨fun _ => .inl (by omega), fun _ => nameSafe_of_no_stop hlt⟩
    · rw [if_neg hlt]
      refine ⟨fun hsafe => absurd hsafe not_nameSafe_error, ?_⟩
      rintro (hsize | ⟨k, -, hk, hstop⟩)
      · omega
      · exact absurd hstop (hno k hk)

/-! ## Names in RAM -/

/-- Where the bytes of the region are in RAM, the loop reads them, and nothing changes. -/
theorem nameReads_of_byteReady {i : Rgid} (h : ∀ k ≤ size, c.ByteReady i (BitVec.ofNat 32 k)) :
    NameReads c (BitVec.ofNat 32 i) size (fun _ => c)
      fun k => (c.byteAt i (BitVec.ofNat 32 k)).signExtend 32 where
  start := rfl
  read k hk _ := ⟨0, _, (h k hk).libread, rfl⟩

/-- A process with a region of 200 bytes on a page in frame 0. -/
def nameDemo (bytes : Nat → Byte) : Pcb where
  mm := { freshMm.mapPage (pagingPgn 0) 0 with
    symrgtbl := Function.update freshMm.symrgtbl rgidOne ⟨0, 200⟩ }
  mram := { oneFrame with storage := bytes, freeFpList := [] }
  activeMswp := fourFrames

theorem nameDemo_ready (bytes : Nat → Byte) {k : Nat} (hk : k < 200) :
    (nameDemo bytes).ByteReady rgidOne (BitVec.ofNat 32 k) := by
  have haddr : ((nameDemo bytes).mm.regionAddr rgidOne (BitVec.ofNat 32 k)).toNat = k := by
    have hstart : ((nameDemo bytes).mm.symrgtbl rgidOne).rgStart.toNat = 0 := rfl
    rw [MmStruct.toNat_regionAddr, hstart, BitVec.toNat_ofNat]
    omega
  have hpgn : pagingPgn ((nameDemo bytes).mm.regionAddr rgidOne (BitVec.ofNat 32 k)) =
      pagingPgn 0 := by
    refine Fin.ext ?_
    rw [pagingPgn_val (by omega), haddr]
    exact Nat.div_eq_of_lt (by omega)
  have hfpn : pagingFpn ((nameDemo bytes).mm.pgd (pagingPgn 0)) = 0 :=
    show pagingFpn ((freshMm.mapPage (pagingPgn 0) 0).pgd (pagingPgn 0)) = 0 by decide
  refine ⟨⟨_, rfl⟩, rfl, ?_, ?_⟩
  · rw [MmStruct.InRam, hpgn]
    exact show resident ((freshMm.mapPage (pagingPgn 0) 0).pgd (pagingPgn 0)) = true by decide
  · rw [hpgn, hfpn]
    exact show 0 * 256 + 256 ≤ 256 by decide

/-- A program of 110 instructions, and a name of three characters. -/
theorem readName_safe_iff_three :
    let c := nameDemo fun x => if x < 3 then 80 else 255
    NameSafe 110 (fun k => (c.byteAt rgidOne (BitVec.ofNat 32 k)).signExtend 32)
      (readName (BitVec.ofNat 32 rgidOne) (110 + 1) c [] 0) := by
  intro c
  have hready : ∀ k ≤ 110, c.ByteReady rgidOne (BitVec.ofNat 32 k) :=
    fun k hk => nameDemo_ready _ (by omega)
  exact (readName_safe_iff (nameReads_of_byteReady hready)).mpr
    (.inr ⟨3, by decide, by decide, by decide +kernel⟩)

/-- A program of 99 instructions, and zeros all over the region. -/
theorem long_name_not_safe :
    ∃ (c : Pcb) (memrg : BitVec 32) (size : Nat) (st : Nat → Pcb) (data : Nat → BitVec 32),
      NameReads c memrg size st data ∧ ¬ NameSafe size data (readName memrg (size + 1) c [] 0) := by
  let c := nameDemo fun _ => 0
  have hready : ∀ k ≤ 99, c.ByteReady rgidOne (BitVec.ofNat 32 k) :=
    fun k hk => nameDemo_ready _ (by omega)
  have hreads := nameReads_of_byteReady hready
  have hrun : readName (BitVec.ofNat 32 rgidOne) (99 + 1) c [] 0 = _ :=
    readName_of_no_stop hreads (Nat.zero_add _) fun j _ => show (0 : BitVec 32) ≠ -1 by decide
  refine ⟨c, _, 99, _, _, hreads, ?_⟩
  rw [hrun]
  exact not_nameSafe_error

end Pcb

end Ossim.Mm
