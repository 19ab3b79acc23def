import Mathlib.Data.Nat.Bitwise
import Mathlib.Tactic.Common
import Ossim.Basic

/-!
# Page table entries and virtual addresses (`mm.h`, `bitops.h`)

A page table entry is a packed 32-bit word: bit 31 says *present*, bit 30 *swapped*, and the low
bits hold either a RAM frame number (bits 0 to 12) or a swap type (bits 0 to 4) with a swap offset
(bits 5 to 25). A virtual address has a page number in bits 8 to 21 and an offset in bits 0 to 7.

The macros are translated as they stand. The lemmas below them say what the fields of an entry are
after `pte_set_fpn` and `pte_set_swap`, and that an address below the bus width is its page number
times the page size plus its offset; the rest of the development uses only these.

The fields for a frame and for swap overlap, so what one call has written is still there under what the
next one writes. It does not show: an entry decodes to the arguments of the last call, whatever came
before it (`pte_round_trip`).
-/

namespace Ossim.Mm

/-- `PAGING_PAGESZ`. -/
def pagingPagesz : Nat := 256

/-- `PAGING_CPU_BUS_WIDTH`. -/
def pagingCpuBusWidth : Nat := 22

/-- `PAGING_MAX_PGN`: the number of entries of a page directory. It does not unfold by itself, or
looking at a sum over all pages would enumerate them. -/
@[irreducible] def pagingMaxPgn : Nat := 16384

theorem pagingMaxPgn_eq : pagingMaxPgn = 16384 := by unfold pagingMaxPgn; rfl

/-- A page number within the page directory. -/
abbrev Pgn := Fin pagingMaxPgn

/-- A page table entry. -/
abbrev Pte := BitVec 32

/-! ## Bit macros -/

/-- `SETBIT`. -/
def setbit (v mask : BitVec 32) : BitVec 32 := v ||| mask

/-- `CLRBIT`. -/
def clrbit (v mask : BitVec 32) : BitVec 32 := v &&& ~~~mask

/-- `SETVAL`. -/
def setval (v value mask : BitVec 32) (offst : Nat) : BitVec 32 :=
  (v &&& ~~~mask) ||| ((value <<< offst) &&& mask)

/-- `GETVAL`. -/
def getval (v mask : BitVec 32) (offst : Nat) : BitVec 32 := (v &&& mask) >>> offst

/-- `GENMASK`, with 32 bits. -/
def genmask (h l : Nat) : BitVec 32 := (~~~0#32 <<< l) &&& (~~~0#32 >>> (32 - h - 1))

/-- `PAGING_PTE_PRESENT_MASK`. -/
def ptePresentMask : BitVec 32 := 1#32 <<< 31

/-- `PAGING_PTE_SWAPPED_MASK`. -/
def pteSwappedMask : BitVec 32 := 1#32 <<< 30

/-- `PAGING_PTE_FPN_MASK`. -/
def pteFpnMask : BitVec 32 := genmask 12 0

/-- `PAGING_PTE_SWPTYP_MASK`. -/
def pteSwptypMask : BitVec 32 := genmask 4 0

/-- `PAGING_PTE_SWPOFF_MASK`. -/
def pteSwpoffMask : BitVec 32 := genmask 25 5

/-- `PAGING_OFFST_MASK`. -/
def offstMask : BitVec 32 := genmask 7 0

/-- `PAGING_PGN_MASK`. -/
def pgnMask : BitVec 32 := genmask 21 8

/-! ## Reading an entry or an address -/

/-- `PAGING_PAGE_PRESENT`. -/
def pagingPagePresent (pte : Pte) : Bool := (pte &&& ptePresentMask) != 0

/-- Whether the swapped bit is set. The source sets and clears it and never tests it. -/
def pteSwapped (pte : Pte) : Bool := (pte &&& pteSwappedMask) != 0

/-- `PAGING_FPN`. -/
def pagingFpn (pte : Pte) : Nat := (getval pte pteFpnMask 0).toNat

/-- `PAGING_PTE_SWP`. -/
def pagingPteSwp (pte : Pte) : Nat := (getval pte pteSwpoffMask 5).toNat

/-- `PAGING_SWPTYP`. -/
def pagingSwptyp (pte : Pte) : Nat := (getval pte pteSwptypMask 0).toNat

/-- `PAGING_OFFST`. -/
def pagingOffst (addr : BitVec 32) : Nat := (getval addr offstMask 0).toNat

theorem getval_pgnMask (addr : BitVec 32) :
    (getval addr pgnMask 8).toNat = addr.toNat / 256 % 16384 := by
  have hbits : getval addr pgnMask 8 = (addr >>> 8) &&& 16383#32 := by
    simp only [getval, pgnMask]
    rw [BitVec.ushiftRight_and_distrib]
    rfl
  rw [hbits, BitVec.toNat_and, BitVec.toNat_ushiftRight, Nat.shiftRight_eq_div_pow]
  exact Nat.and_two_pow_sub_one_eq_mod _ 14

/-- `PAGING_PGN`. The mask keeps it below `PAGING_MAX_PGN`. -/
def pagingPgn (addr : BitVec 32) : Pgn :=
  ⟨(getval addr pgnMask 8).toNat, by
    rw [getval_pgnMask, pagingMaxPgn_eq]
    exact Nat.mod_lt _ (by decide)⟩

/-! ## Writing an entry -/

/-- `pte_set_swap`. -/
def pteSetSwap (pte : Pte) (swptyp swpoff : Nat) : Pte :=
  let pte := setbit pte ptePresentMask
  let pte := setbit pte pteSwappedMask
  let pte := setval pte (BitVec.ofNat 32 swptyp) pteSwptypMask 0
  setval pte (BitVec.ofNat 32 swpoff) pteSwpoffMask 5

/-- `pte_set_fpn`. -/
def pteSetFpn (pte : Pte) (fpn : Nat) : Pte :=
  let pte := setbit pte ptePresentMask
  let pte := clrbit pte pteSwappedMask
  setval pte (BitVec.ofNat 32 fpn) pteFpnMask 0

/-- An entry that maps its page to a RAM frame. -/
def resident (pte : Pte) : Bool := pagingPagePresent pte && !pteSwapped pte

/-- An entry that says where in the swap device its page is. -/
def swappedOut (pte : Pte) : Bool := pagingPagePresent pte && pteSwapped pte

/-! ## What the macros do to each other -/

/-- A field just written holds the value, cut to the mask. -/
theorem setval_and_mask (v value mask : BitVec 32) (offst : Nat) :
    setval v value mask offst &&& mask = (value <<< offst) &&& mask := by
  ext i hi
  simp only [setval, BitVec.getElem_and, BitVec.getElem_or, BitVec.getElem_not]
  cases mask[i] <;> simp

/-- Writing one field leaves the others alone. -/
theorem setval_and_of_disjoint {mask mask' : BitVec 32} (h : mask &&& mask' = 0) (v value : BitVec 32)
    (offst : Nat) : setval v value mask offst &&& mask' = v &&& mask' := by
  ext i hi
  have hi' : (mask[i] && mask'[i]) = false := by
    rw [← BitVec.getElem_and, h]
    exact BitVec.getElem_zero hi
  simp only [setval, BitVec.getElem_and, BitVec.getElem_or, BitVec.getElem_not]
  cases hm : mask[i] <;> cases hm' : mask'[i] <;> simp_all

theorem setbit_and_of_disjoint {mask mask' : BitVec 32} (h : mask &&& mask' = 0) (v : BitVec 32) :
    setbit v mask &&& mask' = v &&& mask' := by
  ext i hi
  have hi' : (mask[i] && mask'[i]) = false := by
    rw [← BitVec.getElem_and, h]
    exact BitVec.getElem_zero hi
  simp only [setbit, BitVec.getElem_and, BitVec.getElem_or]
  cases hm : mask[i] <;> cases hm' : mask'[i] <;> simp_all

theorem clrbit_and_of_disjoint {mask mask' : BitVec 32} (h : mask &&& mask' = 0) (v : BitVec 32) :
    clrbit v mask &&& mask' = v &&& mask' := by
  ext i hi
  have hi' : (mask[i] && mask'[i]) = false := by
    rw [← BitVec.getElem_and, h]
    exact BitVec.getElem_zero hi
  simp only [clrbit, BitVec.getElem_and, BitVec.getElem_not]
  cases hm : mask[i] <;> cases hm' : mask'[i] <;> simp_all

theorem setbit_and_mask (v mask : BitVec 32) : setbit v mask &&& mask = mask := by
  ext i hi
  simp only [setbit, BitVec.getElem_and, BitVec.getElem_or]
  cases mask[i] <;> simp

theorem clrbit_and_mask (v mask : BitVec 32) : clrbit v mask &&& mask = 0 := by
  ext i hi
  simp only [clrbit, BitVec.getElem_and, BitVec.getElem_not]
  cases mask[i] <;> simp

/-! ## The fields of a written entry -/

@[simp] theorem pagingPagePresent_pteSetFpn (pte : Pte) (fpn : Nat) :
    pagingPagePresent (pteSetFpn pte fpn) = true := by
  simp only [pagingPagePresent, pteSetFpn]
  rw [setval_and_of_disjoint (by decide), clrbit_and_of_disjoint (by decide), setbit_and_mask]
  rfl

@[simp] theorem pteSwapped_pteSetFpn (pte : Pte) (fpn : Nat) :
    pteSwapped (pteSetFpn pte fpn) = false := by
  simp only [pteSwapped, pteSetFpn]
  rw [setval_and_of_disjoint (by decide), clrbit_and_mask]
  rfl

/-- The frame number that is there again is cut to the field. -/
theorem pagingFpn_pteSetFpn_eq_mod (pte : Pte) (fpn : Nat) :
    pagingFpn (pteSetFpn pte fpn) = fpn % 2 ^ 13 := by
  have hmask : pteFpnMask.toNat = 2 ^ 13 - 1 := by decide
  simp only [pagingFpn, pteSetFpn, getval]
  rw [setval_and_mask, BitVec.shiftLeft_zero, BitVec.ushiftRight_zero, BitVec.toNat_and, hmask,
    Nat.and_two_pow_sub_one_eq_mod, BitVec.toNat_ofNat]
  omega

/-- It is the same if it fits. -/
theorem pagingFpn_pteSetFpn (pte : Pte) {fpn : Nat} (h : fpn < 2 ^ 13) :
    pagingFpn (pteSetFpn pte fpn) = fpn := by
  rw [pagingFpn_pteSetFpn_eq_mod, Nat.mod_eq_of_lt h]

@[simp] theorem pagingPagePresent_pteSetSwap (pte : Pte) (swptyp swpoff : Nat) :
    pagingPagePresent (pteSetSwap pte swptyp swpoff) = true := by
  simp only [pagingPagePresent, pteSetSwap]
  rw [setval_and_of_disjoint (by decide), setval_and_of_disjoint (by decide),
    setbit_and_of_disjoint (by decide), setbit_and_mask]
  rfl

@[simp] theorem pteSwapped_pteSetSwap (pte : Pte) (swptyp swpoff : Nat) :
    pteSwapped (pteSetSwap pte swptyp swpoff) = true := by
  simp only [pteSwapped, pteSetSwap]
  rw [setval_and_of_disjoint (by decide), setval_and_of_disjoint (by decide), setbit_and_mask]
  rfl

/-- The swap offset is there again, if it fits in the field. -/
theorem pagingPteSwp_pteSetSwap (pte : Pte) (swptyp : Nat) {swpoff : Nat} (h : swpoff < 2 ^ 21) :
    pagingPteSwp (pteSetSwap pte swptyp swpoff) = swpoff := by
  have hmask : (pteSwpoffMask >>> 5).toNat = 2 ^ 21 - 1 := by decide
  simp only [pagingPteSwp, pteSetSwap, getval]
  rw [setval_and_mask, BitVec.ushiftRight_and_distrib, BitVec.toNat_and, hmask,
    Nat.and_two_pow_sub_one_eq_mod, BitVec.toNat_ushiftRight, BitVec.toNat_shiftLeft,
    BitVec.toNat_ofNat, Nat.shiftLeft_eq, Nat.shiftRight_eq_div_pow]
  omega

/-- So is the swap type. The offset that is written after it has other bits. -/
theorem pagingSwptyp_pteSetSwap (pte : Pte) {swptyp : Nat} (swpoff : Nat) (h : swptyp < 2 ^ 5) :
    pagingSwptyp (pteSetSwap pte swptyp swpoff) = swptyp := by
  have hmask : pteSwptypMask.toNat = 2 ^ 5 - 1 := by decide
  simp only [pagingSwptyp, pteSetSwap, getval]
  rw [setval_and_of_disjoint (by decide), setval_and_mask, BitVec.shiftLeft_zero,
    BitVec.ushiftRight_zero, BitVec.toNat_and, hmask, Nat.and_two_pow_sub_one_eq_mod,
    BitVec.toNat_ofNat]
  omega

/-- A frame number read from an entry fits in the field. -/
theorem pagingFpn_lt (pte : Pte) : pagingFpn pte < 2 ^ 13 := by
  have hmask : pteFpnMask.toNat = 2 ^ 13 - 1 := by decide
  simp only [pagingFpn, getval]
  rw [BitVec.ushiftRight_zero, BitVec.toNat_and, hmask, Nat.and_two_pow_sub_one_eq_mod]
  exact Nat.mod_lt _ (by decide)

@[simp] theorem resident_pteSetFpn (pte : Pte) (fpn : Nat) : resident (pteSetFpn pte fpn) = true := by
  simp [resident]

@[simp] theorem swappedOut_pteSetFpn (pte : Pte) (fpn : Nat) :
    swappedOut (pteSetFpn pte fpn) = false := by
  simp [swappedOut]

@[simp] theorem resident_pteSetSwap (pte : Pte) (swptyp swpoff : Nat) :
    resident (pteSetSwap pte swptyp swpoff) = false := by
  simp [resident]

@[simp] theorem swappedOut_pteSetSwap (pte : Pte) (swptyp swpoff : Nat) :
    swappedOut (pteSetSwap pte swptyp swpoff) = true := by
  simp [swappedOut]

/-- A resident entry is present. -/
theorem present_of_resident {pte : Pte} (h : resident pte = true) : pagingPagePresent pte = true := by
  simp only [resident, Bool.and_eq_true] at h
  exact h.1

/-- An entry that is present is either resident or swapped out. -/
theorem resident_of_present {pte : Pte} (h : pagingPagePresent pte = true)
    (hswap : swappedOut pte = false) : resident pte = true := by
  simp_all [resident, swappedOut]

/-- The zero entry is not present. -/
theorem pagingPagePresent_zero : pagingPagePresent 0 = false := by decide

/-- The zero entry is not resident. -/
theorem resident_zero : resident 0 = false := by decide

/-! ## Histories of an entry -/

/-- The bits of an entry that no call below writes, 26 to 29. -/
def keptMask : BitVec 32 := genmask 29 26

/-- A call that writes an entry. -/
inductive PteCall where
  | setFpn (fpn : Nat)
  | setSwap (swptyp swpoff : Nat)

namespace PteCall

/-- The entry after the call. -/
def apply (pte : Pte) : PteCall → Pte
  | .setFpn fpn => pteSetFpn pte fpn
  | .setSwap swptyp swpoff => pteSetSwap pte swptyp swpoff

/-- The arguments fit in their fields. -/
def Fits : PteCall → Prop
  | .setFpn fpn => fpn < 2 ^ 13
  | .setSwap swptyp swpoff => swptyp < 2 ^ 5 ∧ swpoff < 2 ^ 21

/-- The entry says that the page was swapped. -/
def isSwap : PteCall → Bool
  | .setFpn _ => false
  | .setSwap _ _ => true

/-- The macros read the arguments of the call from the entry. -/
def Decodes (pte : Pte) : PteCall → Prop
  | .setFpn fpn => pagingFpn pte = fpn
  | .setSwap swptyp swpoff => pagingSwptyp pte = swptyp ∧ pagingPteSwp pte = swpoff

/-- A call leaves the kept bits alone. -/
theorem apply_and_keptMask (pte : Pte) (call : PteCall) :
    call.apply pte &&& keptMask = pte &&& keptMask := by
  cases call with
  | setFpn fpn =>
      simp only [apply, pteSetFpn]
      rw [setval_and_of_disjoint (by decide), clrbit_and_of_disjoint (by decide),
        setbit_and_of_disjoint (by decide)]
  | setSwap swptyp swpoff =>
      simp only [apply, pteSetSwap]
      rw [setval_and_of_disjoint (by decide), setval_and_of_disjoint (by decide),
        setbit_and_of_disjoint (by decide), setbit_and_of_disjoint (by decide)]

/-- Whatever was in the entry, the last call is what it says. -/
theorem apply_decodes (pte : Pte) {call : PteCall} (h : call.Fits) :
    pagingPagePresent (call.apply pte) = true ∧ pteSwapped (call.apply pte) = call.isSwap ∧
      call.Decodes (call.apply pte) := by
  cases call with
  | setFpn fpn =>
      exact ⟨pagingPagePresent_pteSetFpn _ _, pteSwapped_pteSetFpn _ _, pagingFpn_pteSetFpn _ h⟩
  | setSwap swptyp swpoff =>
      exact ⟨pagingPagePresent_pteSetSwap _ _ _, pteSwapped_pteSetSwap _ _ _,
        pagingSwptyp_pteSetSwap _ _ h.1, pagingPteSwp_pteSetSwap _ _ h.2⟩

theorem foldl_apply_and_keptMask (pte : Pte) (calls : List PteCall) :
    calls.foldl apply pte &&& keptMask = pte &&& keptMask := by
  induction calls generalizing pte with
  | nil => rfl
  | cons call calls ih => rw [List.foldl_cons, ih, apply_and_keptMask]

end PteCall

/-- Entries that agree under the mask have the same bits 26 to 29. -/
theorem getLsbD_of_and_keptMask {a b : BitVec 32} (h : a &&& keptMask = b &&& keptMask) {i : Nat}
    (hlo : 26 ≤ i) (hhi : i ≤ 29) : a.getLsbD i = b.getLsbD i := by
  have hbit : keptMask.getLsbD i = true := by
    have hall : ∀ j : Fin 4, keptMask.getLsbD (26 + j) = true := by decide
    have hi := hall ⟨i - 26, by omega⟩
    rwa [show 26 + (i - 26) = i by omega] at hi
  have hand := congrArg (fun x => x.getLsbD i) h
  simpa [BitVec.getLsbD_and, hbit] using hand

/-- **An entry holds what was written last.** After any calls on any entry it is present, it says
whether the page was swapped by the last call, the arguments of that call are there, and bits 26 to
29 are those of the beginning. -/
theorem pte_round_trip (pte : Pte) (calls : List PteCall) {last : PteCall} (h : last.Fits) :
    pagingPagePresent ((calls ++ [last]).foldl PteCall.apply pte) = true ∧
      pteSwapped ((calls ++ [last]).foldl PteCall.apply pte) = last.isSwap ∧
      last.Decodes ((calls ++ [last]).foldl PteCall.apply pte) ∧
      ∀ i, 26 ≤ i → i ≤ 29 →
        ((calls ++ [last]).foldl PteCall.apply pte).getLsbD i = pte.getLsbD i := by
  have hkept := PteCall.foldl_apply_and_keptMask pte (calls ++ [last])
  rw [List.foldl_append, List.foldl_cons, List.foldl_nil] at hkept ⊢
  obtain ⟨hpresent, hswapped, hdecodes⟩ := PteCall.apply_decodes (calls.foldl PteCall.apply pte) h
  refine ⟨hpresent, hswapped, hdecodes, ?_⟩
  intro i hlo hhi
  exact getLsbD_of_and_keptMask hkept hlo hhi

/-- An entry with all bits set is swapped out and comes back to frame 5. -/
theorem pte_round_trip_back_in_ram :
    pagingPagePresent (([.setSwap 3 70000, .setFpn 5] : List PteCall).foldl PteCall.apply
        (BitVec.allOnes 32)) = true ∧
      pteSwapped (([.setSwap 3 70000, .setFpn 5] : List PteCall).foldl PteCall.apply
        (BitVec.allOnes 32)) = false ∧
      pagingFpn (([.setSwap 3 70000, .setFpn 5] : List PteCall).foldl PteCall.apply
        (BitVec.allOnes 32)) = 5 := by
  have hfits : (PteCall.setFpn 5).Fits := show 5 < 2 ^ 13 by decide
  obtain ⟨hpresent, hswapped, hdecodes, -⟩ :=
    pte_round_trip (BitVec.allOnes 32) [.setSwap 3 70000] hfits
  exact ⟨hpresent, hswapped, hdecodes⟩

/-! ## The parts of an address -/

/-- Below the bus width, the page number is the quotient by the page size. -/
theorem pagingPgn_val {addr : BitVec 32} (h : addr.toNat < 2 ^ 22) :
    (pagingPgn addr : Nat) = addr.toNat / 256 := by
  have hval : (pagingPgn addr : Nat) = addr.toNat / 256 % 16384 := getval_pgnMask addr
  omega

theorem pagingOffst_eq (addr : BitVec 32) : pagingOffst addr = addr.toNat % 256 := by
  have hmask : offstMask.toNat = 2 ^ 8 - 1 := by decide
  simp only [pagingOffst, getval]
  rw [BitVec.ushiftRight_zero, BitVec.toNat_and, hmask, Nat.and_two_pow_sub_one_eq_mod]

theorem pagingOffst_lt (addr : BitVec 32) : pagingOffst addr < 256 := by
  rw [pagingOffst_eq]
  exact Nat.mod_lt _ (by decide)

/-- Two addresses below the bus width with the same page number and offset are equal. -/
theorem addr_eq_of_parts {a b : BitVec 32} (ha : a.toNat < 2 ^ 22) (hb : b.toNat < 2 ^ 22)
    (hpgn : pagingPgn a = pagingPgn b) (hoffst : pagingOffst a = pagingOffst b) : a = b := by
  have hpgn' : (pagingPgn a : Nat) = pagingPgn b := congrArg Fin.val hpgn
  rw [pagingPgn_val ha, pagingPgn_val hb] at hpgn'
  rw [pagingOffst_eq, pagingOffst_eq] at hoffst
  exact BitVec.eq_of_toNat_eq (by omega)

end Ossim.Mm
