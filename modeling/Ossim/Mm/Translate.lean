import Ossim.Library.Translation
import Ossim.Mm.Frames

/-!
# Page directories as address translations

A page directory translates the virtual addresses on its resident pages to places in RAM. If no two
pages share a frame, no two addresses share a place, and the library of flat memories behind a
translation applies: a write through `pg_setval` is a write to the address.
-/

namespace Ossim.Mm

/-- Where in RAM the byte at a virtual address is, if its page is resident. -/
def translate (pgd : Pgn → Pte) (addr : BitVec 32) : Option Nat :=
  if addr.toNat < 2 ^ 22 ∧ resident (pgd (pagingPgn addr)) = true then
    some (pagingFpn (pgd (pagingPgn addr)) * 256 + pagingOffst addr)
  else none

theorem translate_eq_some {pgd : Pgn → Pte} {addr : BitVec 32} {l : Nat} :
    translate pgd addr = some l ↔
      addr.toNat < 2 ^ 22 ∧ resident (pgd (pagingPgn addr)) = true ∧
        l = pagingFpn (pgd (pagingPgn addr)) * 256 + pagingOffst addr := by
  unfold translate
  split
  · next h =>
    constructor
    · intro hl
      cases hl
      exact ⟨h.1, h.2, rfl⟩
    · rintro ⟨-, -, rfl⟩
      rfl
  · next h =>
    constructor
    · intro hl
      cases hl
    · rintro ⟨h1, h2, -⟩
      exact absurd ⟨h1, h2⟩ h

/-- An address whose page keeps its entry keeps its place. -/
theorem translate_congr {pgd pgd' : Pgn → Pte} {addr : BitVec 32}
    (h : pgd' (pagingPgn addr) = pgd (pagingPgn addr)) : translate pgd' addr = translate pgd addr := by
  unfold translate
  rw [h]

/-- The places of two addresses are equal only if the frames of their pages are. -/
theorem parts_of_translate {pgd pgd' : Pgn → Pte} {a b : BitVec 32} {l : Nat}
    (ha : translate pgd a = some l) (hb : translate pgd' b = some l) :
    pagingFpn (pgd (pagingPgn a)) = pagingFpn (pgd' (pagingPgn b)) ∧
      pagingOffst a = pagingOffst b := by
  obtain ⟨-, -, ha⟩ := translate_eq_some.mp ha
  obtain ⟨-, -, hb⟩ := translate_eq_some.mp hb
  have h1 := pagingOffst_lt a
  have h2 := pagingOffst_lt b
  omega

/-- A directory without a repeated frame translates injectively. -/
theorem translate_injective {pgd : Pgn → Pte} (h : (residentFrames pgd).Nodup) :
    Translation.Injective (translate pgd) := by
  intro a b l ha hb
  obtain ⟨hfpn, hoffst⟩ := parts_of_translate ha hb
  obtain ⟨halt, hares, -⟩ := translate_eq_some.mp ha
  obtain ⟨hblt, hbres, -⟩ := translate_eq_some.mp hb
  exact addr_eq_of_parts halt hblt (eq_of_pagingFpn_eq h hares hbres hfpn) hoffst

section system

variable {ι : Type} [DecidableEq ι]

/-- The translation of all processes together. -/
def MemSystem.translate (s : MemSystem ι) (x : ι × BitVec 32) : Option Nat :=
  Mm.translate (s.mm x.1).pgd x.2

/-- The translation of the system after an operation of process `i`. -/
theorem translate_withPcb (s : MemSystem ι) (i : ι) (c : Pcb) (x : ι × BitVec 32) :
    (s.withPcb i c).translate x =
      if x.1 = i then Mm.translate c.mm.pgd x.2 else s.translate x := by
  unfold MemSystem.translate
  split
  · next h => rw [h, MemSystem.withPcb_mm_self]
  · next h => rw [MemSystem.withPcb_mm_of_ne _ h]

/-- If no frame occurs twice, the processes do not share places. -/
theorem Accounted.translate_injective [Fintype ι] {F : Multiset Nat} (hF : F.Nodup) {s : MemSystem ι}
    (hs : Accounted F s) : Translation.Injective s.translate := by
  intro x y l ha hb
  obtain ⟨hfpn, hoffst⟩ := parts_of_translate ha hb
  obtain ⟨halt, hares, -⟩ := translate_eq_some.mp ha
  obtain ⟨hblt, hbres, -⟩ := translate_eq_some.mp hb
  obtain ⟨hij, hpgn⟩ := hs.page_unique hF hares hbres hfpn
  exact Prod.ext hij (addr_eq_of_parts halt hblt hpgn hoffst)

end system

end Ossim.Mm
