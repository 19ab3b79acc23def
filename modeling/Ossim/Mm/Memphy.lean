import Ossim.Mm.Pte

/-!
# Physical memory devices (`mm-memphy.c`, `__swap_cp_page`)

A device is an array of bytes with a list of free frames. The read and write functions do not check
their address, so an address outside the array is a fault. A device that is not random access
answers every read and write with `-1`, because `MEMPHY_seq_read` and `MEMPHY_seq_write` refuse
exactly the devices they are called for; such a read leaves its result variable unassigned.

Addresses are C integers. The size of a device is one, so the signed and the unsigned reading of an
address agree on whether it lies in the array.
-/

namespace Ossim.Mm

/-- `BYTE`. -/
abbrev Byte := BitVec 8

/-- `struct memphy_struct`, without the list of used frames, which nothing maintains. -/
structure Memphy where
  storage : Nat → Byte
  maxsz : Nat
  rdmflg : Bool
  cursor : Nat
  freeFpList : List Nat
  maxsz_lt : maxsz < 2 ^ 31

namespace Memphy

/-! ## Reading and writing -/

/-- `MEMPHY_mv_csr`. -/
def mvCsr (mp : Memphy) (offset : BitVec 32) : Memphy :=
  { mp with cursor := Nat.iterate (fun c => (c + 1) % mp.maxsz) (min offset.toInt.toNat mp.maxsz) 0 }

/-- `mp->storage[addr]`. -/
def load (mp : Memphy) (addr : BitVec 32) : Exec Byte :=
  if addr.toNat < mp.maxsz then .ok (mp.storage addr.toNat) else .error .outOfBounds

/-- The device after `mp->storage[addr] = value`. -/
def setByte (mp : Memphy) (addr : Nat) (value : Byte) : Memphy :=
  { mp with storage := Function.update mp.storage addr value }

/-- `mp->storage[addr] = value`. -/
def store (mp : Memphy) (addr : BitVec 32) (value : Byte) : Exec Memphy :=
  if addr.toNat < mp.maxsz then .ok (mp.setByte addr.toNat value) else .error .outOfBounds

/-- `MEMPHY_seq_read`. No value stands for the return code `-1`. -/
def seqRead (mp : Memphy) (addr : BitVec 32) : Exec (Option Byte × Memphy) :=
  if !mp.rdmflg then .ok (none, mp)
  else do
    let mp := mp.mvCsr addr
    let value ← mp.load addr
    return (some value, mp)

/-- `MEMPHY_read`. -/
def read (mp : Memphy) (addr : BitVec 32) : Exec (Option Byte × Memphy) :=
  if mp.rdmflg then do
    let value ← mp.load addr
    return (some value, mp)
  else mp.seqRead addr

/-- `MEMPHY_seq_write`, with its return code. -/
def seqWrite (mp : Memphy) (addr : BitVec 32) (value : Byte) : Exec (Int × Memphy) :=
  if !mp.rdmflg then .ok (-1, mp)
  else do
    let mp := mp.mvCsr addr
    let mp ← mp.store addr value
    return (0, mp)

/-- `MEMPHY_write`. -/
def write (mp : Memphy) (addr : BitVec 32) (value : Byte) : Exec (Int × Memphy) :=
  if mp.rdmflg then do
    let mp ← mp.store addr value
    return (0, mp)
  else mp.seqWrite addr value

/-! ## Free frames -/

/-- `MEMPHY_get_freefp`. No frame stands for the return code `-1`. -/
def getFreefp (mp : Memphy) : Option Nat × Memphy :=
  match mp.freeFpList with
  | [] => (none, mp)
  | fpn :: rest => (some fpn, { mp with freeFpList := rest })

/-- `MEMPHY_put_freefp`. -/
def putFreefp (mp : Memphy) (fpn : Nat) : Memphy := { mp with freeFpList := fpn :: mp.freeFpList }

/-! ## Making a device -/

/-- `MEMPHY_format`, with its return code. The frames are listed in order; the link of an only node
is never assigned and is taken to be `NULL`. -/
def format (mp : Memphy) (pagesz : Nat) : Int × Memphy :=
  let numfp := mp.maxsz / pagesz
  if numfp = 0 then (-1, mp) else (0, { mp with freeFpList := List.range numfp })

/-- `init_memphy`, on a device as `malloc` returns it. The return code of the formatting is not
looked at. -/
def initMemphy (mp : Memphy) (maxSize : Nat) (hmax : maxSize < 2 ^ 31) (randomflg : Int) : Memphy :=
  let (_, mp) := format { mp with maxsz := maxSize, maxsz_lt := hmax } pagingPagesz
  let mp := { mp with rdmflg := decide (randomflg ≠ 0) }
  if !mp.rdmflg then { mp with cursor := 0 } else mp

/-- The frames of a device that has room for one. -/
theorem initMemphy_freeFpList (mp : Memphy) {maxSize : Nat} (hmin : pagingPagesz ≤ maxSize)
    (hmax : maxSize < 2 ^ 31) (randomflg : Int) :
    (mp.initMemphy maxSize hmax randomflg).freeFpList = List.range (maxSize / pagingPagesz) := by
  have hpos : maxSize / pagingPagesz ≠ 0 := Nat.div_ne_zero_iff.mpr ⟨by decide, hmin⟩
  unfold initMemphy format
  simp only [if_neg hpos]
  split <;> rfl

/-! ## What one access does -/

@[simp] theorem setByte_storage (mp : Memphy) (addr : Nat) (value : Byte) :
    (mp.setByte addr value).storage = Function.update mp.storage addr value := rfl

@[simp] theorem setByte_maxsz (mp : Memphy) (addr : Nat) (value : Byte) :
    (mp.setByte addr value).maxsz = mp.maxsz := rfl

@[simp] theorem setByte_rdmflg (mp : Memphy) (addr : Nat) (value : Byte) :
    (mp.setByte addr value).rdmflg = mp.rdmflg := rfl

@[simp] theorem setByte_freeFpList (mp : Memphy) (addr : Nat) (value : Byte) :
    (mp.setByte addr value).freeFpList = mp.freeFpList := rfl

theorem read_of_random {mp : Memphy} {addr : BitVec 32} (hrdm : mp.rdmflg = true)
    (haddr : addr.toNat < mp.maxsz) : mp.read addr = .ok (some (mp.storage addr.toNat), mp) := by
  simp [read, load, hrdm, haddr, bind, Except.bind, pure, Except.pure]

theorem write_of_random {mp : Memphy} {addr : BitVec 32} (hrdm : mp.rdmflg = true)
    (haddr : addr.toNat < mp.maxsz) (value : Byte) :
    mp.write addr value = .ok (0, mp.setByte addr.toNat value) := by
  simp [write, store, hrdm, haddr, bind, Except.bind, pure, Except.pure]

/-- A read does not change the device. -/
theorem read_cases {mp mp' : Memphy} {addr : BitVec 32} {v : Option Byte}
    (h : mp.read addr = .ok (v, mp')) : mp' = mp := by
  unfold read at h
  split at h
  · obtain ⟨value, -, h⟩ := Exec.bind_eq_ok.mp h
    cases h
    rfl
  · next hrdm =>
    simp only [seqRead, hrdm, Bool.not_false, if_true] at h
    cases h
    rfl

/-- A write changes one byte of a random access device, and nothing of another one. -/
theorem write_cases {mp mp' : Memphy} {addr : BitVec 32} {value : Byte} {r : Int}
    (h : mp.write addr value = .ok (r, mp')) :
    (mp' = mp.setByte addr.toNat value ∧ addr.toNat < mp.maxsz) ∨ mp' = mp := by
  unfold write at h
  split at h
  · obtain ⟨mp₁, hstore, h⟩ := Exec.bind_eq_ok.mp h
    cases h
    unfold store at hstore
    split at hstore
    · next haddr =>
      cases hstore
      exact .inl ⟨rfl, haddr⟩
    · cases hstore
  · next hrdm =>
    simp only [seqWrite, hrdm, Bool.not_false, if_true] at h
    cases h
    exact .inr rfl

/-! ## Copying a page -/

/-- The address of a cell of a frame, in C integers. -/
def phyaddr (fpn : BitVec 32) (off : Nat) : BitVec 32 :=
  fpn * BitVec.ofNat 32 pagingPagesz + BitVec.ofNat 32 off

/-- The loop of `__swap_cp_page` from `cellidx` on, for `n` more cells. -/
def cpCells (src dst : Memphy) (srcfpn dstfpn : BitVec 32) (cellidx : Nat) :
    Nat → Exec (Memphy × Memphy)
  | 0 => .ok (src, dst)
  | n + 1 => do
    let (data, src) ← src.read (phyaddr srcfpn cellidx)
    let data ← assigned data
    let (_, dst) ← dst.write (phyaddr dstfpn cellidx) data
    cpCells src dst srcfpn dstfpn (cellidx + 1) n

/-- `__swap_cp_page`. -/
def swapCpPage (src : Memphy) (srcfpn : BitVec 32) (dst : Memphy) (dstfpn : BitVec 32) :
    Exec (Memphy × Memphy) :=
  cpCells src dst srcfpn dstfpn 0 pagingPagesz

/-- The byte at `x` is a cell of frame `fpn`. -/
def CellOf (fpn : BitVec 32) (x : Nat) : Prop := ∃ k < 256, x = (phyaddr fpn k).toNat

/-- Frame `f` lies in the device. -/
def HasFrame (mp : Memphy) (f : Nat) : Prop := f * 256 + 256 ≤ mp.maxsz

instance (mp : Memphy) (f : Nat) : Decidable (mp.HasFrame f) := inferInstanceAs (Decidable (_ ≤ _))

/-- The address of a cell does not overflow. -/
theorem toNat_phyaddr {f k : Nat} (hf : f < 2 ^ 23) (hk : k < 256) :
    (phyaddr (BitVec.ofNat 32 f) k).toNat = f * 256 + k := by
  simp only [phyaddr, BitVec.toNat_add, BitVec.toNat_mul, BitVec.toNat_ofNat, pagingPagesz]
  rw [Nat.mod_eq_of_lt (show f < 2 ^ 32 by omega), Nat.mod_eq_of_lt (show 256 < 2 ^ 32 by decide),
    Nat.mod_eq_of_lt (show k < 2 ^ 32 by omega)]
  omega

/-- The cells of a frame are the bytes of its page. -/
theorem cellOf_iff {f x : Nat} (hf : f < 2 ^ 23) : CellOf (BitVec.ofNat 32 f) x ↔ x / 256 = f := by
  constructor
  · rintro ⟨k, hk, rfl⟩
    rw [toNat_phyaddr hf hk]
    omega
  · intro hx
    have hoff : x % 256 < 256 := Nat.mod_lt _ (by decide)
    refine ⟨x % 256, hoff, ?_⟩
    rw [toNat_phyaddr hf hoff]
    omega

theorem HasFrame.lt {mp : Memphy} {f : Nat} (h : mp.HasFrame f) : f < 2 ^ 23 := by
  have hmax := mp.maxsz_lt
  unfold HasFrame at h
  omega

/-- A cell of a frame of the device is in the array. -/
theorem HasFrame.phyaddr_lt {mp : Memphy} {f k : Nat} (h : mp.HasFrame f) (hk : k < 256) :
    (phyaddr (BitVec.ofNat 32 f) k).toNat < mp.maxsz := by
  rw [toNat_phyaddr h.lt hk]
  unfold HasFrame at h
  omega

/-- What a copy can do: the source stays, and of the destination only bytes of the named frame
change. -/
theorem cpCells_cases {src dst src' dst' : Memphy} {srcfpn dstfpn : BitVec 32} {cellidx n : Nat}
    (hn : cellidx + n ≤ 256) (h : cpCells src dst srcfpn dstfpn cellidx n = .ok (src', dst')) :
    src' = src ∧ ∃ storage, dst' = { dst with storage := storage } ∧
      ∀ x, ¬ CellOf dstfpn x → storage x = dst.storage x := by
  induction n generalizing src dst cellidx with
  | zero =>
      cases h
      exact ⟨rfl, _, rfl, fun _ _ => rfl⟩
  | succ n ih =>
      obtain ⟨⟨data, src₁⟩, hread, hassign⟩ := Exec.bind_eq_ok.mp h
      obtain ⟨value, -, hloop⟩ := Exec.bind_eq_ok.mp hassign
      obtain ⟨⟨r, dst₁⟩, hwrite, hrest⟩ := Exec.bind_eq_ok.mp hloop
      obtain ⟨rfl, storage, rfl, hframe⟩ := ih (by omega) hrest
      obtain rfl := read_cases hread
      refine ⟨rfl, storage, ?_, fun x hx => ?_⟩
      · rcases write_cases hwrite with ⟨rfl, -⟩ | rfl <;> rfl
      · rw [hframe x hx]
        rcases write_cases hwrite with ⟨rfl, -⟩ | rfl
        · refine Function.update_of_ne (fun he => hx ⟨cellidx, by omega, he⟩) _ _
        · rfl

theorem swapCpPage_cases {src dst src' dst' : Memphy} {srcfpn dstfpn : BitVec 32}
    (h : swapCpPage src srcfpn dst dstfpn = .ok (src', dst')) :
    src' = src ∧ ∃ storage, dst' = { dst with storage := storage } ∧
      ∀ x, ¬ CellOf dstfpn x → storage x = dst.storage x :=
  cpCells_cases (by decide) h

/-! ### What a copy leaves -/

/-- Byte `k` of frame `f`. -/
def cell (mp : Memphy) (f k : Nat) : Byte := mp.storage (f * 256 + k)

/-- The device `dst` with the bytes of frame `f` of `src` in its frame `g`, from byte `lo` to byte
`hi`. -/
def copied (src : Memphy) (f : Nat) (dst : Memphy) (g lo hi : Nat) : Memphy :=
  { dst with
    storage := fun x =>
      if x / 256 = g ∧ lo ≤ x % 256 ∧ x % 256 < hi then src.cell f (x % 256) else dst.storage x }

@[simp] theorem copied_rdmflg (src dst : Memphy) (f g lo hi : Nat) :
    (copied src f dst g lo hi).rdmflg = dst.rdmflg := rfl

@[simp] theorem copied_freeFpList (src dst : Memphy) (f g lo hi : Nat) :
    (copied src f dst g lo hi).freeFpList = dst.freeFpList := rfl

@[simp] theorem copied_hasFrame {src dst : Memphy} {f g lo hi h : Nat} :
    (copied src f dst g lo hi).HasFrame h ↔ dst.HasFrame h := Iff.rfl

/-- Inside the copied range the bytes are those of the source. -/
theorem copied_cell_self {src dst : Memphy} {f g lo hi k : Nat} (hlo : lo ≤ k) (hhi : k < hi)
    (hk : k < 256) : (copied src f dst g lo hi).cell g k = src.cell f k := by
  have hdiv : (g * 256 + k) / 256 = g := by omega
  have hmod : (g * 256 + k) % 256 = k := by omega
  simp only [copied, cell, hdiv, hmod]
  rw [if_pos ⟨trivial, hlo, hhi⟩]

/-- In the other frames nothing changes. -/
theorem copied_cell_of_ne {src dst : Memphy} {f g lo hi h k : Nat} (hne : h ≠ g) (hk : k < 256) :
    (copied src f dst g lo hi).cell h k = dst.cell h k := by
  have hdiv : (h * 256 + k) / 256 = h := by omega
  simp only [copied, cell, hdiv]
  rw [if_neg fun hcond => hne hcond.1]

/-- Copying one byte and then the rest is copying them all. -/
theorem copied_setByte {src dst : Memphy} {f g lo hi : Nat} (hlo : lo < hi) (hk : lo < 256) :
    copied src f (dst.setByte (g * 256 + lo) (src.cell f lo)) g (lo + 1) hi =
      copied src f dst g lo hi := by
  have hbyte : ∀ x, (copied src f (dst.setByte (g * 256 + lo) (src.cell f lo)) g
      (lo + 1) hi).storage x = (copied src f dst g lo hi).storage x := by
    intro x
    simp only [copied, setByte_storage, Function.update_apply]
    by_cases hx : x = g * 256 + lo
    · subst hx
      have hdiv : (g * 256 + lo) / 256 = g := by omega
      have hmod : (g * 256 + lo) % 256 = lo := by omega
      rw [hdiv, hmod, if_neg (by omega), if_pos rfl, if_pos ⟨rfl, le_rfl, hlo⟩]
    · rw [if_neg hx]
      by_cases hin : x / 256 = g ∧ lo + 1 ≤ x % 256 ∧ x % 256 < hi
      · rw [if_pos hin, if_pos ⟨hin.1, by omega, hin.2.2⟩]
      · rw [if_neg hin, if_neg]
        rintro ⟨hdiv, hmod, hlt⟩
        have : x % 256 ≠ lo := fun he => hx (by omega)
        exact hin ⟨hdiv, by omega, hlt⟩
  unfold copied at hbyte ⊢
  exact congrArg (fun st : Nat → Byte => ({ dst with storage := st } : Memphy)) (funext hbyte)

/-- Between frames that lie in their devices the loop copies byte by byte. -/
theorem cpCells_eq {src dst : Memphy} {f g : Nat} (hsrc : src.rdmflg = true)
    (hdst : dst.rdmflg = true) (hf : src.HasFrame f) (hg : dst.HasFrame g) {cellidx n : Nat}
    (hn : cellidx + n ≤ 256) :
    cpCells src dst (BitVec.ofNat 32 f) (BitVec.ofNat 32 g) cellidx n =
      .ok (src, copied src f dst g cellidx (cellidx + n)) := by
  induction n generalizing dst cellidx with
  | zero =>
      have hnone : copied src f dst g cellidx (cellidx + 0) = dst := by
        have hbyte : ∀ x, (copied src f dst g cellidx (cellidx + 0)).storage x = dst.storage x :=
          fun x => if_neg (by omega)
        unfold copied at hbyte ⊢
        exact congrArg (fun st : Nat → Byte => ({ dst with storage := st } : Memphy)) (funext hbyte)
      rw [hnone]
      rfl
  | succ n ih =>
      have hcell : cellidx < 256 := by omega
      have hread := read_of_random hsrc (hf.phyaddr_lt hcell)
      have hwrite := write_of_random hdst (hg.phyaddr_lt hcell) (src.cell f cellidx)
      rw [toNat_phyaddr hf.lt hcell] at hread
      rw [toNat_phyaddr hg.lt hcell] at hwrite
      have hdst' : (dst.setByte (g * 256 + cellidx) (src.cell f cellidx)).rdmflg = true := hdst
      have hrest := ih hdst' hg (show cellidx + 1 + n ≤ 256 by omega)
      rw [copied_setByte (by omega) hcell] at hrest
      have hend : cellidx + (n + 1) = cellidx + 1 + n := by omega
      rw [hend]
      calc cpCells src dst (BitVec.ofNat 32 f) (BitVec.ofNat 32 g) cellidx (n + 1)
          = cpCells src (dst.setByte (g * 256 + cellidx) (src.cell f cellidx))
              (BitVec.ofNat 32 f) (BitVec.ofNat 32 g) (cellidx + 1) n := by
            have hwrite' : dst.write (phyaddr (BitVec.ofNat 32 g) cellidx)
                (src.storage (f * 256 + cellidx)) =
                .ok (0, dst.setByte (g * 256 + cellidx) (src.cell f cellidx)) := hwrite
            simp only [cpCells, hread, assigned, hwrite', bind, Except.bind]
        _ = .ok (src, copied src f dst g cellidx (cellidx + 1 + n)) := hrest

/-- A copy that goes through has accessed every cell of the two frames. -/
theorem phyaddr_lt_of_cpCells {src dst src' dst' : Memphy} {srcfpn dstfpn : BitVec 32}
    (hsrc : src.rdmflg = true) (hdst : dst.rdmflg = true) {cellidx n : Nat}
    (h : cpCells src dst srcfpn dstfpn cellidx n = .ok (src', dst')) {k : Nat} (hk : cellidx ≤ k)
    (hk' : k < cellidx + n) :
    (phyaddr srcfpn k).toNat < src.maxsz ∧ (phyaddr dstfpn k).toNat < dst.maxsz := by
  induction n generalizing src dst cellidx with
  | zero => omega
  | succ n ih =>
      obtain ⟨⟨data, src₁⟩, hread, hassign⟩ := Exec.bind_eq_ok.mp h
      obtain ⟨value, -, hloop⟩ := Exec.bind_eq_ok.mp hassign
      obtain ⟨⟨r, dst₁⟩, hwrite, hrest⟩ := Exec.bind_eq_ok.mp hloop
      obtain rfl := read_cases hread
      have hload : (phyaddr srcfpn cellidx).toNat < src₁.maxsz := by
        by_contra hout
        simp [read, load, hsrc, hout, bind, Except.bind] at hread
      have hstore : (phyaddr dstfpn cellidx).toNat < dst.maxsz ∧
          dst₁ = dst.setByte (phyaddr dstfpn cellidx).toNat value := by
        by_cases hin : (phyaddr dstfpn cellidx).toNat < dst.maxsz
        · rw [write_of_random hdst hin] at hwrite
          cases hwrite
          exact ⟨hin, rfl⟩
        · simp [write, store, hdst, hin, bind, Except.bind] at hwrite
      obtain ⟨hstore, rfl⟩ := hstore
      rcases Nat.eq_or_lt_of_le hk with rfl | hlt
      · exact ⟨hload, hstore⟩
      · have hlater := ih hsrc (by exact hdst) hrest hlt (by omega)
        exact hlater

/-- **A page copy between two random access devices goes through exactly if both frames lie in their
devices, and then it copies the frame and changes nothing else.** -/
theorem swapCpPage_eq_ok {src dst : Memphy} {f g : Nat} (hsrc : src.rdmflg = true)
    (hdst : dst.rdmflg = true) (hf : f < 2 ^ 23) (hg : g < 2 ^ 23) {r : Memphy × Memphy} :
    swapCpPage src (BitVec.ofNat 32 f) dst (BitVec.ofNat 32 g) = .ok r ↔
      src.HasFrame f ∧ dst.HasFrame g ∧ r = (src, copied src f dst g 0 256) := by
  constructor
  · intro h
    have hlast := phyaddr_lt_of_cpCells (k := 255) hsrc hdst h (Nat.zero_le _) (by decide)
    rw [toNat_phyaddr hf (by decide), toNat_phyaddr hg (by decide)] at hlast
    have hsrcf : src.HasFrame f := by
      unfold HasFrame
      omega
    have hdstg : dst.HasFrame g := by
      unfold HasFrame
      omega
    have heq := cpCells_eq hsrc hdst hsrcf hdstg (show 0 + 256 ≤ 256 by decide)
    exact ⟨hsrcf, hdstg, Except.ok.inj (h.symm.trans heq)⟩
  · rintro ⟨hsrcf, hdstg, rfl⟩
    exact cpCells_eq hsrc hdst hsrcf hdstg (by decide)

/-- **Page copy is exact.** Between two random access devices a copy goes through for all frames that
lie in them. It leaves the source as it is, and of the destination everything but the bytes of the
named frame, which become those of the source frame. -/
theorem page_copy_exact {src dst : Memphy} {srcfpn dstfpn : BitVec 32} (hsrc : src.rdmflg = true)
    (hdst : dst.rdmflg = true) (hf : src.HasFrame srcfpn.toNat) (hg : dst.HasFrame dstfpn.toNat) :
    ∃ storage, swapCpPage src srcfpn dst dstfpn = .ok (src, { dst with storage := storage }) ∧
      (∀ k < pagingPagesz, storage (dstfpn.toNat * pagingPagesz + k) =
        src.storage (srcfpn.toNat * pagingPagesz + k)) ∧
      ∀ x, x / pagingPagesz ≠ dstfpn.toNat → storage x = dst.storage x := by
  have hcopy := (swapCpPage_eq_ok hsrc hdst hf.lt hg.lt).mpr ⟨hf, hg, rfl⟩
  rw [BitVec.ofNat_toNat, BitVec.ofNat_toNat, BitVec.setWidth_eq, BitVec.setWidth_eq] at hcopy
  refine ⟨_, hcopy, ?_, ?_⟩
  · intro k hk
    exact copied_cell_self (Nat.zero_le k) hk hk
  · intro x hx
    exact if_neg fun hcond => hx hcond.1

/-- Frame 1 of a device is copied to frame 0 of another, byte for byte. -/
theorem page_copy_exact_first_frame :
    let src : Memphy := ⟨fun x => BitVec.ofNat 8 x, 512, true, 0, [0, 1], by decide⟩
    let dst : Memphy := ⟨fun _ => 7, 256, true, 0, [0], by decide⟩
    ∃ storage, swapCpPage src 1 dst 0 = .ok (src, { dst with storage := storage }) ∧
      (∀ k < pagingPagesz, storage (0 * pagingPagesz + k) = BitVec.ofNat 8 (1 * pagingPagesz + k)) ∧
      ∀ x, x / pagingPagesz ≠ 0 → storage x = 7 := by
  intro src dst
  have hsrc : src.HasFrame (BitVec.toNat 1#32) := by decide
  have hdst : dst.HasFrame (BitVec.toNat 0#32) := by decide
  exact page_copy_exact rfl rfl hsrc hdst

theorem swapCpPage_of_hasFrame {src dst : Memphy} {f g : Nat} (hsrc : src.rdmflg = true)
    (hdst : dst.rdmflg = true) (hf : src.HasFrame f) (hg : dst.HasFrame g) :
    ∃ r, swapCpPage src (BitVec.ofNat 32 f) dst (BitVec.ofNat 32 g) = .ok r :=
  ⟨_, (swapCpPage_eq_ok hsrc hdst hf.lt hg.lt).mpr ⟨hf, hg, rfl⟩⟩

end Memphy

end Ossim.Mm
