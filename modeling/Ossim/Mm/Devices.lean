import Ossim.Mm.Memphy

/-!
# Devices seen through their calls (`mm-memphy.c`)

A caller of `MEMPHY_read` and `MEMPHY_write` sees a return code and, after a read that succeeded, a
value. A random access device answers like an array of bytes.

`MEMPHY_seq_read` and `MEMPHY_seq_write` would answer like one as well: they move the cursor to the
byte and then access it. But they give up unless `rdmflg` is set ("not compatible mode for
sequential read"), and they are called only when it is not. So a sequential device refuses every
call, whatever its size and content.
-/

namespace Ossim.Mm

/-- A call to a device. -/
inductive DevCall where
  | read (addr : BitVec 32)
  | write (addr : BitVec 32) (value : Byte)
  deriving DecidableEq

/-- The address of a call. -/
def DevCall.addr : DevCall → BitVec 32
  | read addr => addr
  | write addr _ => addr

/-- What a caller gets back: a return code, and the value of a read that succeeded. -/
structure Answer where
  code : Int
  value : Option Byte
  deriving DecidableEq

/-- The answer of a device that refuses the call. -/
def Answer.refused : Answer := ⟨-1, none⟩

/-- The answer to a read. -/
def Answer.ofRead : Option Byte → Answer
  | some value => ⟨0, some value⟩
  | none => refused

namespace Memphy

/-- A call of `MEMPHY_read` or `MEMPHY_write`. -/
def call (mp : Memphy) : DevCall → Exec (Answer × Memphy)
  | .read addr => do
    let (value, mp) ← mp.read addr
    return (.ofRead value, mp)
  | .write addr value => do
    let (code, mp) ← mp.write addr value
    return (⟨code, none⟩, mp)

/-- A call of `MEMPHY_seq_read` or `MEMPHY_seq_write`. -/
def seqCall (mp : Memphy) : DevCall → Exec (Answer × Memphy)
  | .read addr => do
    let (value, mp) ← mp.seqRead addr
    return (.ofRead value, mp)
  | .write addr value => do
    let (code, mp) ← mp.seqWrite addr value
    return (⟨code, none⟩, mp)

/-- Calls one after another, with their answers. -/
def runCalls (call : Memphy → DevCall → Exec (Answer × Memphy)) :
    Memphy → List DevCall → Exec (List Answer × Memphy)
  | mp, [] => .ok ([], mp)
  | mp, c :: calls => do
    let (answer, mp) ← call mp c
    let (answers, mp) ← runCalls call mp calls
    return (answer :: answers, mp)

/-- Two devices of one size give the same answers to the calls, and end with the same bytes. -/
def Agree (call call' : Memphy → DevCall → Exec (Answer × Memphy)) (mp mq : Memphy)
    (calls : List DevCall) : Prop :=
  ∃ answers mp' mq', runCalls call mp calls = .ok (answers, mp') ∧
    runCalls call' mq calls = .ok (answers, mq') ∧ ∀ x < mp.maxsz, mp'.storage x = mq'.storage x

theorem runCalls_cons {call : Memphy → DevCall → Exec (Answer × Memphy)} {mp mp' : Memphy}
    {c : DevCall} {calls : List DevCall} {answer : Answer} (h : call mp c = .ok (answer, mp')) :
    runCalls call mp (c :: calls) = do
      let (answers, mp'') ← runCalls call mp' calls
      return (answer :: answers, mp'') := by
  rw [runCalls, h]
  rfl

/-! ## Devices as arrays -/

/-- The answer of an array of bytes. -/
def arrayAnswer (mp : Memphy) : DevCall → Answer
  | .read addr => ⟨0, some (mp.storage addr.toNat)⟩
  | .write _ _ => ⟨0, none⟩

/-- The array after a call. -/
def afterCall (mp : Memphy) : DevCall → Memphy
  | .read _ => mp
  | .write addr value => mp.setByte addr.toNat value

theorem afterCall_maxsz (mp : Memphy) (c : DevCall) : (mp.afterCall c).maxsz = mp.maxsz := by
  cases c <;> rfl

theorem afterCall_rdmflg (mp : Memphy) (c : DevCall) : (mp.afterCall c).rdmflg = mp.rdmflg := by
  cases c <;> rfl

/-- A random access device answers like an array. -/
theorem call_of_random {mp : Memphy} {c : DevCall} (hrdm : mp.rdmflg = true)
    (haddr : c.addr.toNat < mp.maxsz) : mp.call c = .ok (mp.arrayAnswer c, mp.afterCall c) := by
  cases c with
  | read addr =>
      have hread : mp.read addr = .ok (some (mp.storage addr.toNat), mp) :=
        read_of_random hrdm haddr
      rw [call, hread]
      rfl
  | write addr value =>
      have hwrite : mp.write addr value = .ok (0, mp.setByte addr.toNat value) :=
        write_of_random hrdm haddr value
      rw [call, hwrite]
      rfl

/-- In the mode they ask for, the sequential functions answer like the array too, and move the
cursor. -/
theorem seqCall_of_random {mp : Memphy} {c : DevCall} (hrdm : mp.rdmflg = true)
    (haddr : c.addr.toNat < mp.maxsz) :
    mp.seqCall c = .ok (mp.arrayAnswer c, (mp.afterCall c).mvCsr c.addr) := by
  have hcsr : c.addr.toNat < (mp.mvCsr c.addr).maxsz := haddr
  cases c with
  | read addr =>
      have hload : (mp.mvCsr addr).load addr = .ok (mp.storage addr.toNat) := if_pos hcsr
      simp only [seqCall, seqRead, hrdm, hload, bind, Except.bind, pure, Except.pure]
      rfl
  | write addr value =>
      have hstore : (mp.mvCsr addr).store addr value =
          .ok ((mp.mvCsr addr).setByte addr.toNat value) := if_pos hcsr
      simp only [seqCall, seqWrite, hrdm, hstore, bind, Except.bind, pure, Except.pure]
      rfl

/-- A sequential device refuses the call and does nothing. -/
theorem call_of_sequential {mp : Memphy} (hrdm : mp.rdmflg = false) (c : DevCall) :
    mp.call c = .ok (.refused, mp) := by
  cases c with
  | read addr =>
      simp only [call, read, seqRead, hrdm, bind, Except.bind]
      rfl
  | write addr value =>
      simp only [call, write, seqWrite, hrdm, bind, Except.bind]
      rfl

/-! ## Runs -/

/-- Two random access devices with the same bytes. -/
structure SameArray (mp mq : Memphy) : Prop where
  random : mp.rdmflg = true
  random' : mq.rdmflg = true
  maxsz : mp.maxsz = mq.maxsz
  storage : ∀ x < mp.maxsz, mp.storage x = mq.storage x

/-- They have the same bytes after every call, and the same answer to it. -/
theorem SameArray.afterCall {mp mq : Memphy} (h : SameArray mp mq) {c : DevCall}
    (haddr : c.addr.toNat < mp.maxsz) :
    mp.arrayAnswer c = mq.arrayAnswer c ∧ SameArray (mp.afterCall c) (mq.afterCall c) := by
  cases c with
  | read addr =>
      have hvalue : mp.storage addr.toNat = mq.storage addr.toNat := h.storage _ haddr
      exact ⟨by rw [arrayAnswer, arrayAnswer, hvalue], h⟩
  | write addr value =>
      refine ⟨rfl, h.random, h.random', h.maxsz, fun x hx => ?_⟩
      show Function.update mp.storage addr.toNat value x =
        Function.update mq.storage addr.toNat value x
      by_cases hat : x = addr.toNat
      · rw [hat, Function.update_self, Function.update_self]
      · rw [Function.update_of_ne hat, Function.update_of_ne hat]
        exact h.storage x hx

theorem SameArray.mvCsr {mp mq : Memphy} (h : SameArray mp mq) (addr : BitVec 32) :
    SameArray mp (mq.mvCsr addr) := ⟨h.random, h.random', h.maxsz, h.storage⟩

/-- The sequential functions, in the mode they ask for, agree with random access over all calls. -/
theorem seqCall_agree {mp mq : Memphy} (h : SameArray mp mq) (calls : List DevCall)
    (hin : ∀ c ∈ calls, c.addr.toNat < mp.maxsz) : Agree call seqCall mp mq calls := by
  induction calls generalizing mp mq with
  | nil => exact ⟨[], mp, mq, rfl, rfl, h.storage⟩
  | cons c calls ih =>
      have haddr := hin c List.mem_cons_self
      have haddr' : c.addr.toNat < mq.maxsz := h.maxsz ▸ haddr
      obtain ⟨hanswer, hafter⟩ := h.afterCall haddr
      obtain ⟨answers, mp', mq', hrun, hrun', hend⟩ :=
        ih (hafter.mvCsr c.addr) fun d hd => by
          rw [afterCall_maxsz]
          exact hin d (List.mem_cons_of_mem _ hd)
      rw [afterCall_maxsz] at hend
      refine ⟨mp.arrayAnswer c :: answers, mp', mq', ?_, ?_, hend⟩
      · rw [runCalls_cons (call_of_random h.random haddr), hrun]
        rfl
      · rw [runCalls_cons (seqCall_of_random h.random' haddr'), hrun', hanswer]
        rfl

/-- A random access device refuses no call. -/
theorem code_of_random {mp mp' : Memphy} {calls : List DevCall} {answers : List Answer}
    (hrdm : mp.rdmflg = true) (hin : ∀ c ∈ calls, c.addr.toNat < mp.maxsz)
    (h : runCalls call mp calls = .ok (answers, mp')) : ∀ answer ∈ answers, answer.code = 0 := by
  induction calls generalizing mp answers with
  | nil =>
      cases h
      exact fun _ hmem => absurd hmem List.not_mem_nil
  | cons c calls ih =>
      rw [runCalls_cons (call_of_random hrdm (hin c List.mem_cons_self))] at h
      obtain ⟨⟨rest, mp₁⟩, hrest, hcons⟩ := Exec.bind_eq_ok.mp h
      cases hcons
      have hlater := ih (by rw [afterCall_rdmflg, hrdm])
        (fun d hd => by
          rw [afterCall_maxsz]
          exact hin d (List.mem_cons_of_mem _ hd)) hrest
      intro answer hmem
      rcases List.mem_cons.mp hmem with rfl | hmem
      · cases c <;> rfl
      · exact hlater answer hmem

/-- A sequential device refuses all calls, and is as before. -/
theorem runCalls_of_sequential {mp : Memphy} (hrdm : mp.rdmflg = false) (calls : List DevCall) :
    runCalls call mp calls = .ok (List.replicate calls.length .refused, mp) := by
  induction calls with
  | nil => rfl
  | cons c calls ih =>
      rw [runCalls_cons (call_of_sequential hrdm c), ih]
      rfl

/-! ## Devices as `init_memphy` makes them -/

theorem initMemphy_rdmflg (mp : Memphy) {maxSize : Nat} (hmax : maxSize < 2 ^ 31)
    (randomflg : Int) : (mp.initMemphy maxSize hmax randomflg).rdmflg = decide (randomflg ≠ 0) := by
  unfold initMemphy
  simp only
  split <;> rfl

theorem initMemphy_maxsz (mp : Memphy) {maxSize : Nat} (hmax : maxSize < 2 ^ 31) (randomflg : Int) :
    (mp.initMemphy maxSize hmax randomflg).maxsz = maxSize := by
  unfold initMemphy format
  simp only
  split <;> split <;> rfl

theorem initMemphy_storage (mp : Memphy) {maxSize : Nat} (hmax : maxSize < 2 ^ 31)
    (randomflg : Int) : (mp.initMemphy maxSize hmax randomflg).storage = mp.storage := by
  unfold initMemphy format
  simp only
  split <;> split <;> rfl

/-- **Sequential and random access devices.** A random access device and a sequential one of the
same size and content agree on a sequence of calls exactly if it is empty. -/
theorem agree_sequential_iff {mp mq : Memphy} {maxSize : Nat} (hmax : maxSize < 2 ^ 31)
    {randomflg : Int} (hrandom : randomflg ≠ 0)
    (hsame : ∀ x < maxSize, mp.storage x = mq.storage x) {calls : List DevCall}
    (hin : ∀ c ∈ calls, c.addr.toNat < maxSize) :
    Agree call call (mp.initMemphy maxSize hmax randomflg) (mq.initMemphy maxSize hmax 0) calls ↔
      calls = [] := by
  have hrdm : (mp.initMemphy maxSize hmax randomflg).rdmflg = true := by
    rw [initMemphy_rdmflg]
    exact decide_eq_true hrandom
  have hseq : (mq.initMemphy maxSize hmax 0).rdmflg = false := initMemphy_rdmflg mq hmax 0
  constructor
  · rintro ⟨answers, mp', mq', hrun, hrun', -⟩
    rw [← initMemphy_maxsz mp hmax randomflg] at hin
    have hcode := code_of_random hrdm hin hrun
    rw [runCalls_of_sequential hseq] at hrun'
    cases hrun'
    by_contra hne
    have hlen : calls.length ≠ 0 := fun hzero => hne (List.eq_nil_of_length_eq_zero hzero)
    have hrefused := hcode .refused (List.mem_replicate.mpr ⟨hlen, rfl⟩)
    cases hrefused
  · rintro rfl
    refine ⟨[], _, _, rfl, rfl, fun x hx => ?_⟩
    rw [initMemphy_maxsz] at hx
    rw [initMemphy_storage, initMemphy_storage]
    exact hsame x hx

/-- Writing a byte and reading it back, on devices of one page. -/
theorem agree_sequential_iff_write_read :
    let mp : Memphy := ⟨fun x => BitVec.ofNat 8 x, 0, false, 0, [], by decide⟩
    Agree call call (mp.initMemphy 256 (by decide) 1) (mp.initMemphy 256 (by decide) 0)
      [.write 3 7, .read 3] ↔ [DevCall.write 3 7, .read 3] = [] :=
  agree_sequential_iff (by decide) (by decide) (fun _ _ => rfl) (by decide)

/-- Reading the first byte of a page of zeros: random access gives the byte, and sequential access
`-1`. -/
theorem sequential_read_differs :
    ∃ (mp : Memphy) (calls : List DevCall), (∀ c ∈ calls, c.addr.toNat < 256) ∧
      ¬ Agree call call (mp.initMemphy 256 (by decide) 1) (mp.initMemphy 256 (by decide) 0)
        calls := by
  refine ⟨⟨fun _ => 0, 0, false, 0, [], by decide⟩, [.read 0], by decide, ?_⟩
  rintro ⟨answers, mp', mq', hrun, hrun', -⟩
  cases hrun
  cases hrun'

end Memphy

end Ossim.Mm
