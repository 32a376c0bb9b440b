import MySrc.Lib.Circular
import Mathlib.Order.Bounds.Defs

/-!
# MySrc.Mycache.Kfifo

The byte queue of `mycache/src/struct/kfifo.h` and `kfifo.c`: a buffer whose
size is a power of two, and two free-running 32-bit counters `in` and `out`.
The queue holds `in - out` bytes, modulo `2 ^ 32`; a counter is turned into a
position in the buffer by masking it with `size - 1`.

`kfifo_refines_queue` says that the functions taking the lock implement a
bounded queue of bytes, for every size, every sequence of calls and whatever
the counters have wrapped around to.
-/

-- the double underscores are the source's
set_option linter.style.nameCheck false

namespace MySrc

open Lib

/-! ## sizes -/

/-- `is_power_of_2(x)` -/
def isPowerOf2 (x : BitVec 32) : Bool := x ≠ 0 && x &&& (x - 1) = 0

/-- `min(a, b)` -/
def cMin (a b : BitVec 32) : BitVec 32 := if a < b then a else b

/-- One `if` of `fls`: when a bit of `mask` is set, shift down by `k` and
count `k`. -/
def flsStep (mask : BitVec 32) (k : Nat) (s : BitVec 32 × Nat) : BitVec 32 × Nat :=
  if s.1 &&& mask ≠ 0 then (s.1 >>> k, s.2 + k) else s

/-- `fls`: the index of the highest set bit, by bisection. -/
def fls (x : BitVec 32) : Nat :=
  if x = 0 then 0
  else
    (flsStep 0x2 1 (flsStep 0xc 2 (flsStep 0xf0 4 (flsStep 0xff00 8
      (flsStep 0xffff0000 16 (x, 0)))))).2

/-- `roundup_pow_of_two(n)`; the comparison with `1 << 31` is unsigned, since
`n` is. -/
def roundupPowOfTwo (n : BitVec 32) : BitVec 32 :=
  if n = 0 then 0 else 1 <<< (if n ≥ 0x80000000 then 31 else fls n + 1)

/-! ## the queue -/

/-- `struct kfifo`, without its lock. -/
structure Kfifo where
  buffer : List UInt8
  size : BitVec 32
  in_ : BitVec 32
  out : BitVec 32
  deriving Repr, DecidableEq

/-- `kfifo_init` -/
def kfifoInit (buffer : List UInt8) (size : BitVec 32) : Except Fault Kfifo :=
  if isPowerOf2 size then .ok ⟨buffer, size, 0, 0⟩ else .error .assertion

/-- `kfifo_alloc`; `fill` is what the memory that `malloc` returns holds. -/
def kfifoAlloc (size : BitVec 32) (fill : Nat → UInt8) : Except Fault Kfifo := do
  let size ←
    if isPowerOf2 size then pure size
    else if size > 0x80000000 then .error .assertion
    else pure (roundupPowOfTwo size)
  kfifoInit ((List.range size.toNat).map fill) size

/-- `__kfifo_put`: copies from `buf` and returns the number of bytes copied. -/
def __kfifoPut (fifo : Kfifo) (buf : List UInt8) (len : BitVec 32) :
    Except Fault (Kfifo × BitVec 32) := do
  let len := cMin len (fifo.size - fifo.in_ + fifo.out)
  -- first put the data starting from fifo->in to buffer end
  let off := fifo.in_ &&& (fifo.size - 1)
  let l := cMin len (fifo.size - off)
  let first ← memcpyFrom buf 0 l.toNat
  let buffer ← memcpyTo fifo.buffer off.toNat first
  -- then put the rest (if any) at the beginning of the buffer
  let rest ← memcpyFrom buf l.toNat (len - l).toNat
  let buffer ← memcpyTo buffer 0 rest
  return ({ fifo with buffer := buffer, in_ := fifo.in_ + len }, len)

/-- `__kfifo_get`: returns the number of bytes copied out, and the bytes. -/
def __kfifoGet (fifo : Kfifo) (len : BitVec 32) :
    Except Fault (Kfifo × BitVec 32 × List UInt8) := do
  let len := cMin len (fifo.in_ - fifo.out)
  -- first get the data from fifo->out until the end of the buffer
  let off := fifo.out &&& (fifo.size - 1)
  let l := cMin len (fifo.size - off)
  let first ← memcpyFrom fifo.buffer off.toNat l.toNat
  -- then get the rest (if any) from the beginning of the buffer
  let rest ← memcpyFrom fifo.buffer 0 (len - l).toNat
  return ({ fifo with out := fifo.out + len }, len, first ++ rest)

/-- `__kfifo_reset` -/
def __kfifoReset (fifo : Kfifo) : Kfifo := { fifo with in_ := 0, out := 0 }

/-- `__kfifo_len` -/
def __kfifoLen (fifo : Kfifo) : BitVec 32 := fifo.in_ - fifo.out

/-- `kfifo_put` -/
def kfifoPut (fifo : Kfifo) (buf : List UInt8) (len : BitVec 32) :
    Except Fault (Kfifo × BitVec 32) :=
  __kfifoPut fifo buf len

/-- `kfifo_get`: an empty queue gets its indices set to 0. -/
def kfifoGet (fifo : Kfifo) (len : BitVec 32) :
    Except Fault (Kfifo × BitVec 32 × List UInt8) := do
  let (fifo, ret, bytes) ← __kfifoGet fifo len
  if fifo.in_ = fifo.out then return ({ fifo with in_ := 0, out := 0 }, ret, bytes)
  else return (fifo, ret, bytes)

/-- `kfifo_reset` -/
def kfifoReset (fifo : Kfifo) : Kfifo := __kfifoReset fifo

/-- `kfifo_len` -/
def kfifoLen (fifo : Kfifo) : BitVec 32 := __kfifoLen fifo

/-- A call of the interface.  The caller of `kfifo_put` owns `len` bytes. -/
inductive KfifoOp
  | put (buf : List UInt8) (len : BitVec 32) (hlen : len.toNat ≤ buf.length)
  | get (len : BitVec 32)
  | len
  | reset

/-- What a call gives back. -/
inductive KfifoOut
  | count (n : Nat)
  | bytes (n : Nat) (bs : List UInt8)
  | unit
  deriving Repr, DecidableEq

/-- One call on the queue. -/
def kfifoStep (fifo : Kfifo) : KfifoOp → Except Fault (Kfifo × KfifoOut)
  | .put buf len _ => do
      let (fifo, n) ← kfifoPut fifo buf len
      return (fifo, .count n.toNat)
  | .get len => do
      let (fifo, n, bs) ← kfifoGet fifo len
      return (fifo, .bytes n.toNat bs)
  | .len => return (fifo, .count (kfifoLen fifo).toNat)
  | .reset => return (kfifoReset fifo, .unit)

/-! ## the specification -/

/-- One call on a queue of at most `cap` bytes. -/
def queueStep (cap : Nat) (q : List UInt8) : KfifoOp → List UInt8 × KfifoOut
  | .put buf len _ =>
      let n := min len.toNat (cap - q.length)
      (q ++ buf.take n, .count n)
  | .get len =>
      let n := min len.toNat q.length
      (q.drop n, .bytes n (q.take n))
  | .len => (q, .count q.length)
  | .reset => ([], .unit)

/-- The queue `q` is what `fifo` holds. -/
structure Holds (fifo : Kfifo) (q : List UInt8) : Prop where
  pow : ∃ k ≤ 31, fifo.size.toNat = 2 ^ k
  buffer : fifo.buffer.length = fifo.size.toNat
  count : (fifo.in_ - fifo.out).toNat = q.length
  le : q.length ≤ fifo.size.toNat
  window : Window fifo.buffer fifo.out.toNat q

/-! ## counters and masks as arithmetic -/

theorem toNat_cMin (a b : BitVec 32) : (cMin a b).toNat = min a.toNat b.toNat := by
  unfold cMin
  split
  · next h => rw [BitVec.lt_def] at h; omega
  · next h => rw [BitVec.lt_def] at h; omega

/-- Masking a counter gives its position. -/
theorem toNat_and_mask (hk : size.toNat = 2 ^ k) (x : BitVec 32) :
    (x &&& (size - 1)).toNat = x.toNat % size.toNat := by
  have hlt := size.isLt
  have hpos := Nat.two_pow_pos k
  have hsub : (size - 1).toNat = 2 ^ k - 1 := by
    rw [BitVec.toNat_sub, show (1 : BitVec 32).toNat = 1 from rfl]
    omega
  rw [BitVec.toNat_and, hsub, Nat.and_two_pow_sub_one_eq_mod, hk]

/-- The free space, computed from the counters. -/
theorem toNat_free (size i o : BitVec 32) (h : (i - o).toNat ≤ size.toNat) :
    (size - i + o).toNat = size.toNat - (i - o).toNat := by
  bv_omega

/-- A counter that has run ahead by `n` is at the position `n` further on. -/
theorem counter_mod {i o : BitVec 32} (hk : ∃ k ≤ 31, size = 2 ^ k) (h : (i - o).toNat = n) :
    i.toNat % size = (o.toNat + n) % size := by
  obtain ⟨k, hk, rfl⟩ := hk
  have hdvd : 2 ^ k ∣ 2 ^ 32 := Nat.pow_dvd_pow 2 (by omega)
  have hi : i.toNat = (o.toNat + n) % 2 ^ 32 := by bv_omega
  rw [hi, Nat.mod_mod_of_dvd _ hdvd]

theorem toNat_add_mod (hk : ∃ k ≤ 31, size = 2 ^ k) (o n : BitVec 32) :
    (o + n).toNat % size = (o.toNat + n.toNat) % size := by
  obtain ⟨k, hk, rfl⟩ := hk
  have hdvd : 2 ^ k ∣ 2 ^ 32 := Nat.pow_dvd_pow 2 (by omega)
  rw [BitVec.toNat_add, Nat.mod_mod_of_dvd _ hdvd]

/-! ## the size of a new queue -/

/-- `m` is the least power of two that is not below `n`. -/
def IsRoundup (n m : Nat) : Prop := IsLeast {p | (∃ k, p = 2 ^ k) ∧ n ≤ p} m

theorem isRoundup_pow (k : Nat) : IsRoundup (2 ^ k) (2 ^ k) :=
  ⟨⟨⟨k, rfl⟩, Nat.le_refl _⟩, fun _ hp => hp.2⟩

/-- Behind a power of two comes the next one. -/
theorem isRoundup_pow_succ (hlo : 2 ^ k < n) (hhi : n ≤ 2 ^ (k + 1)) :
    IsRoundup n (2 ^ (k + 1)) := by
  refine ⟨⟨⟨k + 1, rfl⟩, hhi⟩, ?_⟩
  rintro p ⟨⟨j, rfl⟩, hn⟩
  have hkj : k < j := (Nat.pow_lt_pow_iff_right (by decide)).mp (Nat.lt_of_lt_of_le hlo hn)
  exact Nat.pow_le_pow_right (by decide) hkj

/-- Masking the upper half of `2 * k` bits. -/
theorem and_upper_half (hx : x < 2 ^ (2 * k)) : x &&& (2 ^ k - 1) <<< k = x / 2 ^ k * 2 ^ k := by
  have hhigh : x / 2 ^ k < 2 ^ k := by
    rw [Nat.div_lt_iff_lt_mul (Nat.two_pow_pos k), ← Nat.pow_add, ← Nat.two_mul]
    exact hx
  have hdiv : (x &&& (2 ^ k - 1) <<< k) / 2 ^ k = x / 2 ^ k := by
    rw [← Nat.shiftRight_eq_div_pow, Nat.shiftRight_and_distrib, Nat.shiftLeft_shiftRight,
      Nat.shiftRight_eq_div_pow, Nat.and_two_pow_sub_one_eq_mod, Nat.mod_eq_of_lt hhigh]
  have hmod : (x &&& (2 ^ k - 1) <<< k) % 2 ^ k = 0 := by
    rw [Nat.and_mod_two_pow, Nat.shiftLeft_eq, Nat.mul_mod_left, Nat.and_zero]
  rw [← hdiv, Nat.mul_comm]
  have := Nat.div_add_mod (x &&& (2 ^ k - 1) <<< k) (2 ^ k)
  omega

/-- One bisection step keeps the quotient by the power counted so far, and
halves the number of bits it can have. -/
theorem flsStep_spec {s : BitVec 32 × Nat} (mask : BitVec 32)
    (hmask : mask.toNat = (2 ^ k - 1) <<< k) (hdiv : s.1.toNat = x / 2 ^ s.2) (hne : s.1.toNat ≠ 0)
    (hlt : s.1.toNat < 2 ^ (2 * k)) :
    (flsStep mask k s).1.toNat = x / 2 ^ (flsStep mask k s).2 ∧
      (flsStep mask k s).1.toNat ≠ 0 ∧ (flsStep mask k s).1.toNat < 2 ^ k := by
  have hand : (s.1 &&& mask).toNat = s.1.toNat / 2 ^ k * 2 ^ k := by
    rw [BitVec.toNat_and, hmask, and_upper_half hlt]
  have hpos := Nat.two_pow_pos k
  unfold flsStep
  by_cases hz : s.1 &&& mask = 0
  · rw [if_neg (by simpa using hz)]
    rw [hz, show (0 : BitVec 32).toNat = 0 from rfl] at hand
    have hq : s.1.toNat / 2 ^ k = 0 := (Nat.mul_eq_zero.mp hand.symm).resolve_right (by omega)
    exact ⟨hdiv, hne, (Nat.div_eq_zero_iff_lt hpos).mp hq⟩
  · rw [if_pos hz]
    have hq : s.1.toNat / 2 ^ k ≠ 0 := by
      intro hq
      rw [hq, Nat.zero_mul] at hand
      exact hz (BitVec.eq_of_toNat_eq hand)
    simp only [BitVec.toNat_ushiftRight, Nat.shiftRight_eq_div_pow]
    refine ⟨?_, hq, ?_⟩
    · rw [hdiv, Nat.div_div_eq_div_mul, ← Nat.pow_add]
    · rw [Nat.div_lt_iff_lt_mul hpos, ← Nat.pow_add, ← Nat.two_mul]
      exact hlt

/-- `fls` is the exponent of the greatest power of two not above `x`. -/
theorem fls_spec (x : BitVec 32) (hx : x ≠ 0) :
    2 ^ fls x ≤ x.toNat ∧ x.toNat < 2 ^ (fls x + 1) := by
  have hne : x.toNat ≠ 0 := fun h => hx (BitVec.eq_of_toNat_eq h)
  obtain ⟨d1, n1, l1⟩ := flsStep_spec 0xffff0000 (k := 16) (s := (x, 0)) (x := x.toNat)
    rfl (Nat.div_one _).symm hne x.isLt
  obtain ⟨d2, n2, l2⟩ := flsStep_spec 0xff00 (k := 8) rfl d1 n1 l1
  obtain ⟨d3, n3, l3⟩ := flsStep_spec 0xf0 (k := 4) rfl d2 n2 l2
  obtain ⟨d4, n4, l4⟩ := flsStep_spec 0xc (k := 2) rfl d3 n3 l3
  obtain ⟨d5, n5, l5⟩ := flsStep_spec 0x2 (k := 1) rfl d4 n4 l4
  rw [fls, if_neg hx]
  generalize flsStep 0x2 1 _ = s at d5 n5 l5 ⊢
  -- the quotient left is one bit, and not zero
  have hone : x.toNat / 2 ^ s.2 = 1 := by omega
  have hdm := Nat.div_add_mod x.toNat (2 ^ s.2)
  have hmod := Nat.mod_lt x.toNat (Nat.two_pow_pos s.2)
  rw [hone, Nat.mul_one] at hdm
  rw [Nat.pow_succ]
  omega

/-- `1 << k`, in 32 bits. -/
theorem toNat_one_shiftLeft (hk : k ≤ 31) : ((1 <<< k : Nat) : BitVec 32).toNat = 2 ^ k := by
  have hlt : 2 ^ k < 2 ^ 32 := Nat.pow_lt_pow_right (by decide) (by omega)
  rw [BitVec.natCast_eq_ofNat, BitVec.toNat_ofNat, Nat.one_shiftLeft, Nat.mod_eq_of_lt hlt]

/-- The macro gives a power of two, and shifts by at most 31. -/
theorem roundupPowOfTwo_pow (hn : n ≠ 0) : ∃ k ≤ 31, (roundupPowOfTwo n).toNat = 2 ^ k := by
  rw [roundupPowOfTwo, if_neg hn]
  by_cases hbig : n ≥ 0x80000000
  · rw [if_pos hbig]
    exact ⟨31, by omega, toNat_one_shiftLeft (by omega)⟩
  · rw [if_neg hbig]
    have hlt : n.toNat < 2 ^ 31 := by
      rw [ge_iff_le, BitVec.le_def] at hbig
      exact Nat.lt_of_not_le hbig
    have hle : fls n < 31 := (Nat.pow_lt_pow_iff_right (by decide)).mp
      (Nat.lt_of_le_of_lt (fls_spec n hn).1 hlt)
    exact ⟨fls n + 1, by omega, toNat_one_shiftLeft (by omega)⟩

theorem isPowerOf2_iff (x : BitVec 32) : isPowerOf2 x = true ↔ ∃ k ≤ 31, x.toNat = 2 ^ k := by
  have hsub : x ≠ 0 → (x - 1).toNat = x.toNat - 1 := by
    intro hx
    bv_omega
  have hzero : x = 0 ↔ x.toNat = 0 := ⟨fun h => by rw [h]; rfl, fun h => BitVec.eq_of_toNat_eq h⟩
  have hpow : isPowerOf2 x = true ↔ x.toNat.isPowerOfTwo := by
    rw [← Nat.ne_zero_and_sub_one_eq_zero_iff_isPowerOfTwo]
    simp only [isPowerOf2, ne_eq, decide_not, Bool.and_eq_true, Bool.not_eq_true',
      decide_eq_false_iff_not, decide_eq_true_eq]
    constructor
    · rintro ⟨hne, hand⟩
      refine ⟨fun h => hne (hzero.mpr h), ?_⟩
      rw [← hsub hne, ← BitVec.toNat_and, hand]
      rfl
    · rintro ⟨hne, hand⟩
      have hne' : ¬ x = 0 := fun h => hne (hzero.mp h)
      exact ⟨hne', BitVec.eq_of_toNat_eq (by rw [BitVec.toNat_and, hsub hne', hand]; rfl)⟩
  rw [hpow]
  constructor
  · rintro ⟨k, hk⟩
    have hlt : 2 ^ k < 2 ^ 32 := by rw [← hk]; exact x.isLt
    have := (Nat.pow_lt_pow_iff_right (by decide : 1 < 2)).mp hlt
    exact ⟨k, by omega, hk⟩
  · rintro ⟨k, -, hk⟩
    exact ⟨k, hk⟩

/-- The macro rounds up what is not a power of two. -/
theorem roundupPowOfTwo_isRoundup (hp : ¬ isPowerOf2 n = true) (hle : n.toNat ≤ 2 ^ 31)
    (hn : n ≠ 0) : IsRoundup n.toNat (roundupPowOfTwo n).toNat := by
  have hne : ∀ k ≤ 31, n.toNat ≠ 2 ^ k := fun k hk h => hp ((isPowerOf2_iff n).mpr ⟨k, hk, h⟩)
  have hlt : n.toNat < 2 ^ 31 := Nat.lt_of_le_of_ne hle (hne 31 (Nat.le_refl 31))
  have hsmall : ¬ n ≥ 0x80000000 := by
    rw [ge_iff_le, BitVec.le_def]
    exact Nat.not_le.mpr hlt
  obtain ⟨hlo, hhi⟩ := fls_spec n hn
  have hfls : fls n < 31 :=
    (Nat.pow_lt_pow_iff_right (by decide)).mp (Nat.lt_of_le_of_lt hlo hlt)
  have hstrict : 2 ^ fls n < n.toNat := Nat.lt_of_le_of_ne hlo (Ne.symm (hne _ (by omega)))
  rw [roundupPowOfTwo, if_neg hn, if_neg hsmall, toNat_one_shiftLeft (by omega)]
  exact isRoundup_pow_succ hstrict (Nat.le_of_lt hhi)

/-- A new queue is empty, and its size is a power of two. -/
theorem kfifoAlloc_holds (size : BitVec 32) (fill : Nat → UInt8) (h1 : 1 ≤ size.toNat)
    (h2 : size.toNat ≤ 0x80000000) : ∃ fifo, kfifoAlloc size fill = .ok fifo ∧ Holds fifo [] := by
  have hinit : ∀ s : BitVec 32, (∃ k ≤ 31, s.toNat = 2 ^ k) →
      ∃ fifo, kfifoInit ((List.range s.toNat).map fill) s = .ok fifo ∧ Holds fifo [] := by
    intro s hs
    exact ⟨_, if_pos ((isPowerOf2_iff s).mpr hs), hs, by simp, by simp, by simp, Window.nil _ _⟩
  have hne : size ≠ 0 := by
    rintro rfl
    simp at h1
  unfold kfifoAlloc
  by_cases hp : isPowerOf2 size = true
  · rw [if_pos hp, pure_eq_ok, ok_bind]
    exact hinit size ((isPowerOf2_iff size).mp hp)
  · have hle : ¬ size > 0x80000000 := by
      rw [gt_iff_lt, BitVec.lt_def]
      exact Nat.not_lt.mpr h2
    rw [if_neg hp, if_neg hle, pure_eq_ok, ok_bind]
    exact hinit _ (roundupPowOfTwo_pow hne)

/-- The size of a new queue. -/
theorem kfifoAlloc_isRoundup {fifo : Kfifo} (h1 : 1 ≤ size.toNat)
    (h2 : size.toNat ≤ 0x80000000) (h : kfifoAlloc size fill = .ok fifo) :
    IsRoundup size.toNat fifo.size.toNat := by
  have hinit : ∀ {s : BitVec 32} {buffer : List UInt8}, kfifoInit buffer s = .ok fifo →
      fifo.size = s := by
    intro s buffer hs
    unfold kfifoInit at hs
    split at hs
    · cases hs
      rfl
    · cases hs
  unfold kfifoAlloc at h
  by_cases hp : isPowerOf2 size = true
  · rw [if_pos hp, pure_eq_ok, ok_bind] at h
    obtain ⟨k, -, hk⟩ := (isPowerOf2_iff size).mp hp
    rw [hinit h, hk]
    exact isRoundup_pow k
  · have hle : ¬ size > 0x80000000 := by
      rw [gt_iff_lt, BitVec.lt_def]
      exact Nat.not_lt.mpr h2
    rw [if_neg hp, if_neg hle, pure_eq_ok, ok_bind] at h
    have hne : size ≠ 0 := by
      rintro rfl
      simp at h1
    rw [hinit h]
    exact roundupPowOfTwo_isRoundup hp h2 hne

/-- **Sizes**: a new queue has a buffer of the least power of two that is not below the size
that was asked for, and the size less one is a mask for indexes. -/
theorem kfifo_alloc_size (size : BitVec 32) (fill : Nat → UInt8) (h1 : 1 ≤ size.toNat)
    (h2 : size.toNat ≤ 0x80000000) :
    ∃ fifo, kfifoAlloc size fill = .ok fifo ∧ fifo.buffer.length = fifo.size.toNat ∧
      IsRoundup size.toNat fifo.size.toNat ∧
      ∀ x : BitVec 32, (x &&& (fifo.size - 1)).toNat = x.toNat % fifo.size.toNat := by
  obtain ⟨fifo, halloc, hholds⟩ := kfifoAlloc_holds size fill h1 h2
  obtain ⟨k, -, hk⟩ := hholds.pow
  exact ⟨fifo, halloc, hholds.buffer, kfifoAlloc_isRoundup h1 h2 halloc, toNat_and_mask hk⟩

/-- Five bytes get a buffer of eight. -/
theorem kfifo_alloc_size_five :
    ∃ fifo, kfifoAlloc 5 (fun _ => 0) = .ok fifo ∧ fifo.buffer.length = fifo.size.toNat ∧
      IsRoundup 5 fifo.size.toNat ∧
      ∀ x : BitVec 32, (x &&& (fifo.size - 1)).toNat = x.toNat % fifo.size.toNat :=
  kfifo_alloc_size 5 (fun _ => 0) (by decide) (by decide)

/-! ## the refinement -/

section Step

variable {fifo : Kfifo} {q : List UInt8} (h : Holds fifo q)
include h

theorem Holds.size_pos : 0 < fifo.buffer.length := by
  obtain ⟨k, -, hk⟩ := h.pow
  rw [h.buffer, hk]
  exact Nat.two_pow_pos k

/-- Masking a counter with `size - 1` gives its position in the buffer. -/
theorem Holds.toNat_mask (x : BitVec 32) :
    (x &&& (fifo.size - 1)).toNat = x.toNat % fifo.buffer.length := by
  obtain ⟨k, -, hk⟩ := h.pow
  rw [toNat_and_mask hk, h.buffer]

/-- The distance of a position from the end of the buffer. -/
theorem Holds.toNat_size_sub_mask (x : BitVec 32) :
    (fifo.size - (x &&& (fifo.size - 1))).toNat =
      fifo.buffer.length - x.toNat % fifo.buffer.length := by
  have hmask := h.toNat_mask x
  have hlt := Nat.mod_lt x.toNat h.size_pos
  have hsize := h.buffer
  rw [BitVec.toNat_sub, hmask]
  have := fifo.size.isLt
  omega

/-- The bytes in the queue and the room left add up to the size. -/
theorem Holds.toNat_room :
    (fifo.size - fifo.in_ + fifo.out).toNat = fifo.size.toNat - q.length := by
  rw [toNat_free _ _ _ (by rw [h.count]; exact h.le), h.count]

/-- `in` is `q.length` positions after `out`. -/
theorem Holds.in_mod :
    fifo.in_.toNat % fifo.buffer.length = (fifo.out.toNat + q.length) % fifo.buffer.length := by
  rw [h.buffer]
  exact counter_mod h.pow h.count

/-- What is placed behind the queue, in the room that is left, leaves it alone. -/
theorem Holds.placed (hp : Placed fifo.buffer buf' (fifo.in_.toNat + k) src)
    (hlen : k + src.length ≤ fifo.size.toNat - q.length) :
    Holds { fifo with buffer := buf' } q := by
  have hle := h.le
  have hmod : (fifo.in_.toNat + k) % fifo.buffer.length =
      (fifo.out.toNat + (q.length + k)) % fifo.buffer.length := by
    rw [Nat.add_mod, h.in_mod, ← Nat.add_mod, Nat.add_assoc]
  refine ⟨h.pow, hp.length_eq.trans h.buffer, h.count, h.le, ?_⟩
  exact h.window.frame (hp.congr hmod) (by rw [h.buffer]; omega)

/-- Moving `in` over bytes that lie there appends them. -/
theorem Holds.advance_in (hw : Window fifo.buffer fifo.in_.toNat bs) (hlen : len.toNat = bs.length)
    (hroom : bs.length ≤ fifo.size.toNat - q.length) :
    Holds { fifo with in_ := fifo.in_ + len } (q ++ bs) := by
  have hsize := fifo.size.isLt
  have hle := h.le
  have hcount := h.count
  refine ⟨h.pow, h.buffer, ?_, ?_, h.window.concat (hw.congr h.in_mod)⟩
  · have hadd : fifo.in_ + len - fifo.out = (fifo.in_ - fifo.out) + len := by bv_omega
    have hpow := h.pow
    rw [List.length_append, ← hlen]
    dsimp only
    rw [hadd, BitVec.toNat_add, hcount]
    omega
  · rw [List.length_append]
    dsimp only
    omega

/-- Moving `out` drops the oldest bytes. -/
theorem Holds.advance_out (hlen : len.toNat ≤ q.length) :
    Holds { fifo with out := fifo.out + len } (q.drop len.toNat) := by
  have hcount := h.count
  have hle := h.le
  refine ⟨h.pow, h.buffer, ?_, ?_, (h.window.drop len.toNat).congr ?_⟩
  · rw [List.length_drop]
    dsimp only
    bv_omega
  · rw [List.length_drop]
    dsimp only
    omega
  · dsimp only
    rw [h.buffer, toNat_add_mod h.pow]

/-- `__kfifo_put` appends as many bytes as there is room for. -/
theorem Holds.put (buf : List UInt8) (len : BitVec 32) (hlen : len.toNat ≤ buf.length)
    (hn : n = min len.toNat (fifo.size.toNat - q.length)) :
    ∃ fifo' ret, __kfifoPut fifo buf len = .ok (fifo', ret) ∧ ret.toNat = n ∧
      fifo'.size = fifo.size ∧ Holds fifo' (q ++ buf.take n) := by
  have hsize := fifo.size.isLt
  have hle := h.le
  have hret : (cMin len (fifo.size - fifo.in_ + fifo.out)).toNat = n := by
    rw [toNat_cMin, h.toNat_room, hn]
  unfold __kfifoPut
  generalize cMin len (fifo.size - fifo.in_ + fifo.out) = ret at hret
  have hsrc : (buf.take n).length = n := by rw [List.length_take]; omega
  -- the first half ends with the data or at the end of the buffer
  have hl : (cMin ret (fifo.size - (fifo.in_ &&& (fifo.size - 1)))).toNat =
      min (buf.take n).length (fifo.buffer.length -
        (fifo.out.toNat + q.length) % fifo.buffer.length) := by
    rw [toNat_cMin, h.toNat_size_sub_mask, h.in_mod, hret, hsrc]
  generalize hgen : cMin ret (fifo.size - (fifo.in_ &&& (fifo.size - 1))) = l at hl
  have hln : l.toNat ≤ n := by omega
  have hfrom₁ : memcpyFrom buf 0 l.toNat = .ok ((buf.take n).take l.toNat) := by
    rw [memcpyFrom, if_pos (by omega), List.drop_zero, List.take_take, Nat.min_eq_left hln]
  have hfrom₂ : memcpyFrom buf l.toNat (ret - l).toNat = .ok ((buf.take n).drop l.toNat) := by
    rw [memcpyFrom, if_pos (by bv_omega), List.drop_take,
      show (ret - l).toNat = n - l.toNat by bv_omega]
  obtain ⟨buf₁, buf₂, h₁, h₂, hp⟩ := placed_copy (by rw [hsrc, h.buffer]; omega) h.size_pos hl
  refine ⟨{ fifo with buffer := buf₂, in_ := fifo.in_ + ret }, ret, ?_, hret, rfl, ?_⟩
  · simp only [h.toNat_mask, h.in_mod, hgen, hfrom₁, hfrom₂, h₁, h₂, ok_bind, pure_eq_ok]
  · have hp := hp.congr h.in_mod.symm
    exact (h.placed (k := 0) hp (by rw [hsrc]; omega)).advance_in hp.written
      (by rw [hret, hsrc]) (by rw [hsrc]; dsimp only; omega)

/-- `__kfifo_get` takes the oldest bytes. -/
theorem Holds.get (len : BitVec 32) (hn : n = min len.toNat q.length) :
    ∃ fifo' ret, __kfifoGet fifo len = .ok (fifo', ret, q.take n) ∧ ret.toNat = n ∧
      fifo'.size = fifo.size ∧ Holds fifo' (q.drop n) := by
  have hsize := fifo.size.isLt
  have hle := h.le
  have hcount := h.count
  have hret : (cMin len (fifo.in_ - fifo.out)).toNat = n := by rw [toNat_cMin, hcount, hn]
  unfold __kfifoGet
  generalize cMin len (fifo.in_ - fifo.out) = ret at hret
  have hsrc : (q.take n).length = n := by rw [List.length_take]; omega
  have hl : (cMin ret (fifo.size - (fifo.out &&& (fifo.size - 1)))).toNat =
      min (q.take n).length (fifo.buffer.length - fifo.out.toNat % fifo.buffer.length) := by
    rw [toNat_cMin, h.toNat_size_sub_mask, hret, hsrc]
  generalize hgen : cMin ret (fifo.size - (fifo.out &&& (fifo.size - 1))) = l at hl
  obtain ⟨h₁, h₂⟩ := (h.window.take n).copy (by rw [hsrc, h.buffer]; omega) h.size_pos hl
  rw [hsrc, show n - l.toNat = (ret - l).toNat by bv_omega] at h₂
  refine ⟨{ fifo with out := fifo.out + ret }, ret, ?_, hret, rfl, ?_⟩
  · simp only [h.toNat_mask, hgen, h₁, h₂, ok_bind, pure_eq_ok, List.take_append_drop]
  · rw [← hret]
    exact h.advance_out (by omega)

/-- Setting both counters to 0 empties the queue. -/
theorem Holds.reset : Holds { fifo with in_ := 0, out := 0 } [] :=
  ⟨h.pow, h.buffer, by simp, Nat.zero_le _, Window.nil _ _⟩

/-- **One call**: the queue the buffer holds changes as specified, no copy
leaves the buffer, and the call returns what the specification says. -/
theorem Holds.step (op : KfifoOp) :
    ∃ fifo', kfifoStep fifo op = .ok (fifo', (queueStep fifo.size.toNat q op).2) ∧
      fifo'.size = fifo.size ∧ Holds fifo' (queueStep fifo.size.toNat q op).1 := by
  cases op with
  | put buf len hlen =>
      obtain ⟨fifo', ret, hput, hret, hsz, hh⟩ := h.put buf len hlen rfl
      refine ⟨fifo', ?_, hsz, hh⟩
      simp only [kfifoStep, kfifoPut, hput, ok_bind, pure_eq_ok, hret, queueStep]
  | get len =>
      obtain ⟨fifo', ret, hget, hret, hsz, hh⟩ := h.get len rfl
      by_cases hempty : fifo'.in_ = fifo'.out
      · -- the shortcut: nothing is queued, so the counters may restart at 0
        refine ⟨{ fifo' with in_ := 0, out := 0 }, ?_, hsz, ?_⟩
        · simp only [kfifoStep, kfifoGet, hget, ok_bind, pure_eq_ok, hempty, if_true, hret,
            queueStep]
        · have hnil : q.drop (min len.toNat q.length) = [] := by
            rw [← List.length_eq_zero_iff, ← hh.count, hempty, BitVec.sub_self]
            rfl
          simp only [queueStep, hnil]
          exact hh.reset
      · refine ⟨fifo', ?_, hsz, hh⟩
        simp only [kfifoStep, kfifoGet, hget, ok_bind, pure_eq_ok, hempty, if_false, hret,
          queueStep]
  | len => exact ⟨fifo, by simp only [kfifoStep, kfifoLen, __kfifoLen, h.count]; rfl, rfl, h⟩
  | reset => exact ⟨_, rfl, rfl, h.reset⟩

end Step

/-- **`kfifo` is a bounded queue of bytes.**  From `kfifo_alloc(size)` every
sequence of calls runs without a copy leaving the buffer, and returns exactly
what a queue of at most `fifo->size` bytes returns; `kfifo_len` is the length
of that queue and never exceeds its capacity. -/
theorem kfifo_refines_queue (size : BitVec 32) (fill : Nat → UInt8) (h1 : 1 ≤ size.toNat)
    (h2 : size.toNat ≤ 0x80000000) (ops : List KfifoOp) :
    ∃ fifo₀ fifo, kfifoAlloc size fill = .ok fifo₀ ∧
      exec kfifoStep fifo₀ ops =
        .ok (fifo, (execSpec (queueStep fifo₀.size.toNat) [] ops).2) ∧
      Holds fifo (execSpec (queueStep fifo₀.size.toNat) [] ops).1 ∧
      (kfifoLen fifo).toNat = (execSpec (queueStep fifo₀.size.toNat) [] ops).1.length ∧
      (kfifoLen fifo).toNat ≤ fifo₀.size.toNat := by
  obtain ⟨fifo₀, halloc, hinit⟩ := kfifoAlloc_holds size fill h1 h2
  have hstep : ∀ (f : Kfifo) (q : List UInt8) (op : KfifoOp), Holds f q ∧ f.size = fifo₀.size →
      ∃ f', kfifoStep f op = .ok (f', (queueStep fifo₀.size.toNat q op).2) ∧
        Holds f' (queueStep fifo₀.size.toNat q op).1 ∧ f'.size = fifo₀.size := by
    rintro f q op ⟨hh, hsz⟩
    obtain ⟨f', hf', hsz', hh'⟩ := hh.step op
    rw [hsz] at hf' hh'
    exact ⟨f', hf', hh', hsz'.trans hsz⟩
  obtain ⟨fifo, hexec, hh, hsz⟩ := exec_refines hstep ops ⟨hinit, rfl⟩
  have hlen : (kfifoLen fifo).toNat = (execSpec (queueStep fifo₀.size.toNat) [] ops).1.length :=
    hh.count
  have hle := hh.le
  rw [hsz, ← hlen] at hle
  exact ⟨fifo₀, fifo, halloc, hexec, hh, hlen, hle⟩

/-- A queue of three bytes has room for four, and gives them back in order. -/
theorem kfifo_refines_queue_three :
    ∃ fifo₀ fifo, kfifoAlloc 3 (fun _ => 0) = .ok fifo₀ ∧ fifo₀.size = 4 ∧
      exec kfifoStep fifo₀ [.put [1, 2, 3, 4, 5] 5 (by decide), .get 2, .len] =
        .ok (fifo, [.count 4, .bytes 2 [1, 2], .count 2]) := by
  obtain ⟨fifo₀, fifo, halloc, hexec, -⟩ := kfifo_refines_queue 3 (fun _ => 0) (by decide)
    (by decide) [.put [1, 2, 3, 4, 5] 5 (by decide), .get 2, .len]
  obtain rfl : fifo₀ = ⟨[0, 0, 0, 0], 4, 0, 0⟩ := by
    have hval : kfifoAlloc 3 (fun _ => 0) = .ok ⟨[0, 0, 0, 0], 4, 0, 0⟩ := rfl
    rw [hval] at halloc
    exact (Except.ok.inj halloc).symm
  exact ⟨_, fifo, halloc, rfl, hexec⟩

end MySrc
