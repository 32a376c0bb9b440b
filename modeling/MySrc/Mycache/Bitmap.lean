import MySrc.Lib.Word

/-!
# MySrc.Mycache.Bitmap

`mycache/src/struct/bitmap.h`: an array of 64-bit words, read and written one bit
at a time.  A position is an `int`; one that selects no word of the array is a
fault, and so is one that overflows.

`bitAt` is the bit at a position.  A region operation writes the bits of its region
and no other (`bmRegion_eq`), and `bm_isset_region` says whether one of them is set
(`bmIssetRegion_eq`).  `bm_fill` puts its number of bytes into an `int`, which is
enough for `2 ^ 34` bits (`bitmap_exact_iff`).
-/

namespace MySrc

open Lib

/-- The words of a bitmap. -/
abbrev Bitmap := List (BitVec 64)

/-! ## the functions -/

/-- `_bm_getmask`: the mask and the index of the word. -/
def bmGetmask (pos : Int) : BitVec 64 × Int := (1#64 <<< (pos % 64).toNat, pos / 64)

/-- `bm[i]` -/
def bmWord (bm : Bitmap) (i : Int) : Except Fault (BitVec 64) :=
  if i < 0 then .error .outOfBounds
  else
    match bm[i.toNat]? with
    | none => .error .outOfBounds
    | some w => .ok w

/-- `bm[i] = f(bm[i], bmask)` -/
def bmUpdate (f : BitVec 64 → BitVec 64 → BitVec 64) (bm : Bitmap) (pos : Int) :
    Except Fault Bitmap := do
  let (bmask, i) := bmGetmask pos
  let w ← bmWord bm i
  return bm.set i.toNat (f w bmask)

/-- The word with the bits of the mask set. -/
def setMask (w bmask : BitVec 64) : BitVec 64 := w ||| bmask

/-- The word with the bits of the mask cleared. -/
def clrMask (w bmask : BitVec 64) : BitVec 64 := w &&& ~~~bmask

/-- `bm_setbit` -/
def bmSetbit : Bitmap → Int → Except Fault Bitmap := bmUpdate setMask

/-- `bm_clrbit` -/
def bmClrbit : Bitmap → Int → Except Fault Bitmap := bmUpdate clrMask

/-- `bm_isset` -/
def bmIsset (bm : Bitmap) (pos : Int) : Except Fault Bool := do
  let (bmask, i) := bmGetmask pos
  let w ← bmWord bm i
  return w &&& bmask != 0

/-- `pos + i`, an `int`. -/
def bmPos (pos : Int) : Except Fault Int :=
  if pos < 2 ^ 31 then .ok pos else .error .overflow

/-- The loop of the region operations. -/
def bmRegion (op : Bitmap → Int → Except Fault Bitmap) (bm : Bitmap) (pos : Int) :
    Nat → Except Fault Bitmap
  | 0 => .ok bm
  | region + 1 => do
      let bm ← op bm (← bmPos pos)
      bmRegion op bm (pos + 1) region

/-- `bm_setbit_region` -/
def bmSetbitRegion : Bitmap → Int → Nat → Except Fault Bitmap := bmRegion bmSetbit

/-- `bm_clrbit_region` -/
def bmClrbitRegion : Bitmap → Int → Nat → Except Fault Bitmap := bmRegion bmClrbit

/-- `bm_isset_region` -/
def bmIssetRegion (bm : Bitmap) (pos : Int) : Nat → Except Fault Bool
  | 0 => .ok false
  | region + 1 => do
      if ← bmIsset bm (← bmPos pos) then return true
      bmIssetRegion bm (pos + 1) region

/-- `BITMAP_LAST_WORD_MASK` -/
def bitmapLastWordMask (nbits : BitVec 64) : BitVec 64 :=
  if nbits % 64 ≠ 0 then (1#64 <<< (nbits % 64).toNat) - 1 else ~~~0

/-- `memset(dst, 0xff, len)`, for a `len` that is a number of words. -/
def memsetOnes (dst : Bitmap) (len : BitVec 64) : Except Fault Bitmap :=
  if len.toNat ≤ 8 * dst.length then
    .ok (List.replicate (len.toNat / 8) (~~~0) ++ dst.drop (len.toNat / 8))
  else .error .outOfBounds

/-- `int len = (nlongs - 1) * sizeof(ulong_t)`, as the `size_t` that `memset` takes. -/
def fillLen (nlongs : BitVec 64) : BitVec 64 := BitVec.ofInt 64 (i32 ((nlongs - 1) * 8).toNat)

/-- The words before the last one; `constant_p` says whether the compiler knows `nbits`. -/
def bmFillFront (constant_p : Bool) (dst : Bitmap) (nbits : BitVec 64) : Except Fault Bitmap :=
  if constant_p ∧ nbits ≤ 64 then .ok dst else memsetOnes dst (fillLen ((nbits + 63) / 64))

/-- `bm_fill` -/
def bmFill (constant_p : Bool) (dst : Bitmap) (nbits : BitVec 64) : Except Fault Bitmap := do
  let nlongs := (nbits + 63) / 64
  let dst ← bmFillFront constant_p dst nbits
  if (nlongs - 1).toNat < dst.length then
    return dst.set (nlongs - 1).toNat (bitmapLastWordMask nbits)
  else .error .outOfBounds

/-! ## bits -/

/-- The bit at a position, clear behind the last word. -/
def bitAt (bm : Bitmap) (j : Nat) : Bool := (bm.getD (j / 64) 0).getLsbD (j % 64)

/-- `f` writes `b` to the bit of the mask. -/
def Writes (f : BitVec 64 → BitVec 64 → BitVec 64) (b : Bool) : Prop :=
  ∀ (w : BitVec 64) (m i : Nat), m < 64 → i < 64 →
    (f w (1#64 <<< m)).getLsbD i = if i = m then b else w.getLsbD i

theorem getLsbD_mask (hi : i < 64) : (1#64 <<< m).getLsbD i = decide (i = m) := by
  rw [← BitVec.twoPow_eq, BitVec.getLsbD_twoPow]
  grind

theorem writes_setMask : Writes setMask true := by
  intro w m i _ hi
  rw [setMask, BitVec.getLsbD_or, getLsbD_mask hi]
  by_cases h : i = m <;> simp [h]

theorem writes_clrMask : Writes clrMask false := by
  intro w m i _ hi
  rw [clrMask, BitVec.getLsbD_and, BitVec.getLsbD_not, getLsbD_mask hi]
  by_cases h : i = m <;> simp [h, hi]

theorem bmWord_ok {bm : Bitmap} (h : i < bm.length) : bmWord bm i = .ok (bm.getD i 0) := by
  rw [bmWord, if_neg (by omega), Int.toNat_natCast, List.getElem?_eq_getElem h]
  simp [List.getD_eq_getElem?_getD, h]

/-- Only a word of the bitmap can be read. -/
theorem bmWord_eq_ok {bm : Bitmap} (h : bmWord bm i = .ok w) : 0 ≤ i ∧ i.toNat < bm.length := by
  rw [bmWord] at h
  split at h
  · cases h
  · next hneg =>
      split at h
      · cases h
      · next hget => exact ⟨by omega, (List.getElem?_eq_some_iff.mp hget).1⟩

theorem bmPos_eq_ok {pos i : Int} : bmPos pos = .ok i ↔ pos < 2 ^ 31 ∧ pos = i := by
  rw [bmPos]
  split
  · next hlt => exact ⟨fun h => ⟨hlt, Except.ok.inj h⟩, fun h => congrArg _ h.2⟩
  · next hlt => exact ⟨fun h => (by cases h), fun h => absurd h.1 hlt⟩

/-- The word and the mask of a position inside the bitmap. -/
theorem bmGetmask_natCast (pos : Nat) :
    bmGetmask pos = (1#64 <<< (pos % 64), ((pos / 64 : Nat) : Int)) := by
  rw [bmGetmask]
  congr 2

/-- One bit is written. -/
theorem bmUpdate_eq (hf : Writes f b) {bm : Bitmap} (hpos : pos < 64 * bm.length) :
    ∃ bm', bmUpdate f bm (pos : Nat) = .ok bm' ∧ bm'.length = bm.length ∧
      ∀ j, bitAt bm' j = if j = pos then b else bitAt bm j := by
  have hi : pos / 64 < bm.length := by omega
  refine ⟨bm.set (pos / 64) (f (bm.getD (pos / 64) 0) (1#64 <<< (pos % 64))), ?_, by simp,
    fun j => ?_⟩
  · simp only [bmUpdate, bmGetmask_natCast, bmWord_ok hi, ok_bind, pure_eq_ok, Int.toNat_natCast]
  · simp only [bitAt, List.getD_eq_getElem?_getD, List.getElem?_set]
    by_cases hw : pos / 64 = j / 64
    · rw [if_pos hw, if_pos hi, Option.getD_some, hf _ _ _ (by omega) (by omega), ← hw]
      have : j % 64 = pos % 64 ↔ j = pos := by omega
      simp only [this]
    · rw [if_neg hw, if_neg (by rintro rfl; exact hw rfl)]

/-- **A region operation** writes the bits of its region and no other, when the positions are
`int`s. -/
theorem bmRegion_eq (hf : Writes f b) {bm : Bitmap} (hpos : pos + region ≤ 64 * bm.length)
    (hint : pos + region ≤ 2 ^ 31) :
    ∃ bm', bmRegion (bmUpdate f) bm (pos : Nat) region = .ok bm' ∧ bm'.length = bm.length ∧
      ∀ j, bitAt bm' j = if pos ≤ j ∧ j < pos + region then b else bitAt bm j := by
  induction region generalizing bm pos with
  | zero => exact ⟨bm, rfl, rfl, fun j => by rw [if_neg (by omega)]⟩
  | succ region ih =>
      obtain ⟨bm₁, h₁, hlen₁, hbit₁⟩ := bmUpdate_eq hf (show pos < 64 * bm.length by omega)
      obtain ⟨bm₂, h₂, hlen₂, hbit₂⟩ := ih (show pos + 1 + region ≤ 64 * bm₁.length by omega)
        (by omega)
      refine ⟨bm₂, ?_, by omega, fun j => ?_⟩
      · rw [bmRegion, bmPos_eq_ok.mpr ⟨by omega, rfl⟩, ok_bind, h₁, ok_bind]
        exact h₂
      · rw [hbit₂, hbit₁]
        grind

theorem bmIsset_natCast {bm : Bitmap} (hpos : pos < 64 * bm.length) :
    bmIsset bm (pos : Nat) = .ok (bitAt bm pos) := by
  have hi : pos / 64 < bm.length := by omega
  have hm : pos % 64 < 64 := by omega
  simp only [bmIsset, bmGetmask_natCast, bmWord_ok hi, ok_bind, pure_eq_ok, bitAt]
  rw [← BitVec.twoPow_eq, BitVec.and_twoPow]
  cases h : (bm.getD (pos / 64) 0).getLsbD (pos % 64) with
  | false => simp
  | true =>
      have hne : BitVec.twoPow 64 (pos % 64) ≠ 0#64 := by
        intro h0
        have hbit := congrArg (·.getLsbD (pos % 64)) h0
        simp [hm] at hbit
      simpa using hne

/-- Reading a bit succeeds only inside the bitmap. -/
theorem bmIsset_ok {bm : Bitmap} (h : bmIsset bm pos = .ok b) :
    ∃ k : Nat, pos = k ∧ k < 64 * bm.length ∧ bitAt bm k = b := by
  obtain ⟨w, hw, -⟩ := bind_eq_ok.mp h
  obtain ⟨hlo, hhi⟩ := bmWord_eq_ok hw
  have hk : pos.toNat < 64 * bm.length := by omega
  have hpos : pos = (pos.toNat : Int) := by omega
  rw [hpos, bmIsset_natCast hk] at h
  exact ⟨pos.toNat, hpos, hk, Except.ok.inj h⟩

/-- **`bm_isset_region`** succeeds without finding a bit only inside the bitmap, where
all bits of the region are clear. -/
theorem bmIssetRegion_false {bm : Bitmap} (hregion : 0 < region)
    (h : bmIssetRegion bm pos region = .ok false) :
    ∃ k : Nat, pos = k ∧ k + region ≤ 64 * bm.length ∧
      ∀ j, k ≤ j → j < k + region → bitAt bm j = false := by
  induction region generalizing pos with
  | zero => omega
  | succ region ih =>
      obtain ⟨i, hi, h⟩ := bind_eq_ok.mp h
      obtain ⟨b, hb, h⟩ := bind_eq_ok.mp h
      obtain ⟨-, rfl⟩ := bmPos_eq_ok.mp hi
      obtain ⟨k, rfl, hk, hbit⟩ := bmIsset_ok hb
      cases b with
      | true => cases h
      | false =>
          have hfirst : ∀ j, k ≤ j → j < k + 1 → bitAt bm j = false := by
            intro j h1 h2
            obtain rfl : j = k := by omega
            exact hbit
          cases region with
          | zero => exact ⟨k, rfl, by omega, hfirst⟩
          | succ region =>
              obtain ⟨k', hk', hle, hrest⟩ := ih (by omega) h
              obtain rfl : k' = k + 1 := by omega
              refine ⟨k, rfl, by omega, fun j h1 h2 => ?_⟩
              by_cases hj : j < k + 1
              · exact hfirst j h1 hj
              · exact hrest j (by omega) (by omega)

/-- `bm_isset_region` says whether there is a bit in the region. -/
theorem bmIssetRegion_eq {bm : Bitmap} (hpos : pos + region ≤ 64 * bm.length)
    (hint : pos + region ≤ 2 ^ 31) :
    ∃ b, bmIssetRegion bm (pos : Nat) region = .ok b ∧
      (b = true ↔ ∃ j, pos ≤ j ∧ j < pos + region ∧ bitAt bm j = true) := by
  induction region generalizing pos with
  | zero => exact ⟨false, rfl, by simp; omega⟩
  | succ region ih =>
      rw [bmIssetRegion, bmPos_eq_ok.mpr ⟨by omega, rfl⟩, ok_bind, bmIsset_natCast (by omega),
        ok_bind]
      cases hbit : bitAt bm pos with
      | true => exact ⟨true, rfl, by simpa using ⟨pos, Nat.le_refl _, by omega, hbit⟩⟩
      | false =>
          obtain ⟨b, hb, hiff⟩ := ih (show pos + 1 + region ≤ 64 * bm.length by omega) (by omega)
          refine ⟨b, hb, hiff.trans ⟨?_, ?_⟩⟩
          · rintro ⟨j, h1, h2, hj⟩
            exact ⟨j, by omega, by omega, hj⟩
          · rintro ⟨j, h1, h2, hj⟩
            have hne : j ≠ pos := by
              rintro rfl
              rw [hbit] at hj
              cases hj
            exact ⟨j, by omega, by omega, hj⟩

/-- A region with all bits clear. -/
theorem bmIssetRegion_of_clear {bm : Bitmap} (hpos : pos + region ≤ 64 * bm.length)
    (hint : pos + region ≤ 2 ^ 31)
    (hclear : ∀ j, pos ≤ j → j < pos + region → bitAt bm j = false) :
    bmIssetRegion bm (pos : Nat) region = .ok false := by
  obtain ⟨b, hb, hiff⟩ := bmIssetRegion_eq hpos hint
  cases b with
  | false => exact hb
  | true =>
      obtain ⟨j, h1, h2, hj⟩ := hiff.mp rfl
      rw [hclear j h1 h2] at hj
      cases hj

/-- A region operation that succeeds starts inside the bitmap, and keeps its size. -/
theorem bmRegion_ok {bm : Bitmap} (h : bmRegion (bmUpdate f) bm pos region = .ok bm') :
    bm'.length = bm.length ∧ (0 < region → 0 ≤ pos ∧ pos < 64 * bm.length) := by
  induction region generalizing bm pos with
  | zero =>
      cases h
      exact ⟨rfl, fun hpos => absurd hpos (Nat.lt_irrefl 0)⟩
  | succ region ih =>
      obtain ⟨i, hi, h⟩ := bind_eq_ok.mp h
      obtain ⟨-, rfl⟩ := bmPos_eq_ok.mp hi
      obtain ⟨bm₁, hupdate, h⟩ := bind_eq_ok.mp h
      obtain ⟨w, hw, hset⟩ := bind_eq_ok.mp hupdate
      cases hset
      obtain ⟨hlo, hhi⟩ := bmWord_eq_ok hw
      have hlen := (ih h).1
      refine ⟨by simpa using hlen, fun _ => by omega⟩

/-- Its positions are `int`s. -/
theorem le_of_bmRegion_ok (h : bmRegion op bm pos region = .ok bm') (hpos : pos < 2 ^ 31) :
    pos + region ≤ 2 ^ 31 := by
  induction region generalizing bm pos with
  | zero => omega
  | succ region ih =>
      obtain ⟨i, hi, h⟩ := bind_eq_ok.mp h
      obtain ⟨bm₁, -, h⟩ := bind_eq_ok.mp h
      cases region with
      | zero => omega
      | succ region =>
          -- the next turn has begun
          obtain ⟨i', hi', -⟩ := bind_eq_ok.mp h
          have := ih h (bmPos_eq_ok.mp hi').1
          omega

/-- A bitmap of zeros has no bit set. -/
theorem bitAt_replicate (n j : Nat) : bitAt (List.replicate n 0) j = false := by
  simp only [bitAt, List.getD_eq_getElem?_getD, List.getElem?_replicate]
  split <;> simp

/-! ## regions -/

/-- The region operations write and find exactly the bits from `pos` to `pos + region - 1`. -/
structure RegionExact (bm : Bitmap) (pos : Nat) (region : Int) : Prop where
  setbit : ∃ bm', bmSetbitRegion bm pos region.toNat = .ok bm' ∧ bm'.length = bm.length ∧
    ∀ j : Nat, bitAt bm' j = if pos ≤ j ∧ j < pos + region then true else bitAt bm j
  clrbit : ∃ bm', bmClrbitRegion bm pos region.toNat = .ok bm' ∧ bm'.length = bm.length ∧
    ∀ j : Nat, bitAt bm' j = if pos ≤ j ∧ j < pos + region then false else bitAt bm j
  isset : ∃ b, bmIssetRegion bm pos region.toNat = .ok b ∧
    (b = true ↔ ∃ j : Nat, pos ≤ j ∧ j < pos + region ∧ bitAt bm j = true)

/-- **Regions**: the operations are exact as long as the positions are `int`s. -/
theorem regionExact_iff {bm : Bitmap} {pos : Nat} {region : Int} (hpos : pos < 2 ^ 31)
    (hwithin : pos + region ≤ 64 * bm.length) :
    RegionExact bm pos region ↔ pos + region ≤ 2 ^ 31 := by
  constructor
  · rintro ⟨⟨bm', hset, -⟩, -, -⟩
    have := le_of_bmRegion_ok hset (by omega)
    omega
  · intro hint
    have hrange : ∀ j : Nat, pos ≤ j → ((j : Int) < pos + region ↔ j < pos + region.toNat) := by
      intro j _
      omega
    have hwrite : ∀ {f b}, Writes f b → ∃ bm', bmRegion (bmUpdate f) bm pos region.toNat = .ok bm' ∧
        bm'.length = bm.length ∧
        ∀ j : Nat, bitAt bm' j = if pos ≤ j ∧ j < pos + region then b else bitAt bm j := by
      intro f b hf
      simp only [and_congr_right (hrange _)]
      by_cases hzero : region.toNat = 0
      · rw [hzero]
        exact ⟨bm, rfl, rfl, fun j => by rw [if_neg (by omega)]⟩
      · exact bmRegion_eq hf (by omega) (by omega)
    refine ⟨hwrite writes_setMask, hwrite writes_clrMask, ?_⟩
    have hfind : ∀ j : Nat, pos ≤ j ∧ (j : Int) < pos + region ∧ bitAt bm j = true ↔
        pos ≤ j ∧ j < pos + region.toNat ∧ bitAt bm j = true := fun j =>
      and_congr_right fun hj => and_congr_left' (hrange j hj)
    simp only [hfind]
    by_cases hzero : region.toNat = 0
    · rw [hzero]
      exact ⟨false, rfl, by simp; omega⟩
    · exact bmIssetRegion_eq (by omega) (by omega)

/-! ## filling -/

/-- The words that hold some of the first bits. -/
def wordsOf (nbits : BitVec 64) : Nat := (nbits.toNat + 63) / 64

/-- `bm_fill` sets the first bits, clears the rest of their last word and leaves the other words. -/
def FillExact (constant_p : Bool) (bm : Bitmap) (nbits : BitVec 64) : Prop :=
  ∃ bm', bmFill constant_p bm nbits = .ok bm' ∧ bm'.length = bm.length ∧
    ∀ j, bitAt bm' j =
      if j < nbits.toNat then true else if j < 64 * wordsOf nbits then false else bitAt bm j

theorem getLsbD_lastWordMask (nbits : BitVec 64) (hi : i < 64) :
    (bitmapLastWordMask nbits).getLsbD i = decide (nbits.toNat % 64 = 0 ∨ i < nbits.toNat % 64) := by
  have hmod : (nbits % 64).toNat = nbits.toNat % 64 := BitVec.toNat_umod
  unfold bitmapLastWordMask
  by_cases h : nbits % 64 = 0
  · have h0 : nbits.toNat % 64 = 0 := by rw [← hmod, h]; rfl
    rw [if_neg (by simpa using h), BitVec.getLsbD_not]
    simp [h0, hi]
  · have h0 : nbits.toNat % 64 ≠ 0 := fun h0 => h (BitVec.eq_of_toNat_eq (hmod.trans h0))
    have hlt : nbits.toNat % 64 < 64 := Nat.mod_lt _ (by decide)
    have hpow : 2 ^ (nbits.toNat % 64) < 2 ^ 64 := Nat.pow_lt_pow_right (by decide) hlt
    have hpos := Nat.two_pow_pos (nbits.toNat % 64)
    have hnat : ((1#64 <<< (nbits % 64).toNat) - 1).toNat = 2 ^ (nbits.toNat % 64) - 1 := by
      rw [BitVec.toNat_sub, BitVec.toNat_shiftLeft, hmod, Nat.shiftLeft_eq,
        show (1#64).toNat = 1 from rfl, Nat.one_mul, Nat.mod_eq_of_lt hpow,
        show (1 : BitVec 64).toNat = 1 from rfl]
      omega
    rw [if_pos h, BitVec.getLsbD, hnat, Nat.testBit_two_pow_sub_one]
    simp [h0]

/-- Ones in the first `k` words, and the last word at `i`. -/
def fillWords (nbits : BitVec 64) (k i : Nat) (bm : Bitmap) : Bitmap :=
  (List.replicate k (~~~0) ++ bm.drop k).set i (bitmapLastWordMask nbits)

/-- The `int` is the size itself, or no size of memory at all. -/
theorem fillLen_cases (nlongs : BitVec 64) :
    (fillLen nlongs).toNat < 2 ^ 31 ∨ 2 ^ 64 - 2 ^ 31 ≤ (fillLen nlongs).toNat := by
  obtain ⟨hlo, hhi⟩ := isI32_i32 ((nlongs - 1) * 8).toNat
  rw [fillLen, BitVec.toNat_ofInt]
  omega

section

variable {constant_p : Bool} {bm bm' : Bitmap} {nbits : BitVec 64} {k i : Nat}

theorem length_fillWords (hk : k ≤ bm.length) : (fillWords nbits k i bm).length = bm.length := by
  rw [fillWords, List.length_set, List.length_append, List.length_replicate, List.length_drop]
  omega

/-- The words after the `memset` and the assignment behind it. -/
theorem getD_fillWords (hk : k ≤ bm.length) (hi : i < bm.length) (j : Nat) :
    (fillWords nbits k i bm).getD j 0 =
      if j = i then bitmapLastWordMask nbits else if j < k then ~~~0 else bm.getD j 0 := by
  have hlen : (fillWords nbits k i bm).length = bm.length := length_fillWords hk
  rw [fillWords, List.length_set] at hlen
  rw [fillWords, List.getD_eq_getElem?_getD, List.getElem?_set]
  by_cases hj : j = i
  · subst hj
    rw [if_pos rfl, if_pos (by omega), if_pos rfl]
    rfl
  · rw [if_neg (Ne.symm hj), if_neg hj, List.getElem?_append, List.length_replicate]
    by_cases hjk : j < k
    · rw [if_pos hjk, if_pos hjk, List.getElem?_replicate, if_pos hjk]
      rfl
    · rw [if_neg hjk, if_neg hjk, List.getElem?_drop, Nat.add_sub_cancel' (by omega),
        List.getD_eq_getElem?_getD]

theorem bitAt_fillWords (hk : k ≤ bm.length) (hi : i < bm.length) (j : Nat) :
    bitAt (fillWords nbits k i bm) j =
      if j / 64 = i then decide (nbits.toNat % 64 = 0 ∨ j % 64 < nbits.toNat % 64)
      else if j / 64 < k then true else bitAt bm j := by
  have hmod : j % 64 < 64 := Nat.mod_lt _ (by decide)
  rw [bitAt, getD_fillWords hk hi]
  by_cases hj : j / 64 = i
  · rw [if_pos hj, if_pos hj, getLsbD_lastWordMask nbits hmod]
  · rw [if_neg hj, if_neg hj]
    by_cases hjk : j / 64 < k
    · rw [if_pos hjk, if_pos hjk, BitVec.getLsbD_not]
      simp [hmod]
    · rw [if_neg hjk, if_neg hjk, bitAt]

/-- The index of the last word, and the bytes before it. -/
theorem fill_sizes (h1 : 1 ≤ nbits.toNat) (hle : nbits.toNat ≤ 2 ^ 34) :
    ((nbits + 63) / 64 - 1).toNat = wordsOf nbits - 1 ∧
      (fillLen ((nbits + 63) / 64)).toNat = 8 * (wordsOf nbits - 1) := by
  have hwords : ((nbits + 63) / 64).toNat = wordsOf nbits := by
    rw [BitVec.toNat_udiv, BitVec.toNat_add, show (63 : BitVec 64).toNat = 63 from rfl,
      show (64 : BitVec 64).toNat = 64 from rfl, wordsOf]
    omega
  have hpos : 1 ≤ wordsOf nbits ∧ wordsOf nbits ≤ 2 ^ 28 := by
    rw [wordsOf]
    omega
  have hlast : ((nbits + 63) / 64 - 1).toNat = wordsOf nbits - 1 := by
    rw [BitVec.toNat_sub, hwords, show (1 : BitVec 64).toNat = 1 from rfl]
    omega
  have hbytes : (((nbits + 63) / 64 - 1) * 8).toNat = 8 * (wordsOf nbits - 1) := by
    rw [BitVec.toNat_mul, hlast, show (8 : BitVec 64).toNat = 8 from rfl]
    omega
  refine ⟨hlast, ?_⟩
  rw [fillLen, hbytes, i32_eq_self ⟨by omega, by omega⟩, BitVec.toNat_ofInt]
  omega

/-- Up to `2 ^ 34` bits the words before the last one are set. -/
theorem bmFill_eq (h1 : 1 ≤ nbits.toNat) (hle : nbits.toNat ≤ 2 ^ 34)
    (hwithin : nbits.toNat ≤ 64 * bm.length) :
    bmFill constant_p bm nbits =
      .ok (fillWords nbits (wordsOf nbits - 1) (wordsOf nbits - 1) bm) := by
  obtain ⟨hlast, hlen⟩ := fill_sizes h1 hle
  have hwords : wordsOf nbits - 1 < bm.length ∧ (nbits.toNat ≤ 64 → wordsOf nbits - 1 = 0) := by
    rw [wordsOf]
    omega
  have hfront : bmFillFront constant_p bm nbits =
      .ok (List.replicate (wordsOf nbits - 1) (~~~0) ++ bm.drop (wordsOf nbits - 1)) := by
    rw [bmFillFront]
    split
    · next hsmall =>
        rw [hwords.2 hsmall.2]
        rfl
    · rw [memsetOnes, hlen, if_pos (by omega), Nat.mul_div_cancel_left _ (by decide)]
  have hlength : (fillWords nbits (wordsOf nbits - 1) (wordsOf nbits - 1) bm).length =
      bm.length := length_fillWords (Nat.le_of_lt hwords.1)
  rw [fillWords, List.length_set] at hlength
  rw [bmFill, hfront, ok_bind, hlast, hlength, if_pos hwords.1]
  rfl

/-- Behind `2 ^ 34` bits some number of words is set, and one word more. -/
theorem bmFill_eq_ok (hgt : 2 ^ 34 < nbits.toNat) (h : bmFill constant_p bm nbits = .ok bm') :
    ∃ k i, k ≤ bm.length ∧ i < bm.length ∧ bm' = fillWords nbits k i bm ∧
      (k < 2 ^ 28 ∨ 2 ^ 60 ≤ k) := by
  have hbig : ¬ (constant_p ∧ nbits ≤ 64) := by
    rintro ⟨-, hle⟩
    have : nbits.toNat ≤ 64 := hle
    omega
  obtain ⟨dst, hdst, h⟩ := bind_eq_ok.mp h
  rw [bmFillFront, if_neg hbig, memsetOnes] at hdst
  split at hdst
  case isFalse => cases hdst
  next hlen =>
  cases hdst
  split at h
  case isFalse => cases h
  next hlast =>
  cases h
  have hk : (fillLen ((nbits + 63) / 64)).toNat / 8 ≤ bm.length := by omega
  rw [List.length_append, List.length_replicate, List.length_drop] at hlast
  refine ⟨_, _, hk, by omega, rfl, ?_⟩
  have := fillLen_cases ((nbits + 63) / 64)
  omega

/-- **`bm_fill`** is exact up to `2 ^ 34` bits. -/
theorem fillExact_of_le (h1 : 1 ≤ nbits.toNat) (hle : nbits.toNat ≤ 2 ^ 34)
    (hwithin : nbits.toNat ≤ 64 * bm.length) : FillExact constant_p bm nbits := by
  have hwords : wordsOf nbits - 1 < bm.length ∧ 64 * (wordsOf nbits - 1) < nbits.toNat ∧
      nbits.toNat ≤ 64 * wordsOf nbits := by
    rw [wordsOf]
    omega
  refine ⟨_, bmFill_eq h1 hle hwithin, length_fillWords (by omega), fun j => ?_⟩
  rw [bitAt_fillWords (by omega) hwords.1]
  by_cases hj : j / 64 = wordsOf nbits - 1
  · -- the last word
    have hbit : (nbits.toNat % 64 = 0 ∨ j % 64 < nbits.toNat % 64) ↔ j < nbits.toNat := by omega
    rw [if_pos hj, if_pos (show j < 64 * wordsOf nbits by omega)]
    by_cases hjn : j < nbits.toNat <;> simp [hbit, hjn]
  · rw [if_neg hj]
    by_cases hjk : j / 64 < wordsOf nbits - 1
    · rw [if_pos hjk, if_pos (by omega)]
    · rw [if_neg hjk, if_neg (by omega), if_neg (by omega)]

/-- Behind `2 ^ 34` bits it is not: in a bitmap of zeros it sets too little or too much. -/
theorem le_of_fillExact (n : Nat) (h : FillExact constant_p (List.replicate n 0) nbits) :
    nbits.toNat ≤ 2 ^ 34 := by
  by_contra hgt
  obtain ⟨bm', hfill, -, hbit⟩ := h
  obtain ⟨k, i, hk, hi, rfl, hsize⟩ := bmFill_eq_ok (by omega) hfill
  have hwords : 2 ^ 28 < wordsOf nbits ∧ wordsOf nbits ≤ 2 ^ 58 ∧
      64 * (wordsOf nbits - 1) < nbits.toNat ∧ nbits.toNat ≤ 64 * wordsOf nbits := by
    have := nbits.isLt
    rw [wordsOf]
    omega
  -- the first bit of a word
  have hfirst : ∀ w, (w = i ∨ w < k) ↔ w < wordsOf nbits := by
    intro w
    have hmask : nbits.toNat % 64 = 0 ∨ 0 < nbits.toNat % 64 := Nat.eq_zero_or_pos _
    have hleft : bitAt (fillWords nbits k i (List.replicate n 0)) (64 * w) =
        decide (w = i ∨ w < k) := by
      rw [bitAt_fillWords hk hi, bitAt_replicate, Nat.mul_div_cancel_left _ (by decide),
        Nat.mul_mod_right]
      by_cases hwi : w = i <;> by_cases hwk : w < k <;> simp [hwi, hwk, hmask]
    have hlt : 64 * w < nbits.toNat ↔ w < wordsOf nbits := by omega
    have hright := hbit (64 * w)
    rw [hleft, bitAt_replicate, ite_self] at hright
    by_cases hw : w < wordsOf nbits <;> simpa [hlt, hw] using hright
  have hbelow := (hfirst k).not
  have hlast := hfirst (wordsOf nbits)
  have hnext := hfirst (k + 1)
  omega

end

/-- **Bitmaps** of `n` words: the region operations are exact as long as the positions are
`int`s, and `bm_fill` is for every bitmap as long as it is asked for at most `2 ^ 34` bits. -/
theorem bitmap_exact_iff (n pos : Nat) (region : Int) (constant_p : Bool) (nbits : BitVec 64) :
    (pos < 2 ^ 31 → pos + region ≤ 64 * n → ∀ bm : Bitmap, bm.length = n →
      (RegionExact bm pos region ↔ pos + region ≤ 2 ^ 31)) ∧
    (1 ≤ nbits.toNat → nbits.toNat ≤ 64 * n →
      ((∀ bm : Bitmap, bm.length = n → FillExact constant_p bm nbits) ↔
        nbits.toNat ≤ 2 ^ 34)) := by
  constructor
  · rintro hpos hwithin bm rfl
    exact regionExact_iff hpos hwithin
  · intro h1 hwithin
    constructor
    · exact fun h => le_of_fillExact n (h _ (List.length_replicate ..))
    · rintro hle bm rfl
      exact fillExact_of_le h1 hle hwithin

/-- One bit too many: the number of bytes is no `int`. -/
theorem bm_fill_overruns :
    (0x400000001#64).toNat ≤ 64 * (List.replicate (2 ^ 28 + 1) (0 : BitVec 64)).length ∧
      ¬ FillExact false (List.replicate (2 ^ 28 + 1) 0) 0x400000001 := by
  refine ⟨by rw [List.length_replicate]; decide, fun h => ?_⟩
  exact absurd (le_of_fillExact _ h) (by decide)

end MySrc
