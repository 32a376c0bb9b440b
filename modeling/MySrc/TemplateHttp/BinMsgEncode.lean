import MySrc.TemplateHttp.BinMsg

/-!
# MySrc.TemplateHttp.BinMsgEncode

What the encoders of `cbinmsg.cpp` write, and when they write it.

`layoutRecord` does the accounting of `Encode` with exact integers: how many
bytes a record takes in a buffer, or what stands in the way.  There are two
obstacles.  A part may not fit, which the encoders report; or the space test of
`PutString` overflows, and the copy behind it leaves the buffer.  The lemmas on
`Encodes` say that the encoders do what the layout says, level by level.
-/

namespace MySrc

open Lib

/-! ## bytes -/

/-- Some bytes with their length in front. -/
def chunk (bs : List UInt8) : List UInt8 := netBytes 4 bs.length ++ bs

/-- The part of a string that is written: its length is passed as an `int`. -/
def cut (s : List UInt8) : List UInt8 := s.take (i32 s.length).toNat

def fieldBytes (f : CBinMsgField) : List UInt8 :=
  chunk (cut f.m_strName) ++ chunk (cut f.m_strValue)

/-- The parts of a row or a record, one behind the other. -/
def partsBytes (bytes : α → List UInt8) (parts : List α) : List UInt8 :=
  parts.flatMap fun x => chunk (bytes x)

def rowBytes (row : CBinMsgRow) : List UInt8 := partsBytes fieldBytes row.fields

def recordBytes (rec : CBinMsgRecord) : List UInt8 :=
  netBytes 4 (4 + (partsBytes rowBytes rec.rows).length) ++ partsBytes rowBytes rec.rows

@[simp] theorem length_chunk (bs : List UInt8) : (chunk bs).length = 4 + bs.length := by
  simp [chunk]

theorem partsBytes_cons (bytes : α → List UInt8) (x : α) (xs : List α) :
    partsBytes bytes (x :: xs) = chunk (bytes x) ++ partsBytes bytes xs := rfl

/-! ## layout -/

/-- What can stand in the way of an encoding. -/
inductive Obstacle
  /-- it does not fit, and the encoder says so -/
  | noRoom
  /-- a space test overflows, and the encoder writes past the buffer -/
  | overrun
  deriving Repr, DecidableEq

/-- A string of length `len` at offset `cur` of a buffer of `room` bytes: the
offset behind it. -/
def layoutString (room cur len : Nat) : Except Obstacle Nat :=
  if i32 len < 0 then .error .noRoom
  else if 2 ^ 31 ≤ cur + 4 + (i32 len).toNat then .error .overrun
  else if room < cur + 4 + (i32 len).toNat then .error .noRoom
  else .ok (cur + 4 + (i32 len).toNat)

def layoutField (room : Nat) (f : CBinMsgField) : Except Obstacle Nat := do
  let cur ← layoutString room 0 f.m_strName.length
  layoutString room cur f.m_strValue.length

/-- Parts one behind the other, from `len` bytes on. -/
def layoutParts (layout : Nat → α → Except Obstacle Nat) (room : Nat) :
    List α → Nat → Except Obstacle Nat
  | [], len => .ok len
  | x :: xs, len =>
      if room ≤ len + 4 then .error .noRoom
      else do
        let n ← layout (room - len - 4) x
        layoutParts layout room xs (len + 4 + n)

def layoutRow (room : Nat) (row : CBinMsgRow) : Except Obstacle Nat :=
  layoutParts layoutField room row.fields 0

/-- The size of a record in a buffer of `room` bytes, or what stands in the
way. -/
def layoutRecord (room : Nat) (rec : CBinMsgRecord) : Except Obstacle Nat :=
  layoutParts layoutRow room rec.rows 4

/-! ## strings -/

section

variable {mem : List UInt8} {b : CBufferManage} {base cur : Nat}

theorem length_cut (s : List UInt8) : (cut s).length = (i32 s.length).toNat := by
  have := i32_natCast_le s.length
  rw [cut, List.length_take]
  omega

/-- `c_str()` has the bytes that are written. -/
theorem cut_le_length (s : List UInt8) : (i32 s.length).toNat ≤ (s ++ [0]).length := by
  have := i32_natCast_le s.length
  rw [List.length_append]
  omega

/-- A string that fits has a length that is an `int`, and stays in the room. -/
theorem layoutString_eq_ok (h : layoutString room cur len = .ok n) :
    0 ≤ i32 len ∧ n = cur + (4 + (i32 len).toNat) ∧ n ≤ room := by
  unfold layoutString at h
  split at h
  · cases h
  · split at h
    · cases h
    · split at h
      · cases h
      · cases h
        omega

/-- A string that fits is put behind its length. -/
theorem putStringBuf_layout_ok (host : Endian) (c : Cursor mem b base cur) {s : List UInt8}
    (h : layoutString b.m_iBufferLen.toNat cur s.length = .ok n) :
    putStringBuf host mem b (some (s ++ [0])) (i32 s.length) =
      .ok (.ok, b.seek n, splice mem (base + cur) (chunk (cut s)), i32 s.length) := by
  obtain ⟨hpos, rfl, hroom⟩ := layoutString_eq_ok h
  have hle := i32_natCast_le s.length
  have hcur := c.offset_le
  have hfits := putStringBuf_fits host c (cut_le_length s) (by omega)
  rw [Int.toNat_of_nonneg hpos, List.take_append_of_le_length (by omega)] at hfits
  rw [hfits, chunk, length_cut, cut]

/-- A string that does not fit is refused, and nothing is written. -/
theorem putStringBuf_layout_noRoom (host : Endian) (c : Cursor mem b base cur) {s : List UInt8}
    (h : layoutString b.m_iBufferLen.toNat cur s.length = .error .noRoom) :
    ∃ ret len, putStringBuf host mem b (some (s ++ [0])) (i32 s.length) = .ok (ret, b, mem, len) ∧
      ret ≠ .ok := by
  have hcur := c.offset_le
  unfold layoutString at h
  unfold putStringBuf
  dsimp only
  split at h
  · next hneg => exact ⟨.param, _, if_pos hneg, by decide⟩
  · next hpos =>
      split at h
      · cases h
      · split at h
        · next hroom =>
            have htest : i32 (i32 (b.m_iOffset + 4) + i32 s.length) = cur + 4 + i32 s.length := by
              rw [i32_i32_add, c.offset, i32_eq_self ⟨by omega, by omega⟩]
            refine ⟨.noEnough, i32 (b.m_iOffset + 4 + i32 s.length), ?_, by decide⟩
            rw [if_neg hpos, htest, if_pos (by omega)]
            rfl
        · cases h

/-- A word that was stored lies in the memory, and the memory keeps its size. -/
theorem storeInt_ok (c : Cursor mem b base cur)
    (h : storeInt host mem b.m_szBuffer b.m_iOffset v = .ok mem') :
    base + cur + 4 ≤ mem.length ∧ mem'.length = mem.length := by
  rw [storeInt, c.pointerAt_eq, ok_bind] at h
  by_cases hroom : base + cur + (storeWord host 4 (htonN host 4 (u32 v))).length ≤ mem.length
  · rw [memcpyTo_eq_splice hroom] at h
    rw [← Except.ok.inj h, length_splice hroom]
    rw [length_storeWord] at hroom
    exact ⟨hroom, rfl⟩
  · rw [memcpyTo_eq_error hroom] at h
    cases h

/-- The space test overflows, so it passes; the bytes of the string do not lie
in the memory. -/
theorem putStringBuf_layout_overrun (host : Endian) (c : Cursor mem b base cur)
    (hend : base + b.m_iBufferLen = mem.length) {s : List UInt8}
    (h : layoutString b.m_iBufferLen.toNat cur s.length = .error .overrun) :
    ∃ e, putStringBuf host mem b (some (s ++ [0])) (i32 s.length) = .error e := by
  have hcur := c.offset_le
  have hlen := c.len_lt
  have hmax := (isI32_i32 s.length).2
  unfold layoutString at h
  split at h
  · cases h
  · next hpos =>
      split at h
      · next hover =>
          have htest : i32 (i32 (b.m_iOffset + 4) + i32 s.length) =
              cur + 4 + i32 s.length - 2 ^ 32 := by
            rw [i32_i32_add, c.offset, i32_of_overflow (by omega) (by omega)]
          unfold putStringBuf
          dsimp only
          rw [if_neg hpos, if_neg (by rw [htest]; omega)]
          cases hstore : storeInt host mem b.m_szBuffer b.m_iOffset (i32 s.length) with
          | error e => exact ⟨e, rfl⟩
          | ok mem' =>
              obtain ⟨hroom, hmem⟩ := storeInt_ok c hstore
              have hend4 : i32 (b.m_iOffset + 4) = (cur + 4 : Nat) := c.i32_add (n := 4) (by omega)
              have hptr : pointerAt b.m_szBuffer ((cur + 4 : Nat) : Int) = .ok (base + (cur + 4)) :=
                (c.behind_word (by omega)).pointerAt_eq
              have hsrc := cut_le_length s
              refine ⟨.outOfBounds, ?_⟩
              rw [ok_bind, if_pos (by omega), hend4, storeBytes, hptr, ok_bind, memcpyFrom,
                if_pos (by omega), ok_bind, List.drop_zero,
                memcpyTo_eq_error (by rw [List.length_take_of_le hsrc]; omega)]
              rfl
      · split at h <;> cases h

end

/-! ## one level -/

/-- An encoder does what the layout says, in every buffer at the end of the
memory. -/
structure Encodes
    (encode : List UInt8 → Option Int → Int → α → Except Fault (BinRet × Int × List UInt8))
    (layout : Nat → α → Except Obstacle Nat) (bytes : α → List UInt8) (x : α) : Prop where
  length : ∀ {room n}, layout room x = .ok n → (bytes x).length = n ∧ n ≤ room
  ok : ∀ mem base {room n}, 0 < room → room < 2 ^ 31 → base + room = mem.length →
    layout room x = .ok n →
    encode mem (some (base : Nat)) (room : Nat) x = .ok (.ok, n, splice mem base (bytes x))
  noRoom : ∀ mem base {room}, 0 < room → room < 2 ^ 31 → base + room = mem.length →
    layout room x = .error .noRoom →
    ∃ ret len mem', encode mem (some (base : Nat)) (room : Nat) x = .ok (ret, len, mem') ∧
      ret ≠ .ok ∧ mem'.length = mem.length
  overrun : ∀ mem base {room}, 0 < room → room < 2 ^ 31 → base + room = mem.length →
    layout room x = .error .overrun →
    ∃ e, encode mem (some (base : Nat)) (room : Nat) x = .error e

/-- `Encode` of a field puts the name, then the value. -/
theorem fieldEncode_eq (host : Endian) (mem : List UInt8) (base : Nat) (h : 0 < room)
    (f : CBinMsgField) :
    fieldEncode host mem (some (base : Int)) (room : Nat) f = (do
      let (iRet, clsBuffer, mem, _) ← putStringBuf host mem (attached base room)
        (some (f.m_strName ++ [0])) (i32 f.m_strName.length)
      if iRet ≠ .ok then return (.noEnough, 0, mem)
      let (iRet, _, mem, _) ← putStringBuf host mem clsBuffer
        (some (f.m_strValue ++ [0])) (i32 f.m_strValue.length)
      if iRet ≠ .ok then return (.noEnough, 0, mem)
      return (.ok, i32 (f.m_strValue.length + 4 + f.m_strName.length + 4), mem)) := by
  have hparam : ¬ ((some (base : Int) : Option Int) = none ∨ ((room : Nat) : Int) < 0) := by
    rintro (h' | h')
    · cases h'
    · omega
  unfold fieldEncode
  rw [if_neg hparam, attachBuffer_eq .init base h]
  rfl

theorem length_splice_name {mem : List UInt8} (hend : base + room = mem.length) {s : List UInt8}
    (h : layoutString room 0 s.length = .ok cur) :
    (splice mem (base + 0) (chunk (cut s))).length = mem.length := by
  obtain ⟨-, hcur, hle⟩ := layoutString_eq_ok h
  apply length_splice
  rw [length_chunk, length_cut]
  omega

/-- The field behind its name. -/
theorem cursor_behind_name {mem : List UInt8} (hroom : room < 2 ^ 31)
    (hend : base + room = mem.length)
    {s : List UInt8} (h : layoutString room 0 s.length = .ok cur) :
    Cursor (splice mem (base + 0) (chunk (cut s))) ((attached base room).seek cur) base cur := by
  have hle := (layoutString_eq_ok h).2.2
  have c := cursor_attached hroom (by omega : base + room ≤ mem.length)
  apply (c.seek _).of_length (length_splice_name hend h)
  exact Int.ofNat_le.mpr hle

/-- The length that a field reports is that of the strings it wrote. -/
theorem i32_field_length (n v : Nat) :
    i32 (v + 4 + n + 4) = i32 (i32 v + 4 + i32 n + 4) := by
  have h1 : i32 (i32 v + 4 + i32 n + 4) = i32 (v + 4 + i32 n + 4) := by
    rw [Int.add_assoc, Int.add_assoc, i32_i32_add, ← Int.add_assoc, ← Int.add_assoc]
  have h2 : i32 (v + 4 + i32 n + 4) = i32 (v + 4 + n + 4) := by
    rw [← i32_i32_add, i32_add_i32, i32_i32_add]
  rw [h1, h2]

/-- **Encoding a field** follows its layout. -/
theorem fieldEncode_encodes (host : Endian) (f : CBinMsgField) :
    Encodes (fieldEncode host) layoutField fieldBytes f where
  length h := by
    obtain ⟨cur, h1, h2⟩ := bind_eq_ok.mp h
    obtain ⟨-, rfl, -⟩ := layoutString_eq_ok h1
    obtain ⟨-, rfl, hle⟩ := layoutString_eq_ok h2
    rw [fieldBytes, List.length_append, length_chunk, length_chunk, length_cut, length_cut]
    omega
  ok := by
    intro mem base room n hpos hroom hend h
    obtain ⟨cur, h1, h2⟩ := bind_eq_ok.mp h
    have c := cursor_attached hroom (by omega : base + room ≤ mem.length)
    have c' := cursor_behind_name hroom hend h1
    obtain ⟨hn, hcur, hle1⟩ := layoutString_eq_ok h1
    obtain ⟨hv, hend', hle2⟩ := layoutString_eq_ok h2
    have hlen : i32 (f.m_strValue.length + 4 + f.m_strName.length + 4) = n := by
      rw [i32_field_length, i32_eq_self ⟨by omega, by omega⟩]
      omega
    have hchunk : base + (chunk (cut f.m_strName)).length ≤ mem.length := by
      rw [length_chunk, length_cut]
      omega
    have hsplice : splice (splice mem (base + 0) (chunk (cut f.m_strName))) (base + cur)
        (chunk (cut f.m_strValue)) = splice mem base (fieldBytes f) := by
      have hcur' : cur = (chunk (cut f.m_strName)).length := by
        rw [length_chunk, length_cut]
        omega
      rw [hcur', Nat.add_zero]
      exact splice_splice hchunk
    rw [fieldEncode_eq host mem base hpos, putStringBuf_layout_ok host c h1, ok_bind]
    dsimp only
    rw [if_neg (by decide), putStringBuf_layout_ok host c' h2, ok_bind]
    dsimp only
    rw [if_neg (by decide), hsplice, hlen]
    rfl
  noRoom := by
    intro mem base room hpos hroom hend h
    have c := cursor_attached hroom (by omega : base + room ≤ mem.length)
    rw [fieldEncode_eq host mem base hpos]
    rcases bind_eq_error.mp h with h1 | ⟨cur, h1, h2⟩
    · obtain ⟨ret, len, hput, hret⟩ := putStringBuf_layout_noRoom host c h1
      refine ⟨.noEnough, 0, mem, ?_, by decide, rfl⟩
      rw [hput, ok_bind]
      dsimp only
      rw [if_pos hret]
      rfl
    · have c' := cursor_behind_name hroom hend h1
      obtain ⟨ret, len, hput, hret⟩ := putStringBuf_layout_noRoom host c' h2
      refine ⟨.noEnough, 0, splice mem (base + 0) (chunk (cut f.m_strName)), ?_, by decide,
        length_splice_name hend h1⟩
      rw [putStringBuf_layout_ok host c h1, ok_bind]
      dsimp only
      rw [if_neg (by decide), hput, ok_bind]
      dsimp only
      rw [if_pos hret]
      rfl
  overrun := by
    intro mem base room hpos hroom hend h
    have c := cursor_attached hroom (by omega : base + room ≤ mem.length)
    rw [fieldEncode_eq host mem base hpos]
    rcases bind_eq_error.mp h with h1 | ⟨cur, h1, h2⟩
    · obtain ⟨e, hput⟩ := putStringBuf_layout_overrun host c (congrArg Nat.cast hend) h1
      exact ⟨e, by rw [hput]; rfl⟩
    · have c' := cursor_behind_name hroom hend h1
      have hend' := hend.trans (length_splice_name hend h1).symm
      obtain ⟨e, hput⟩ := putStringBuf_layout_overrun host c' (congrArg Nat.cast hend') h2
      refine ⟨e, ?_⟩
      rw [putStringBuf_layout_ok host c h1, ok_bind]
      dsimp only
      rw [if_neg (by decide), hput]
      rfl

/-! ## the loops -/

section

variable {encode : List UInt8 → Option Int → Int → α → Except Fault (BinRet × Int × List UInt8)}
  {layout : Nat → α → Except Obstacle Nat} {bytes : α → List UInt8}

/-- The first part is laid out behind its length, then the others. -/
theorem layoutParts_cons (x : α) (xs : List α) (h : ¬ room ≤ len + 4) :
    layoutParts layout room (x :: xs) len =
      (layout (room - len - 4) x >>= fun n => layoutParts layout room xs (len + 4 + n)) :=
  if_neg h

/-- The layout of parts is as long as their bytes. -/
theorem length_layoutParts (henc : ∀ x, Encodes encode layout bytes x) (xs : List α)
    (hlen : len ≤ room) (h : layoutParts layout room xs len = .ok n) :
    len + (partsBytes bytes xs).length = n ∧ n ≤ room := by
  induction xs generalizing len with
  | nil =>
      rw [← Except.ok.inj h]
      exact ⟨rfl, hlen⟩
  | cons x xs ih =>
      by_cases hfull : room ≤ len + 4
      · rw [layoutParts, if_pos hfull] at h
        cases h
      · rw [layoutParts_cons x xs hfull] at h
        obtain ⟨m, hx, hxs⟩ := bind_eq_ok.mp h
        obtain ⟨hm, hle⟩ := (henc x).length hx
        obtain ⟨hsum, hn⟩ := ih (by omega) hxs
        rw [partsBytes_cons, List.length_append, length_chunk]
        omega

variable (host : Endian) {mem : List UInt8} {base room len : Nat}

/-- The part `x` is encoded behind the space for its length. -/
theorem encodeParts_cons (hroom : room < 2 ^ 31) (x : α) (xs : List α) (h : ¬ room ≤ len + 4) :
    encodeParts host encode (some (base : Int)) (room : Nat) (x :: xs) (len : Nat) mem = (do
      let (iRet, iTemp, mem) ←
        encode mem (some ((base + (4 + len) : Nat) : Int)) ((room - len - 4 : Nat) : Int) x
      if iRet ≠ .ok then return (.noEnough, 0, mem)
      let mem ← storeInt host mem (some (base : Int)) (len : Nat) iTemp
      encodeParts host encode (some (base : Int)) (room : Nat) xs
        (i32 (len + (iTemp + 4))) mem) := by
  have htemp : i32 (((room : Nat) : Int) - (len : Nat) - 4) = ((room - len - 4 : Nat) : Int) := by
    rw [i32_eq_self ⟨by omega, by omega⟩]
    omega
  have hptr : pointerAdd (some (base : Int)) (4 + (len : Nat)) =
      some ((base + (4 + len) : Nat) : Int) := rfl
  rw [encodeParts]
  dsimp only
  rw [htemp, hptr, if_neg (by omega)]

/-- The length of a part is written in front of it. -/
theorem storeInt_part (hroom : room < 2 ^ 31) (hend : base + room = mem.length)
    {bs : List UInt8} (h : len + 4 + bs.length ≤ room) :
    storeInt host (splice mem (base + (4 + len)) bs) (some (base : Int)) (len : Nat)
        (bs.length : Nat) = .ok (splice mem (base + len) (chunk bs)) := by
  have hmem : (splice mem (base + (4 + len)) bs).length = mem.length := length_splice (by omega)
  have c : Cursor (splice mem (base + (4 + len)) bs) ((attached base room).seek len) base len := by
    have c₀ := cursor_attached hroom (by omega : base + room ≤ mem.length)
    exact (c₀.seek (show ((len : Nat) : Int) ≤ (room : Nat) by omega)).of_length hmem
  have hsplice : splice (splice mem (base + len + (netBytes 4 bs.length).length) bs) (base + len)
      (netBytes 4 bs.length) = splice mem (base + len) (netBytes 4 bs.length ++ bs) :=
    splice_splice_before (by rw [length_netBytes]; omega)
  rw [length_netBytes, Nat.add_assoc, Nat.add_comm len 4] at hsplice
  rw [chunk, ← hsplice, ← netBytes_u32]
  exact c.storeInt_eq host _ (show ((len : Nat) : Int) + 4 ≤ (room : Nat) by omega)

/-- A part that fits is written with its length, and the loop goes on. -/
theorem encodeParts_step {x : α} (henc : Encodes encode layout bytes x) (xs : List α)
    (hroom : room < 2 ^ 31) (hend : base + room = mem.length) (hfull : ¬ room ≤ len + 4)
    (hx : layout (room - len - 4) x = .ok m) :
    base + room = (splice mem (base + len) (chunk (bytes x))).length ∧
      encodeParts host encode (some (base : Int)) (room : Nat) (x :: xs) (len : Nat) mem =
        encodeParts host encode (some (base : Int)) (room : Nat) xs ((len + 4 + m : Nat) : Int)
          (splice mem (base + len) (chunk (bytes x))) := by
  obtain ⟨rfl, hle⟩ := henc.length hx
  have hlen : i32 (((len : Nat) : Int) + (((bytes x).length : Nat) + 4)) =
      ((len + 4 + (bytes x).length : Nat) : Int) := by
    rw [i32_eq_self ⟨by omega, by omega⟩]
    omega
  have hpart := henc.ok mem (base + (4 + len)) (by omega) (by omega) (by omega) hx
  constructor
  · rw [length_splice (by rw [length_chunk]; omega), hend]
  · rw [encodeParts_cons host hroom x xs hfull, hpart, ok_bind]
    dsimp only
    rw [if_neg (by decide), storeInt_part host hroom hend (by omega), ok_bind, hlen]

/-- Parts that fit are encoded one behind the other. -/
theorem encodeParts_ok (henc : ∀ x, Encodes encode layout bytes x) (xs : List α)
    (hroom : room < 2 ^ 31) (hend : base + room = mem.length)
    (h : layoutParts layout room xs len = .ok n) :
    encodeParts host encode (some (base : Int)) (room : Nat) xs (len : Nat) mem =
      .ok (.ok, n, splice mem (base + len) (partsBytes bytes xs)) := by
  induction xs generalizing len mem with
  | nil => rw [← Except.ok.inj h, encodeParts, partsBytes, List.flatMap_nil, splice_nil]
  | cons x xs ih =>
      by_cases hfull : room ≤ len + 4
      · rw [layoutParts, if_pos hfull] at h
        cases h
      · rw [layoutParts_cons x xs hfull] at h
        obtain ⟨m, hx, hxs⟩ := bind_eq_ok.mp h
        obtain ⟨hend', hstep⟩ := encodeParts_step host (henc x) xs hroom hend hfull hx
        obtain ⟨rfl, hle⟩ := (henc x).length hx
        have hsplice : splice (splice mem (base + len) (chunk (bytes x)))
            (base + (len + 4 + (bytes x).length)) (partsBytes bytes xs) =
            splice mem (base + len) (partsBytes bytes (x :: xs)) := by
          rw [Nat.add_assoc len, ← Nat.add_assoc base, ← length_chunk]
          exact splice_splice (by rw [length_chunk]; omega)
        rw [hstep, ih hend' hxs, hsplice]

/-- Parts that do not fit are reported, and everything written lies in the
memory. -/
theorem encodeParts_noRoom (henc : ∀ x, Encodes encode layout bytes x) (xs : List α)
    (hroom : room < 2 ^ 31) (hend : base + room = mem.length) (hlen : len ≤ room + 4)
    (h : layoutParts layout room xs len = .error .noRoom) :
    ∃ mem', encodeParts host encode (some (base : Int)) (room : Nat) xs (len : Nat) mem =
      .ok (.noEnough, 0, mem') ∧ mem'.length = mem.length := by
  induction xs generalizing len mem with
  | nil => cases h
  | cons x xs ih =>
      by_cases hfull : room ≤ len + 4
      · refine ⟨mem, ?_, rfl⟩
        rw [encodeParts, i32_eq_self ⟨by omega, by omega⟩, if_pos (by omega)]
        rfl
      · rw [layoutParts_cons x xs hfull] at h
        rcases bind_eq_error.mp h with hx | ⟨m, hx, hxs⟩
        · obtain ⟨ret, n, mem', hpart, hret, hmem⟩ := (henc x).noRoom mem
            (base + (4 + len)) (by omega) (by omega) (by omega) hx
          refine ⟨mem', ?_, hmem⟩
          rw [encodeParts_cons host hroom x xs hfull, hpart, ok_bind]
          dsimp only
          rw [if_pos hret]
          rfl
        · obtain ⟨hend', hstep⟩ := encodeParts_step host (henc x) xs hroom hend hfull hx
          have hle := ((henc x).length hx).2
          obtain ⟨mem', hloop, hmem⟩ := ih hend' (by omega) hxs
          refine ⟨mem', hstep.trans hloop, ?_⟩
          rw [hmem, ← hend', hend]

/-- Parts whose space test overflows are written past the buffer. -/
theorem encodeParts_overrun (henc : ∀ x, Encodes encode layout bytes x) (xs : List α)
    (hroom : room < 2 ^ 31) (hend : base + room = mem.length)
    (h : layoutParts layout room xs len = .error .overrun) :
    ∃ e, encodeParts host encode (some (base : Int)) (room : Nat) xs (len : Nat) mem =
      .error e := by
  induction xs generalizing len mem with
  | nil => cases h
  | cons x xs ih =>
      by_cases hfull : room ≤ len + 4
      · rw [layoutParts, if_pos hfull] at h
        cases h
      · rw [layoutParts_cons x xs hfull] at h
        rcases bind_eq_error.mp h with hx | ⟨m, hx, hxs⟩
        · obtain ⟨e, hpart⟩ := (henc x).overrun mem (base + (4 + len)) (by omega)
            (by omega) (by omega) hx
          refine ⟨e, ?_⟩
          rw [encodeParts_cons host hroom x xs hfull, hpart]
          rfl
        · obtain ⟨hend', hstep⟩ := encodeParts_step host (henc x) xs hroom hend hfull hx
          obtain ⟨e, hloop⟩ := ih hend' hxs
          exact ⟨e, hstep.trans hloop⟩

end

/-! ## rows and records -/

theorem not_param (base room : Nat) :
    ¬ ((some (base : Int) : Option Int) = none ∨ ((room : Nat) : Int) < 0) := by
  rintro (h | h)
  · cases h
  · omega

/-- **Encoding a row** follows its layout. -/
theorem rowEncode_encodes (host : Endian) (row : CBinMsgRow) :
    Encodes (rowEncode host) layoutRow rowBytes row where
  length h := by
    have hlen := length_layoutParts (fieldEncode_encodes host) row.fields (Nat.zero_le _) h
    rwa [Nat.zero_add] at hlen
  ok := by
    intro mem base room n hpos hroom hend h
    rw [rowEncode, if_neg (not_param base room)]
    exact encodeParts_ok host (fieldEncode_encodes host) row.fields hroom hend h
  noRoom := by
    intro mem base room hpos hroom hend h
    obtain ⟨mem', hloop, hmem⟩ :=
      encodeParts_noRoom host (fieldEncode_encodes host) row.fields hroom hend (Nat.zero_le _) h
    refine ⟨.noEnough, 0, mem', ?_, by decide, hmem⟩
    rw [rowEncode, if_neg (not_param base room)]
    exact hloop
  overrun := by
    intro mem base room hpos hroom hend h
    rw [rowEncode, if_neg (not_param base room)]
    exact encodeParts_overrun host (fieldEncode_encodes host) row.fields hroom hend h

section

variable (host : Endian) {mem : List UInt8} {base room : Nat} {rec : CBinMsgRecord}

/-- A record that fits is written to the front of the buffer. -/
theorem recordEncode_ok (hroom : room < 2 ^ 31) (hend : base + room = mem.length) (hlen : 4 ≤ room)
    (h : layoutRecord room rec = .ok n) :
    recordEncode host mem (some (base : Int)) (room : Nat) rec =
        .ok (.ok, n, splice mem base (recordBytes rec)) ∧
      (recordBytes rec).length = n ∧ n ≤ room := by
  have hloop := encodeParts_ok host (rowEncode_encodes host) rec.rows hroom hend h
  obtain ⟨rfl, hn⟩ := length_layoutParts (rowEncode_encodes host) rec.rows hlen h
  have hlength : (recordBytes rec).length = 4 + (partsBytes rowBytes rec.rows).length := by
    rw [recordBytes, List.length_append, length_netBytes]
  refine ⟨?_, hlength, hn⟩
  have hmem : (splice mem (base + 4) (partsBytes rowBytes rec.rows)).length = mem.length :=
    length_splice (by omega)
  have c := (cursor_attached hroom (by omega : base + room ≤ mem.length)).of_length hmem
  have hsplice : splice
      (splice mem (base + (netBytes 4 (4 + (partsBytes rowBytes rec.rows).length)).length)
        (partsBytes rowBytes rec.rows)) base
      (netBytes 4 (4 + (partsBytes rowBytes rec.rows).length)) =
        splice mem base (recordBytes rec) :=
    splice_splice_before (by rw [length_netBytes]; omega)
  rw [length_netBytes] at hsplice
  have hstore : storeInt host (splice mem (base + 4) (partsBytes rowBytes rec.rows))
      (some (base : Int)) 0 ((4 + (partsBytes rowBytes rec.rows).length : Nat) : Int) =
      .ok (splice mem base (recordBytes rec)) := by
    rw [← hsplice, ← netBytes_u32]
    exact c.storeInt_eq host _ (show (((0 : Nat) : Int) + 4 ≤ (room : Nat)) by omega)
  rw [recordEncode, if_neg (not_param base room)]
  refine (congrArg (· >>= _) hloop).trans ?_
  rw [ok_bind]
  dsimp only
  rw [if_neg (by decide), hstore]
  rfl

/-- A record that does not fit is reported. -/
theorem recordEncode_noRoom (hroom : room < 2 ^ 31) (hend : base + room = mem.length)
    (h : layoutRecord room rec = .error .noRoom) :
    ∃ mem', recordEncode host mem (some (base : Int)) (room : Nat) rec = .ok (.noEnough, 0, mem') ∧
      mem'.length = mem.length := by
  obtain ⟨mem', hloop, hmem⟩ :=
    encodeParts_noRoom host (rowEncode_encodes host) rec.rows hroom hend (by omega) h
  refine ⟨mem', ?_, hmem⟩
  rw [recordEncode, if_neg (not_param base room)]
  exact congrArg (· >>= _) hloop

/-- A record whose space test overflows is written past the buffer. -/
theorem recordEncode_overrun (hroom : room < 2 ^ 31) (hend : base + room = mem.length)
    (h : layoutRecord room rec = .error .overrun) :
    ∃ e, recordEncode host mem (some (base : Int)) (room : Nat) rec = .error e := by
  obtain ⟨e, hloop⟩ := encodeParts_overrun host (rowEncode_encodes host) rec.rows hroom hend h
  refine ⟨e, ?_⟩
  rw [recordEncode, if_neg (not_param base room)]
  exact congrArg (· >>= _) hloop

end

end MySrc
