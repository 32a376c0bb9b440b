import MySrc.Lib.Word
import MySrc.Lib.Memory
import Mathlib.Data.Nat.Bitwise

/-!
# MySrc.TemplateHttp.BufferManage

`CBufferManage` of `template_http/src/struct/bufferoperation.{h,cpp}`: typed
reads and writes at a cursor in an attached buffer.

The buffer lies in a memory, a list of bytes; a pointer is a position in it or
outside of it, `none` is `NULL`, and a copy that leaves the memory is a fault.  `int` is 32
bits wide and its arithmetic is modulo `2 ^ 32`, so that every space test is
the one the machine makes.  The byte order of the host is a parameter.
-/

namespace MySrc

open Lib

/-! ## byte order -/

/-- The bits of an `int`. -/
def u32 (x : Int) : Nat := (x % 2 ^ 32).toNat

/-- `LBER_HTONL`; `LBER_NTOHL` has the same text with `ntohl`. -/
def lberHtonl (host : Endian) (ll : Nat) : Nat :=
  htonN host 4 (ll &&& 0x00000000FFFFFFFF) <<< 32 |||
    htonN host 4 ((ll &&& 0xFFFFFFFF00000000) >>> 32)

/-! ## the buffer -/

/-- What a call returns: `0` or one of the `Err_Buffer` codes. -/
inductive BufRet
  | ok
  /-- `Err_Buffer_Param` -/
  | param
  /-- `Err_Buffer_Overflow` -/
  | overflow
  /-- `Err_Buffer_NoEnough` -/
  | noEnough
  /-- `Err_Buffer_NoData` -/
  | noData
  deriving Repr, DecidableEq

/-- `CBufferManage` -/
structure CBufferManage where
  m_szBuffer : Option Int
  m_iBufferLen : Int
  m_iOffset : Int
  deriving Repr, DecidableEq

/-- `CBufferManage::CBufferManage` -/
def CBufferManage.init : CBufferManage := ⟨none, 0, 0⟩

/-- `CBufferManage::AttachBuffer` -/
def attachBuffer (b : CBufferManage) (szBuffer : Option Int) (iBufferLen : Int) :
    BufRet × CBufferManage :=
  if szBuffer = none ∨ iBufferLen ≤ 0 then (.param, b) else (.ok, ⟨szBuffer, iBufferLen, 0⟩)

/-- `p + off` -/
def pointerAdd (p : Option Int) (off : Int) : Option Int := p.map (· + off)

/-- The position in memory of `p + off`, where it is followed. -/
def pointerAt (p : Option Int) (off : Int) : Except Fault Nat :=
  match pointerAdd p off with
  | none => .error .nullDeref
  | some a => if 0 ≤ a then .ok a.toNat else .error .outOfBounds

/-- `ntohl(*(int*)(p + off))` -/
def loadInt (host : Endian) (mem : List UInt8) (p : Option Int) (off : Int) : Except Fault Int := do
  let a ← pointerAt p off
  let bs ← memcpyFrom mem a 4
  return i32 (htonN host 4 (loadWord host bs))

/-- `*(int*)(p + off) = htonl(v)` -/
def storeInt (host : Endian) (mem : List UInt8) (p : Option Int) (off v : Int) :
    Except Fault (List UInt8) := do
  let a ← pointerAt p off
  memcpyTo mem a (storeWord host 4 (htonN host 4 (u32 v)))

/-- `memcpy(p + off, src, n)` -/
def storeBytes (mem : List UInt8) (p : Option Int) (off : Int) (src : List UInt8) (n : Nat) :
    Except Fault (List UInt8) := do
  let a ← pointerAt p off
  let bs ← memcpyFrom src 0 n
  memcpyTo mem a bs

/-- `std::string(p, n)` -/
def stringAt (mem : List UInt8) (p : Option Int) (n : Int) : Except Fault (List UInt8) := do
  let a ← pointerAt p 0
  memcpyFrom mem a n.toNat

section

variable (host : Endian) (mem : List UInt8) (b : CBufferManage)

/-! ## reading -/

/-- `CBufferManage::GetInt` -/
def getInt (iValue : Int) : Except Fault (BufRet × CBufferManage × Int) := do
  if i32 (b.m_iOffset + 4) > b.m_iBufferLen then return (.overflow, b, iValue)
  let v ← loadInt host mem b.m_szBuffer b.m_iOffset
  return (.ok, { b with m_iOffset := i32 (b.m_iOffset + 4) }, v)

/-- `CBufferManage::GetLong64` -/
def getLong64 (llValue : Nat) : Except Fault (BufRet × CBufferManage × Nat) := do
  if i32 (b.m_iOffset + 8) > b.m_iBufferLen then return (.overflow, b, llValue)
  let a ← pointerAt b.m_szBuffer b.m_iOffset
  let bs ← memcpyFrom mem a 8
  return (.ok, { b with m_iOffset := i32 (b.m_iOffset + 8) }, lberHtonl host (loadWord host bs))

/-- `CBufferManage::GetChar` -/
def getChar (cValue : UInt8) : Except Fault (BufRet × CBufferManage × UInt8) := do
  if i32 (b.m_iOffset + 1) > b.m_iBufferLen then return (.overflow, b, cValue)
  let a ← pointerAt b.m_szBuffer b.m_iOffset
  let bs ← memcpyFrom mem a 1
  return (.ok, { b with m_iOffset := i32 (b.m_iOffset + 1) }, bs.headD 0)

/-- `CBufferManage::GetString(string&)` -/
def getString (strValue : List UInt8) : Except Fault (BufRet × CBufferManage × List UInt8) := do
  if i32 (b.m_iOffset + 4) > b.m_iBufferLen then return (.overflow, b, strValue)
  let iLength ← loadInt host mem b.m_szBuffer b.m_iOffset
  let b := { b with m_iOffset := i32 (b.m_iOffset + 4) }
  if i32 (b.m_iOffset + iLength) > b.m_iBufferLen ∨ iLength < 0 then
    return (.overflow, b, strValue)
  let a ← pointerAt b.m_szBuffer b.m_iOffset
  let bs ← memcpyFrom mem a iLength.toNat
  return (.ok, { b with m_iOffset := i32 (b.m_iOffset + iLength) }, bs)

/-- `CBufferManage::GetString(char*, int&)` into the array `szBuffer` -/
def getStringBuf (szBuffer : Option (List UInt8)) (iLength : Int) :
    Except Fault (BufRet × CBufferManage × Option (List UInt8) × Int) := do
  match szBuffer with
  | none => return (.param, b, szBuffer, iLength)
  | some dst =>
      if iLength ≤ 0 then return (.param, b, szBuffer, iLength)
      if i32 (b.m_iOffset + 4) > b.m_iBufferLen then return (.overflow, b, szBuffer, iLength)
      let iStringLen ← loadInt host mem b.m_szBuffer b.m_iOffset
      if iStringLen ≥ iLength then return (.noEnough, b, szBuffer, i32 (iStringLen + 1))
      -- the length word itself is not counted here
      if i32 (b.m_iOffset + iStringLen) > b.m_iBufferLen ∨ iStringLen < 0 then
        return (.overflow, b, szBuffer, 0)
      let b := { b with m_iOffset := i32 (b.m_iOffset + 4) }
      let a ← pointerAt b.m_szBuffer b.m_iOffset
      let bs ← memcpyFrom mem a iStringLen.toNat
      let dst ← memcpyTo dst 0 bs
      let dst ← memcpyTo dst iStringLen.toNat [0]
      return (.ok, { b with m_iOffset := i32 (b.m_iOffset + iStringLen) }, some dst, iLength)

/-- `CBufferManage::GetString(char**, int&)`: the span of the string, as a
pointer and a length.  The caller's `pBuffer` is the address of a variable and
so never `NULL`. -/
def getStringPtr (pBuffer : Option Int) (iLength : Int) :
    Except Fault (BufRet × CBufferManage × Option Int × Int) := do
  if i32 (b.m_iOffset + 4) > b.m_iBufferLen then return (.overflow, b, pBuffer, iLength)
  let iLength ← loadInt host mem b.m_szBuffer b.m_iOffset
  if i32 (i32 (b.m_iOffset + iLength) + 4) > b.m_iBufferLen ∨ iLength < 0 then
    return (.overflow, b, pBuffer, 0)
  let b := { b with m_iOffset := i32 (b.m_iOffset + 4) }
  let pBuffer := pointerAdd b.m_szBuffer b.m_iOffset
  return (.ok, { b with m_iOffset := i32 (b.m_iOffset + iLength) }, pBuffer, iLength)

/-- `CBufferManage::GetCharBuffer(char*, int&)` into the array `szBuffer` -/
def getCharBuffer (szBuffer : Option (List UInt8)) (iLength : Int) :
    Except Fault (BufRet × CBufferManage × Option (List UInt8) × Int) := do
  match szBuffer with
  | none => return (.param, b, szBuffer, iLength)
  | some dst =>
      if iLength ≤ 0 then return (.param, b, szBuffer, iLength)
      if i32 (b.m_iOffset + iLength) > b.m_iBufferLen then
        return (.noData, b, szBuffer, i32 (b.m_iBufferLen - b.m_iOffset))
      let a ← pointerAt b.m_szBuffer b.m_iOffset
      let bs ← memcpyFrom mem a iLength.toNat
      let dst ← memcpyTo dst 0 bs
      return (.ok, { b with m_iOffset := i32 (b.m_iOffset + iLength) }, some dst, iLength)

/-- `CBufferManage::GetCharBuffer(char**, int&)` -/
def getCharBufferPtr (ppBuffer : Option Int) (iBufferLen : Int) :
    Except Fault (BufRet × CBufferManage × Option Int × Int) := do
  if i32 (b.m_iOffset + iBufferLen) > b.m_iBufferLen then
    return (.noData, b, ppBuffer, i32 (b.m_iBufferLen - b.m_iOffset))
  let ppBuffer := pointerAdd b.m_szBuffer b.m_iOffset
  return (.ok, { b with m_iOffset := i32 (b.m_iOffset + iBufferLen) }, ppBuffer, iBufferLen)

/-! ## writing -/

/-- `CBufferManage::PutInt` -/
def putInt (iValue : Int) : Except Fault (BufRet × CBufferManage × List UInt8) := do
  if i32 (b.m_iOffset + 4) > b.m_iBufferLen then return (.noEnough, b, mem)
  let mem ← storeInt host mem b.m_szBuffer b.m_iOffset iValue
  return (.ok, { b with m_iOffset := i32 (b.m_iOffset + 4) }, mem)

/-- `CBufferManage::PutLong64` -/
def putLong64 (llValue : Nat) : Except Fault (BufRet × CBufferManage × List UInt8) := do
  if i32 (b.m_iOffset + 8) > b.m_iBufferLen then return (.noEnough, b, mem)
  let mem ← storeBytes mem b.m_szBuffer b.m_iOffset (storeWord host 8 (lberHtonl host llValue)) 8
  return (.ok, { b with m_iOffset := i32 (b.m_iOffset + 8) }, mem)

/-- `CBufferManage::PutChar` -/
def putChar (cChar : UInt8) : Except Fault (BufRet × CBufferManage × List UInt8) := do
  if i32 (b.m_iOffset + 1) > b.m_iBufferLen then return (.noEnough, b, mem)
  let mem ← storeBytes mem b.m_szBuffer b.m_iOffset [cChar] 1
  return (.ok, { b with m_iOffset := i32 (b.m_iOffset + 1) }, mem)

/-- `CBufferManage::PutString(const string&)` -/
def putString (strValue : List UInt8) : Except Fault (BufRet × CBufferManage × List UInt8) := do
  let len := strValue.length
  if i32 (i32 (b.m_iOffset + i32 len) + 4) > b.m_iBufferLen then return (.noEnough, b, mem)
  let mem ← storeInt host mem b.m_szBuffer b.m_iOffset len
  let b := { b with m_iOffset := i32 (b.m_iOffset + 4) }
  if len > 0 then
    let mem ← storeBytes mem b.m_szBuffer b.m_iOffset strValue len
    return (.ok, { b with m_iOffset := i32 (b.m_iOffset + len) }, mem)
  return (.ok, b, mem)

/-- `CBufferManage::PutString(const char*, int&)` of the first `iLength` bytes
of the array `szBuffer` -/
def putStringBuf (szBuffer : Option (List UInt8)) (iLength : Int) :
    Except Fault (BufRet × CBufferManage × List UInt8 × Int) := do
  match szBuffer with
  | none => return (.param, b, mem, iLength)
  | some src =>
      if iLength < 0 then return (.param, b, mem, iLength)
      if i32 (i32 (b.m_iOffset + 4) + iLength) > b.m_iBufferLen then
        return (.noEnough, b, mem, i32 (b.m_iOffset + 4 + iLength))
      let mem ← storeInt host mem b.m_szBuffer b.m_iOffset iLength
      let b := { b with m_iOffset := i32 (b.m_iOffset + 4) }
      if iLength > 0 then
        let mem ← storeBytes mem b.m_szBuffer b.m_iOffset src iLength.toNat
        return (.ok, { b with m_iOffset := i32 (b.m_iOffset + iLength) }, mem, iLength)
      return (.ok, b, mem, iLength)

/-- `CBufferManage::PutCharBuffer` -/
def putCharBuffer (szBuffer : Option (List UInt8)) (iLength : Int) :
    Except Fault (BufRet × CBufferManage × List UInt8 × Int) := do
  match szBuffer with
  | none => return (.param, b, mem, iLength)
  | some src =>
      if iLength < 0 then return (.param, b, mem, iLength)
      if i32 (b.m_iOffset + iLength) > b.m_iBufferLen then
        return (.noEnough, b, mem, i32 (b.m_iOffset + iLength))
      let mem ← storeBytes mem b.m_szBuffer b.m_iOffset src iLength.toNat
      return (.ok, { b with m_iOffset := i32 (b.m_iOffset + iLength) }, mem, iLength)

end

/-! ## the 64-bit swap -/

/-- The 64-bit swap turns the two halves around, and swaps each of them. -/
theorem lberHtonl_eq (host : Endian) (ll : Nat) :
    lberHtonl host ll =
      htonN host 4 (ll % 2 ^ 32) * 2 ^ 32 + htonN host 4 (ll / 2 ^ 32 % 2 ^ 32) := by
  have hlow : ll &&& 0x00000000FFFFFFFF = ll % 2 ^ 32 := Nat.and_two_pow_sub_one_eq_mod ll 32
  have hhigh : (ll &&& 0xFFFFFFFF00000000) >>> 32 = ll / 2 ^ 32 % 2 ^ 32 := by
    rw [Nat.shiftRight_and_distrib, Nat.shiftRight_eq_div_pow ll]
    exact Nat.and_two_pow_sub_one_eq_mod (ll / 2 ^ 32) 32
  have hlt : htonN host 4 (ll / 2 ^ 32 % 2 ^ 32) < 2 ^ 32 := htonN_lt host 4 _
  rw [lberHtonl, hlow, hhigh, ← Nat.shiftLeft_add_eq_or_of_lt hlt, Nat.shiftLeft_eq]

/-- `LBER_HTONL` and `LBER_NTOHL` are inverse to each other. -/
theorem lberHtonl_lberHtonl (host : Endian) (h : ll < 2 ^ 64) :
    lberHtonl host (lberHtonl host ll) = ll := by
  have h1 : htonN host 4 (ll % 2 ^ 32) < 2 ^ 32 := htonN_lt host 4 _
  have h2 : htonN host 4 (ll / 2 ^ 32 % 2 ^ 32) < 2 ^ 32 := htonN_lt host 4 _
  have hmod : lberHtonl host ll % 2 ^ 32 = htonN host 4 (ll / 2 ^ 32 % 2 ^ 32) := by
    rw [lberHtonl_eq]
    omega
  have hdiv : lberHtonl host ll / 2 ^ 32 % 2 ^ 32 = htonN host 4 (ll % 2 ^ 32) := by
    rw [lberHtonl_eq]
    omega
  rw [lberHtonl_eq host (lberHtonl host ll), hmod, hdiv, htonN_htonN, htonN_htonN]
  omega

theorem lberHtonl_lt (host : Endian) (ll : Nat) : lberHtonl host ll < 256 ^ 8 := by
  have h1 : htonN host 4 (ll % 2 ^ 32) < 2 ^ 32 := htonN_lt host 4 _
  have h2 : htonN host 4 (ll / 2 ^ 32 % 2 ^ 32) < 2 ^ 32 := htonN_lt host 4 _
  rw [lberHtonl_eq]
  omega

/-! ## the cursor -/

/-- The word of a length: its low 32 bits. -/
theorem netBytes_u32 (n : Nat) : netBytes 4 (u32 (n : Int)) = netBytes 4 n := netBytes_mod 4 n

/-- The buffer of `b` begins at `base` and lies in the memory, and the cursor
is `cur` bytes into it. -/
structure Cursor (mem : List UInt8) (b : CBufferManage) (base cur : Nat) : Prop where
  pointer : b.m_szBuffer = some (base : Int)
  offset : b.m_iOffset = cur
  offset_le : (cur : Int) ≤ b.m_iBufferLen
  len_lt : b.m_iBufferLen < 2 ^ 31
  inside : base + b.m_iBufferLen ≤ mem.length

/-- The buffer with its cursor moved. -/
def CBufferManage.seek (b : CBufferManage) (cur : Nat) : CBufferManage :=
  { b with m_iOffset := cur }

/-- The length word at a position of the memory, as an `int`. -/
def wordAt (mem : List UInt8) (a : Nat) : Int := i32 (ofNetBytes ((mem.drop a).take 4))

/-- A word in the memory. -/
theorem wordAt_of_holdsAt {mem : List UInt8} (h : HoldsAt mem a (netBytes 4 n)) :
    wordAt mem a = i32 n := by
  have htake := h.take_eq
  rw [length_netBytes] at htake
  rw [wordAt, htake, ofNetBytes_netBytes]
  exact i32_emod n

namespace Cursor

variable {mem : List UInt8} {b : CBufferManage} {base cur : Nat}

theorem seek (c : Cursor mem b base cur) {cur' : Nat} (h : (cur' : Int) ≤ b.m_iBufferLen) :
    Cursor mem (b.seek cur') base cur' :=
  ⟨c.pointer, rfl, h, c.len_lt, c.inside⟩

theorem of_length (c : Cursor mem b base cur) {mem' : List UInt8}
    (h : mem'.length = mem.length) : Cursor mem' b base cur :=
  ⟨c.pointer, c.offset, c.offset_le, c.len_lt, h ▸ c.inside⟩

/-- A read or write of `n` bytes that fits passes its test, and moves the
cursor by `n`. -/
theorem i32_add (c : Cursor mem b base cur) {n : Nat} (h : (cur + n : Int) ≤ b.m_iBufferLen) :
    i32 (b.m_iOffset + n) = (cur + n : Nat) := by
  have := c.len_lt
  rw [c.offset, i32_eq_self ⟨by omega, by omega⟩]
  rfl

theorem room (c : Cursor mem b base cur) {n : Nat} (h : (cur + n : Int) ≤ b.m_iBufferLen) :
    base + cur + n ≤ mem.length := by
  have := c.inside
  omega

theorem pointerAt_eq (c : Cursor mem b base cur) :
    pointerAt b.m_szBuffer b.m_iOffset = .ok (base + cur) := by
  rw [c.pointer, c.offset]
  rfl

/-- A word behind the cursor is loaded. -/
theorem loadInt_eq (c : Cursor mem b base cur) (host : Endian)
    (h : (cur + 4 : Int) ≤ b.m_iBufferLen) :
    loadInt host mem b.m_szBuffer b.m_iOffset = .ok (wordAt mem (base + cur)) := by
  have hroom := c.room (n := 4) h
  have hlen : ((mem.drop (base + cur)).take 4).length = 4 := by
    simp
    omega
  have hword := htonN_loadWord host ((mem.drop (base + cur)).take 4)
  rw [hlen] at hword
  rw [loadInt, c.pointerAt_eq, ok_bind, memcpyFrom, if_pos hroom, ok_bind, hword, wordAt,
    pure_eq_ok]

/-- A word behind the cursor is stored. -/
theorem storeInt_eq (c : Cursor mem b base cur) (host : Endian) (v : Int)
    (h : (cur + 4 : Int) ≤ b.m_iBufferLen) :
    storeInt host mem b.m_szBuffer b.m_iOffset v =
      .ok (splice mem (base + cur) (netBytes 4 (u32 v))) := by
  rw [storeInt, c.pointerAt_eq, ok_bind, storeWord_htonN, memcpyTo_eq_splice]
  rw [length_netBytes]
  exact c.room (n := 4) h

/-- The copy of the first `n` bytes of an array. -/
theorem storeBytes_take (c : Cursor mem b base cur) {src : List UInt8} (hn : n ≤ src.length)
    (h : (cur + n : Int) ≤ b.m_iBufferLen) :
    storeBytes mem b.m_szBuffer b.m_iOffset src n =
      .ok (splice mem (base + cur) (src.take n)) := by
  have hlen : (src.take n).length = n := by
    rw [List.length_take]
    omega
  rw [storeBytes, c.pointerAt_eq, ok_bind, memcpyFrom, if_pos (by omega), ok_bind, List.drop_zero,
    memcpyTo_eq_splice]
  rw [hlen]
  exact c.room h

theorem storeBytes_eq (c : Cursor mem b base cur) {src : List UInt8} (hn : src.length = n)
    (h : (cur + n : Int) ≤ b.m_iBufferLen) :
    storeBytes mem b.m_szBuffer b.m_iOffset src n = .ok (splice mem (base + cur) src) := by
  rw [c.storeBytes_take (by omega) h, List.take_of_length_le (by omega)]

theorem memcpyFrom_eq (c : Cursor mem b base cur) {bs : List UInt8}
    (hbs : HoldsAt mem (base + cur) bs) : memcpyFrom mem (base + cur) bs.length = .ok bs := by
  have := c.room (n := 0) (by have := c.offset_le; omega)
  exact hbs.memcpyFrom (by omega)

/-- The cursor behind a length word. -/
theorem behind_word (c : Cursor mem b base cur) (h : (cur + 4 : Int) ≤ b.m_iBufferLen) :
    Cursor mem (b.seek (cur + 4)) base (cur + 4) := c.seek (by omega)

/-- `GetString` on a string that lies in the buffer. -/
theorem getString_eq (c : Cursor mem b base cur) (host : Endian) {s : List UInt8}
    (h : (cur + (4 + s.length : Nat) : Int) ≤ b.m_iBufferLen)
    (hword : wordAt mem (base + cur) = s.length) (hs : HoldsAt mem (base + (cur + 4)) s)
    (old : List UInt8) :
    getString host mem b old = .ok (.ok, b.seek (cur + (4 + s.length)), s) := by
  have hend4 : i32 (b.m_iOffset + 4) = (cur + 4 : Nat) := c.i32_add (n := 4) (by omega)
  have hend : i32 (((cur + 4 : Nat) : Int) + s.length) = (cur + (4 + s.length) : Nat) := by
    have := c.len_lt
    rw [i32_eq_self ⟨by omega, by omega⟩]
    omega
  have c' := c.behind_word (by omega)
  unfold getString
  rw [hend4, if_neg (by omega), c.loadInt_eq host (by omega), ok_bind, hword]
  dsimp only
  rw [hend, if_neg (by omega), Int.toNat_natCast]
  have hptr : pointerAt b.m_szBuffer ((cur + 4 : Nat) : Int) = .ok (base + (cur + 4)) :=
    c'.pointerAt_eq
  rw [hptr, ok_bind, c'.memcpyFrom_eq hs]
  rfl

/-- `GetString` returns the span of a string that lies in the buffer. -/
theorem getStringPtr_eq (c : Cursor mem b base cur) (host : Endian) {n : Nat}
    (h : (cur + (4 + n : Nat) : Int) ≤ b.m_iBufferLen) (hword : wordAt mem (base + cur) = n)
    (p : Option Int) (len : Int) :
    getStringPtr host mem b p len =
      .ok (.ok, b.seek (cur + (4 + n)), some ((base + (cur + 4) : Nat) : Int), n) := by
  have hend4 : i32 (b.m_iOffset + 4) = (cur + 4 : Nat) := c.i32_add (n := 4) (by omega)
  have htest : i32 (i32 (b.m_iOffset + n) + 4) = (cur + (4 + n) : Nat) := by
    have := c.len_lt
    rw [i32_i32_add, c.offset, i32_eq_self ⟨by omega, by omega⟩]
    omega
  have hend : i32 (((cur + 4 : Nat) : Int) + n) = (cur + (4 + n) : Nat) := by
    have := c.len_lt
    rw [i32_eq_self ⟨by omega, by omega⟩]
    omega
  have hptr : pointerAdd b.m_szBuffer ((cur + 4 : Nat) : Int) =
      some ((base + (cur + 4) : Nat) : Int) := by
    rw [c.pointer]
    rfl
  unfold getStringPtr
  rw [hend4, if_neg (by omega), c.loadInt_eq host (by omega), ok_bind, hword, htest,
    if_neg (by omega)]
  dsimp only
  rw [hend, hptr]
  rfl

/-- `GetCharBuffer` returns the span at the cursor. -/
theorem getCharBufferPtr_eq (c : Cursor mem b base cur) {n : Nat}
    (h : (cur + n : Int) ≤ b.m_iBufferLen) (p : Option Int) :
    getCharBufferPtr b p n = .ok (.ok, b.seek (cur + n), some ((base + cur : Nat) : Int), n) := by
  have hptr : pointerAdd b.m_szBuffer b.m_iOffset = some ((base + cur : Nat) : Int) := by
    rw [c.pointer, c.offset]
    rfl
  rw [getCharBufferPtr, c.i32_add h, if_neg (by omega), hptr]
  rfl

theorem stringAt_eq (c : Cursor mem b base cur) {s : List UInt8}
    (hs : HoldsAt mem (base + cur) s) :
    stringAt mem (some ((base + cur : Nat) : Int)) s.length = .ok s := by
  have hptr : pointerAt (some ((base + cur : Nat) : Int)) 0 = .ok (base + cur) := rfl
  rw [stringAt, hptr, ok_bind, Int.toNat_natCast, c.memcpyFrom_eq hs]

end Cursor

/-! ## values that fit -/

section

variable {mem : List UInt8} {b : CBufferManage} {base cur : Nat}

/-- `PutInt` with room for four bytes. -/
theorem putInt_fits (host : Endian) (c : Cursor mem b base cur)
    (h : (cur + 4 : Int) ≤ b.m_iBufferLen) (v : Int) :
    putInt host mem b v =
      .ok (.ok, b.seek (cur + 4), splice mem (base + cur) (netBytes 4 (u32 v))) := by
  have hend : i32 (b.m_iOffset + 4) = (cur + 4 : Nat) := c.i32_add (n := 4) h
  rw [putInt, hend, if_neg (by omega), c.storeInt_eq host v h]
  rfl

/-- `PutLong64` with room for eight bytes. -/
theorem putLong64_fits (host : Endian) (c : Cursor mem b base cur)
    (h : (cur + 8 : Int) ≤ b.m_iBufferLen) (ll : Nat) :
    putLong64 host mem b ll =
      .ok (.ok, b.seek (cur + 8),
        splice mem (base + cur) (storeWord host 8 (lberHtonl host ll))) := by
  have hend : i32 (b.m_iOffset + 8) = (cur + 8 : Nat) := c.i32_add (n := 8) h
  rw [putLong64, hend, if_neg (by omega), c.storeBytes_eq (length_storeWord host 8 _) h]
  rfl

/-- `PutChar` with room for a byte. -/
theorem putChar_fits (c : Cursor mem b base cur) (h : (cur + 1 : Int) ≤ b.m_iBufferLen)
    (ch : UInt8) :
    putChar mem b ch = .ok (.ok, b.seek (cur + 1), splice mem (base + cur) [ch]) := by
  have hend : i32 (b.m_iOffset + 1) = (cur + 1 : Nat) := c.i32_add (n := 1) h
  rw [putChar, hend, if_neg (by omega), c.storeBytes_eq List.length_singleton h]
  rfl

/-- A length word and the bytes behind it are one copy. -/
theorem splice_string (c : Cursor mem b base cur) {s : List UInt8}
    (h : (cur + (4 + s.length : Nat) : Int) ≤ b.m_iBufferLen) :
    splice (splice mem (base + cur) (netBytes 4 s.length)) (base + (cur + 4)) s =
      splice mem (base + cur) (netBytes 4 s.length ++ s) := by
  have hroom := c.room (n := 4) (by omega)
  have hsplice : splice (splice mem (base + cur) (netBytes 4 s.length))
      (base + cur + (netBytes 4 s.length).length) s =
      splice mem (base + cur) (netBytes 4 s.length ++ s) :=
    splice_splice (by rwa [length_netBytes])
  rwa [length_netBytes, Nat.add_assoc] at hsplice

/-- The cursor behind a length word. -/
theorem cursor_string (c : Cursor mem b base cur) {s : List UInt8}
    (h : (cur + (4 + s.length : Nat) : Int) ≤ b.m_iBufferLen) :
    Cursor (splice mem (base + cur) (netBytes 4 s.length)) (b.seek (cur + 4)) base (cur + 4) := by
  have hroom := c.room (n := 4) (by omega)
  apply Cursor.of_length _ (length_splice (by rwa [length_netBytes]))
  exact c.seek (by omega)

/-- What both overloads of `PutString` do once their space test has passed. -/
theorem storeBytes_string (c : Cursor mem b base cur) {src : List UInt8} {n : Nat}
    (hn : n ≤ src.length) (h : (cur + (4 + n : Nat) : Int) ≤ b.m_iBufferLen) :
    storeBytes (splice mem (base + cur) (netBytes 4 n)) b.m_szBuffer ((cur + 4 : Nat) : Int) src n =
      .ok (splice mem (base + cur) (netBytes 4 n ++ src.take n)) := by
  have hlen : (src.take n).length = n := by
    rw [List.length_take]
    omega
  have c' := cursor_string c (s := src.take n) (by rwa [hlen])
  have hsplice := splice_string c (s := src.take n) (by rwa [hlen])
  rw [hlen] at c' hsplice
  rw [← hsplice]
  exact c'.storeBytes_take hn (show ((cur + 4 : Nat) + n : Int) ≤ b.m_iBufferLen by omega)

/-- `PutString` with room for the length and the string. -/
theorem putString_fits (host : Endian) (c : Cursor mem b base cur) {s : List UInt8}
    (h : (cur + (4 + s.length : Nat) : Int) ≤ b.m_iBufferLen) :
    putString host mem b s =
      .ok (.ok, b.seek (cur + (4 + s.length)),
        splice mem (base + cur) (netBytes 4 s.length ++ s)) := by
  have hend4 : i32 (b.m_iOffset + 4) = (cur + 4 : Nat) := c.i32_add (n := 4) (by omega)
  have htest : i32 (i32 (b.m_iOffset + i32 s.length) + 4) = (cur + (4 + s.length) : Nat) := by
    rw [i32_i32_add, Int.add_right_comm, i32_add_i32, Int.add_assoc, ← c.i32_add h]
    rfl
  have hend : i32 (((cur + 4 : Nat) : Int) + s.length) = (cur + (4 + s.length) : Nat) := by
    have := c.len_lt
    rw [i32_eq_self ⟨by omega, by omega⟩]
    omega
  have hstore := storeBytes_string c (Nat.le_refl s.length) h
  rw [List.take_length] at hstore
  unfold putString
  dsimp only
  rw [htest, if_neg (by omega), c.storeInt_eq host _ (by omega), netBytes_u32, hend4, ok_bind, hend]
  split
  · rw [hstore]
    rfl
  · next hnil =>
      have hs : s = [] := List.length_eq_zero_iff.mp (by omega)
      subst hs
      rw [List.append_nil]
      rfl

/-- `PutString` of a buffer, with room for the length and the bytes. -/
theorem putStringBuf_fits (host : Endian) (c : Cursor mem b base cur) {src : List UInt8} {n : Nat}
    (hn : n ≤ src.length) (h : (cur + (4 + n : Nat) : Int) ≤ b.m_iBufferLen) :
    putStringBuf host mem b (some src) n =
      .ok (.ok, b.seek (cur + (4 + n)),
        splice mem (base + cur) (netBytes 4 n ++ src.take n), n) := by
  have hend4 : i32 (b.m_iOffset + 4) = (cur + 4 : Nat) := c.i32_add (n := 4) (by omega)
  have hend : i32 (((cur + 4 : Nat) : Int) + n) = (cur + (4 + n) : Nat) := by
    have := c.len_lt
    rw [i32_eq_self ⟨by omega, by omega⟩]
    omega
  have hstore := storeBytes_string c hn h
  unfold putStringBuf
  dsimp only
  rw [hend4, hend, if_neg (by omega), if_neg (by omega), c.storeInt_eq host _ (by omega),
    netBytes_u32, ok_bind, Int.toNat_natCast]
  split
  · rw [hstore]
    rfl
  · next hnil =>
      have hn0 : n = 0 := by omega
      subst hn0
      rw [List.take_zero, List.append_nil]
      rfl

/-- `PutCharBuffer` with room for the bytes. -/
theorem putCharBuffer_fits (c : Cursor mem b base cur) {s : List UInt8}
    (h : (cur + s.length : Int) ≤ b.m_iBufferLen) :
    putCharBuffer mem b (some s) s.length =
      .ok (.ok, b.seek (cur + s.length), splice mem (base + cur) s, s.length) := by
  unfold putCharBuffer
  dsimp only
  rw [c.i32_add h, if_neg (by omega), if_neg (by omega), Int.toNat_natCast, c.storeBytes_eq rfl h]
  rfl

/-- The end of a string in the space tests of the two `PutString`s. -/
theorem i32_string_end (x : Int) (n : Nat) :
    i32 (i32 (x + i32 n) + 4) = i32 (x + (4 + n : Nat)) := by
  rw [i32_i32_add, Int.add_right_comm, i32_add_i32, Int.add_assoc]
  rfl

theorem i32_stringBuf_end (x : Int) (n : Nat) :
    i32 (i32 (x + 4) + n) = i32 (x + (4 + n : Nat)) := by
  rw [i32_i32_add, Int.add_assoc]
  rfl

end

end MySrc
