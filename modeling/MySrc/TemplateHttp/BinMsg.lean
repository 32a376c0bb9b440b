import MySrc.Lib.Logged
import MySrc.TemplateHttp.BufferManage

/-!
# MySrc.TemplateHttp.BinMsg

The messages of `template_http/src/struct/cbinmsg.{h,cpp}`: a record of rows of
fields, each a name and a value.  Every level writes its parts one behind the
other, each with its length in front; a record begins with its own length.

`Row::Encode` and `Record::Encode` are the same loop over different parts, and
so are the two `Decode`s; the loops are `encodeParts` and `decodeParts` here.

A decoder logs the spans it gets from `GetString`, so that what it was handed
can be talked about also where it goes on to fault.
-/

namespace MySrc

open Lib

/-! ## messages -/

/-- The `ErrBinMsg` codes that are returned. -/
inductive BinRet
  | ok
  /-- `Err_BinMsg_FieldDecode` -/
  | fieldDecode
  /-- `Err_BinMsg_RowDecode` -/
  | rowDecode
  /-- `Err_BinMsg_Param` -/
  | param
  /-- `Err_BinMsg_NoEnough` -/
  | noEnough
  deriving Repr, DecidableEq

/-- `CBinMsgField` -/
structure CBinMsgField where
  m_strName : List UInt8
  m_strValue : List UInt8
  deriving Repr, DecidableEq

/-- `CBinMsgRow`; the counter is an `int` that `AddField` keeps in step. -/
structure CBinMsgRow where
  m_vecField : List CBinMsgField
  m_iFieldNum : Int
  fieldNum_eq : m_iFieldNum = i32 m_vecField.length

/-- `CBinMsgRecord`; the counter is an `int` that `AddRow` keeps in step. -/
structure CBinMsgRecord where
  m_vecRow : List CBinMsgRow
  m_iRowNum : Int
  rowNum_eq : m_iRowNum = i32 m_vecRow.length

/-- `CBinMsgRow::CBinMsgRow` -/
def CBinMsgRow.init : CBinMsgRow := ⟨[], 0, (i32_eq_self (by decide)).symm⟩

/-- `CBinMsgRecord::CBinMsgRecord` -/
def CBinMsgRecord.init : CBinMsgRecord := ⟨[], 0, (i32_eq_self (by decide)).symm⟩

/-- `CBinMsgRow::AddField` -/
def CBinMsgRow.addField (row : CBinMsgRow) (clsField : CBinMsgField) : CBinMsgRow where
  m_vecField := row.m_vecField ++ [clsField]
  m_iFieldNum := i32 (row.m_iFieldNum + 1)
  fieldNum_eq := by
    rw [row.fieldNum_eq, i32_i32_add, List.length_append]
    rfl

/-- `CBinMsgRecord::AddRow` -/
def CBinMsgRecord.addRow (rec : CBinMsgRecord) (clsRow : CBinMsgRow) : CBinMsgRecord where
  m_vecRow := rec.m_vecRow ++ [clsRow]
  m_iRowNum := i32 (rec.m_iRowNum + 1)
  rowNum_eq := by
    rw [rec.rowNum_eq, i32_i32_add, List.length_append]
    rfl

/-- The fields that the loops `for (i = 0; i < GetFieldNum(); i++)` run over. -/
def CBinMsgRow.fields (row : CBinMsgRow) : List CBinMsgField :=
  row.m_vecField.take row.m_iFieldNum.toNat

/-- The rows that the loops `for (i = 0; i < GetRowNum(); i++)` run over. -/
def CBinMsgRecord.rows (rec : CBinMsgRecord) : List CBinMsgRow :=
  rec.m_vecRow.take rec.m_iRowNum.toNat

/-! ## GetSize -/

/-- `CBinMsgField::GetSize` -/
def CBinMsgField.getSize (f : CBinMsgField) : Int :=
  i32 (f.m_strName.length + 4 + f.m_strValue.length + 4)

/-- The sum of the sizes of some parts with the lengths in front of them. -/
def sizeParts (size : α → Int) (iSize : Int) (parts : List α) : Int :=
  parts.foldl (fun iSize x => i32 (iSize + (size x + 4))) iSize

/-- `CBinMsgRow::GetSize` -/
def CBinMsgRow.getSize (row : CBinMsgRow) : Int := sizeParts CBinMsgField.getSize 0 row.fields

/-- `CBinMsgRecord::GetSize` -/
def CBinMsgRecord.getSize (rec : CBinMsgRecord) : Int := sizeParts CBinMsgRow.getSize 4 rec.rows

/-! ## Encode -/

section

variable (host : Endian)

/-- `CBinMsgField::Encode`: the code, the new `iBufferLen` and the memory. -/
def fieldEncode (mem : List UInt8) (szBuffer : Option Int) (iBufferLen : Int) (f : CBinMsgField) :
    Except Fault (BinRet × Int × List UInt8) := do
  if szBuffer = none ∨ iBufferLen < 0 then return (.param, iBufferLen, mem)
  let (iRet, clsBuffer) := attachBuffer .init szBuffer iBufferLen
  if iRet ≠ .ok then return (.param, iBufferLen, mem)
  -- `c_str()` is the string with a NUL behind it
  let (iRet, clsBuffer, mem, _) ←
    putStringBuf host mem clsBuffer (some (f.m_strName ++ [0])) (i32 f.m_strName.length)
  if iRet ≠ .ok then return (.noEnough, 0, mem)
  let (iRet, _, mem, _) ←
    putStringBuf host mem clsBuffer (some (f.m_strValue ++ [0])) (i32 f.m_strValue.length)
  if iRet ≠ .ok then return (.noEnough, 0, mem)
  return (.ok, i32 (f.m_strValue.length + 4 + f.m_strName.length + 4), mem)

/-- The loop of `Row::Encode` and `Record::Encode`: each part is encoded behind
the space of its length, and its length is written after that. -/
def encodeParts
    (encode : List UInt8 → Option Int → Int → α → Except Fault (BinRet × Int × List UInt8))
    (szBuffer : Option Int) (iBufferLen : Int) :
    List α → Int → List UInt8 → Except Fault (BinRet × Int × List UInt8)
  | [], iLen, mem => .ok (.ok, iLen, mem)
  | x :: xs, iLen, mem => do
      let iTemp := i32 (iBufferLen - iLen - 4)
      if iTemp ≤ 0 then return (.noEnough, 0, mem)
      let (iRet, iTemp, mem) ← encode mem (pointerAdd szBuffer (4 + iLen)) iTemp x
      if iRet ≠ .ok then return (.noEnough, 0, mem)
      let mem ← storeInt host mem szBuffer iLen iTemp
      encodeParts encode szBuffer iBufferLen xs (i32 (iLen + (iTemp + 4))) mem

/-- `CBinMsgRow::Encode` -/
def rowEncode (mem : List UInt8) (szBuffer : Option Int) (iBufferLen : Int) (row : CBinMsgRow) :
    Except Fault (BinRet × Int × List UInt8) := do
  if szBuffer = none ∨ iBufferLen < 0 then return (.param, iBufferLen, mem)
  encodeParts host (fieldEncode host) szBuffer iBufferLen row.fields 0 mem

/-- `CBinMsgRecord::Encode` -/
def recordEncode (mem : List UInt8) (szBuffer : Option Int) (iBufferLen : Int)
    (rec : CBinMsgRecord) : Except Fault (BinRet × Int × List UInt8) := do
  if szBuffer = none ∨ iBufferLen < 0 then return (.param, iBufferLen, mem)
  let (iRet, iRecLen, mem) ←
    encodeParts host (rowEncode host) szBuffer iBufferLen rec.rows 4 mem
  if iRet ≠ .ok then return (iRet, iRecLen, mem)
  let mem ← storeInt host mem szBuffer 0 iRecLen
  return (.ok, iRecLen, mem)

/-! ## Decode -/

/-- A span that `GetString` returned: the buffer it was asked for, the pointer
and the length. -/
structure Span where
  m_szBuffer : Option Int
  m_iBufferLen : Int
  pBuffer : Option Int
  iLength : Int
  deriving Repr, DecidableEq

/-- The span lies in the buffer that was attached. -/
def Span.Inside (s : Span) : Prop :=
  match s.m_szBuffer, s.pBuffer with
  | some start, some p => start ≤ p ∧ 0 ≤ s.iLength ∧ p - start + s.iLength ≤ s.m_iBufferLen
  | _, _ => False

variable (mem : List UInt8)

/-- `GetString(char**, int&)`, with the span it returns in the log. -/
def getSpan (b : CBufferManage) (pBuffer : Option Int) (iLength : Int) :
    Logged Span (BufRet × CBufferManage × Option Int × Int) :=
  match getStringPtr host mem b pBuffer iLength with
  | .ok (.ok, b', p, len) => ⟨[⟨b.m_szBuffer, b.m_iBufferLen, p, len⟩], .ok (.ok, b', p, len)⟩
  | r => .lift r

/-- `CBinMsgField::Decode` into the field `f` -/
def fieldDecode (szBuffer : Option Int) (iBufferLen : Int) (f : CBinMsgField) :
    Logged Span (BinRet × CBinMsgField) := do
  if szBuffer = none ∨ iBufferLen ≤ 0 then return (.param, f)
  let (iRet, clsBuffer) := attachBuffer .init szBuffer iBufferLen
  if iRet ≠ .ok then return (.param, f)
  let (iRet, clsBuffer, szBufferRow, iFieldLength) ← getSpan host mem clsBuffer none 0
  if iRet ≠ .ok then return (.fieldDecode, f)
  let name ← .lift (stringAt mem szBufferRow iFieldLength)
  let f := { f with m_strName := name }
  let (iRet, _, szBufferRow, iFieldLength) ← getSpan host mem clsBuffer szBufferRow iFieldLength
  if iRet ≠ .ok then return (.fieldDecode, f)
  let value ← .lift (stringAt mem szBufferRow iFieldLength)
  return (.ok, { f with m_strValue := value })

/-- The loop of `Row::Decode` and `Record::Decode`: parts are decoded into `acc`
until `GetString` fails.  A turn that stays inside the buffer takes at least
four bytes from it, so `fuel` bounds only loops that have left it. -/
def decodeParts (decode : Option Int → Int → Logged Span (BinRet × α)) (err : BinRet)
    (add : γ → α → γ) :
    Nat → CBufferManage → Option Int → Int → Bool → γ → Logged Span (BinRet × γ)
  | 0, _, _, _, _, _ => .lift (.error .diverge)
  | fuel + 1, clsBuffer, szBufferRow, iRowLength, flag, acc => do
      let (iRet, clsBuffer, szBufferRow, iRowLength) ←
        getSpan host mem clsBuffer szBufferRow iRowLength
      if iRet ≠ .ok then return (if flag then .ok else err, acc)
      let (iRet, x) ← decode szBufferRow iRowLength
      if iRet ≠ .ok then return (err, acc)
      decodeParts decode err add fuel clsBuffer szBufferRow iRowLength true (add acc x)

/-- `CBinMsgRow::Decode` into the row `row` -/
def rowDecode (szBuffer : Option Int) (iBufferLen : Int) (row : CBinMsgRow) :
    Logged Span (BinRet × CBinMsgRow) := do
  if szBuffer = none ∨ iBufferLen ≤ 0 then return (.param, row)
  let (iRet, clsBuffer) := attachBuffer .init szBuffer iBufferLen
  if iRet ≠ .ok then return (.param, row)
  decodeParts host mem (fun p n => fieldDecode host mem p n ⟨[], []⟩) .fieldDecode
    CBinMsgRow.addField (iBufferLen.toNat + 1) clsBuffer none 0 false row

/-- `CBinMsgRecord::Decode` into the record `rec` -/
def recordDecode (szBuffer : Option Int) (iBufferLen : Int) (rec : CBinMsgRecord) :
    Logged Span (BinRet × CBinMsgRecord) := do
  if szBuffer = none ∨ iBufferLen < 4 then return (.param, rec)
  let (iRet, clsBuffer) := attachBuffer .init (pointerAdd szBuffer 4) (i32 (iBufferLen - 4))
  if iRet ≠ .ok then return (.param, rec)
  decodeParts host mem (fun p n => rowDecode host mem p n .init) .rowDecode
    CBinMsgRecord.addRow (iBufferLen.toNat + 1) clsBuffer none 0 false rec

end

/-! ## attached buffers -/

/-- A buffer of `room` bytes at `base`, as it is attached. -/
def attached (base room : Nat) : CBufferManage := ⟨some (base : Int), room, 0⟩

theorem attachBuffer_eq (b : CBufferManage) (base : Nat) (h : 0 < room) :
    attachBuffer b (some (base : Int)) (room : Nat) = (.ok, attached base room) := by
  rw [attachBuffer, if_neg]
  · rfl
  · rintro (h' | h')
    · cases h'
    · omega

theorem cursor_attached {mem : List UInt8} (h : room < 2 ^ 31) (hin : base + room ≤ mem.length) :
    Cursor mem (attached base room) base 0 :=
  ⟨rfl, rfl, Int.natCast_nonneg _, by
    unfold attached
    dsimp only
    omega, by
    unfold attached
    dsimp only
    omega⟩

end MySrc
