import MySrc.TemplateHttp.BinMsgCodec
import MySrc.TemplateHttp.HttpRequestPacket

/-!
# MySrc.PythonProjects.DatagramFactory

The Python end of the account protocol, `python_projects/src/datagram/datagram_factory.py`.
The other end is `CBinMsgRecord` (`MySrc.TemplateHttp.BinMsg`).

Every `try` of the source ends in `finally: return`, so an exception leaves a function with
what it has got so far.  `ends_agree` says that what `Encode` writes, `unpack` reads, and
that what `pack` writes, `Decode` reads.
-/

namespace MySrc
namespace PythonProjects
namespace DatagramFactory

open Lib
open Function (update update_of_ne update_self)

/-! ## strings and `struct` -/

/-- An index of a slice, counted from the end when it is negative. -/
def sliceIndex (s : Str) (i : Int) : Nat :=
  if i < 0 then (i + s.length).toNat else min i.toNat s.length

/-- `s[a:b]` -/
def slice (s : Str) (a b : Int) : Str := (s.take (sliceIndex s b)).drop (sliceIndex s a)

/-- `struct.pack('!i', n)`, which raises an exception on a number that is not an `int`. -/
def packInt (n : Nat) : Option Str := if n < 2 ^ 31 then some (netBytes 4 n) else none

/-- `struct.unpack('!i', s)[0]`, which raises an exception on anything but four bytes. -/
def unpackInt (s : Str) : Option Int := if s.length = 4 then some (wordAt s 0) else none

/-- `struct.unpack('!%ss' % n, s)[0]`: a negative length is a bad format. -/
def unpackStr (n : Int) (s : Str) : Option Str :=
  if 0 ≤ n ∧ (s.length : Int) = n then some s else none

/-! ## packing -/

/-- `pack_str_field` -/
def packStrField (k v : Str) : Option Str := do
  let len_field ← packInt (k.length + v.length + 8)
  let len_k ← packInt k.length
  let len_v ← packInt v.length
  return len_field ++ len_k ++ k ++ len_v ++ v

/-- `bytes_buffer += pack_str_field(…)` for one field after the other.  A field without a
value is a key that `datagram` does not have.  An exception leaves the buffer as it is. -/
def packFields (bytes_buffer : Str) : List (Str × Option Str) → Except Str Str
  | [] => .ok bytes_buffer
  | (_, none) :: _ => .error bytes_buffer
  | (k, some v) :: fields =>
      match packStrField k v with
      | none => .error bytes_buffer
      | some field => packFields (bytes_buffer ++ field) fields

/-- A dictionary of strings. -/
abbrev Dict := StrMap

/-- `'request'`, a key of the dictionaries. -/
def requestKey : Str := ascii ['r', 'e', 'q', 'u', 'e', 's', 't']

def sessionidKey : Str := ascii ['s', 'e', 's', 's', 'i', 'o', 'n', 'i', 'd']

def useridKey : Str := ascii ['u', 's', 'e', 'r', 'i', 'd']

def usertypeKey : Str := ascii ['u', 's', 'e', 'r', 't', 'y', 'p', 'e']

/-- The body of the `pack_…` functions: the request, the fields that it takes from the
dictionary, and the two lengths in front. -/
def packRequest (request : Str) (keys : List Str) (datagram : Dict) : Str :=
  match packFields [] ((requestKey, some request) :: keys.map fun k => (k, datagram k)) with
  | .error bytes_buffer => bytes_buffer
  | .ok bytes_buffer =>
      let len_row := bytes_buffer.length
      let len_record := len_row + 8
      match packInt len_record, packInt len_row with
      | some record, some row => record ++ row ++ bytes_buffer
      | _, _ => bytes_buffer

def getusrinforName : Str := ascii ['g', 'e', 't', 'u', 's', 'r', 'i', 'n', 'f', 'o', 'r']

def checksessionName : Str := ascii ['c', 'h', 'e', 'c', 'k', 's', 'e', 's', 's', 'i', 'o', 'n']

def getuserinfoBaseName : Str :=
  ascii ['g', 'e', 't', 'u', 's', 'e', 'r', 'i', 'n', 'f', 'o', '_', 'b', 'a', 's', 'e']

/-- `pack_getusrinfor` -/
def packGetusrinfor : Dict → Str := packRequest getusrinforName [sessionidKey]

/-- `pack_getuserinfo_base` -/
def packGetuserinfoBase : Dict → Str := packRequest getuserinfoBaseName [useridKey, usertypeKey]

/-- `pack_checksession` -/
def packChecksession : Dict → Str := packRequest checksessionName [sessionidKey]

/-- `pack` -/
def pack (datagram : Dict) : Str :=
  match datagram requestKey with
  | none => []
  | some request =>
      if request = getusrinforName then packGetusrinfor datagram
      else if request = checksessionName then packChecksession datagram
      else if request = getuserinfoBaseName then packGetuserinfoBase datagram
      else []

/-! ## unpacking -/

/-- The loops of `unpack` and `unpack_row`: parts with their lengths in front, up to `limit`.
The parts so far, and whether the loop ended with an exception.

A length may be negative.  A turn reads a length at one of the places of the bytes, counted
from either end, or raises an exception; so a loop that makes more turns than there are places
comes back to one and never ends. -/
def partsLoop (bytes : Str) (limit : Int) :
    Nat → Int → List (Int × Str) → Except Fault (List (Int × Str) × Bool)
  | 0, _, _ => .error .diverge
  | fuel + 1, pos, parts =>
      if pos < limit then
        match unpackInt (slice bytes pos (pos + 4)) with
        | none => .ok (parts, true)
        | some len =>
            partsLoop bytes limit fuel (pos + 4 + len)
              (parts ++ [(len, slice bytes (pos + 4) (pos + 4 + len))])
      else .ok (parts, false)

/-- The loop from the beginning of the bytes. -/
def parts (bytes : Str) (limit : Int) : Except Fault (List (Int × Str) × Bool) :=
  partsLoop bytes limit (2 * bytes.length + 2) 0 []

/-- The name and the value of a field. -/
def unpackKv (kv_bytes : Str) : Option (Str × Str) := do
  let name_len ← unpackInt (slice kv_bytes 0 4)
  let field_name ← unpackStr name_len (slice kv_bytes 4 (4 + name_len))
  let value_len ← unpackInt (slice kv_bytes (4 + name_len) (4 + name_len + 4))
  let field_value ←
    unpackStr value_len (slice kv_bytes (4 + name_len + 4) (4 + name_len + 4 + value_len))
  return (field_name, field_value)

/-- `unpack_field` -/
def unpackField (datagram_row : Dict) : List (Int × Str) → Dict
  | [] => datagram_row
  | (_, kv_bytes) :: fields =>
      match unpackKv kv_bytes with
      | none => datagram_row
      | some (field_name, field_value) =>
          unpackField (update datagram_row field_name (some field_value)) fields

/-- `unpack_row` -/
def unpackRow (datagram : List Dict) : List (Int × Str) → Except Fault (List Dict)
  | [] => .ok datagram
  | (row_len, field_bytes) :: rows => do
      let (fields, raised) ← parts field_bytes row_len
      if raised then return datagram
      else unpackRow (datagram ++ [unpackField (fun _ => none) fields]) rows

/-- `unpack` -/
def unpack (bytes_buffer : Str) : Except Fault (List Dict) := do
  match unpackInt (slice bytes_buffer 0 4) with
  | none => unpackRow [] []
  | some len =>
      let (rows, _) ← parts (bytes_buffer.drop 4) (len - 4)
      unpackRow [] rows

/-! ## reading what is there -/

/-- A slice in the middle of some bytes. -/
theorem slice_append (a b c : Str) :
    slice (a ++ (b ++ c)) (a.length : Int) ((a.length : Int) + b.length) = b := by
  have hlo : sliceIndex (a ++ (b ++ c)) (a.length : Int) = a.length := by
    simp only [sliceIndex, List.length_append]
    split <;> omega
  have hhi : sliceIndex (a ++ (b ++ c)) ((a.length : Int) + b.length) = a.length + b.length := by
    simp only [sliceIndex, List.length_append]
    split <;> omega
  rw [slice, hlo, hhi, ← List.append_assoc, List.take_left' (List.length_append), List.drop_left]

theorem unpackInt_netBytes (h : n < 2 ^ 31) : unpackInt (netBytes 4 n) = some (n : Int) := by
  have hold : HoldsAt (netBytes 4 n) 0 (netBytes 4 n) := List.prefix_rfl
  rw [unpackInt, if_pos (length_netBytes 4 n), wordAt_of_holdsAt hold,
    i32_eq_self ⟨by omega, by omega⟩]

theorem unpackStr_self (s : Str) : unpackStr s.length s = some s :=
  if_pos ⟨Int.natCast_nonneg _, rfl⟩

/-- The length in front of a chunk, `a` bytes into a buffer. -/
theorem unpackInt_chunk (a : Str) {b : Str} (c : Str) (h : b.length < 2 ^ 31) :
    unpackInt (slice (a ++ (chunk b ++ c)) (a.length : Int) ((a.length : Int) + 4)) =
      some (b.length : Int) := by
  have hslice := slice_append a (netBytes 4 b.length) (b ++ c)
  rw [length_netBytes, ← List.append_assoc (netBytes 4 b.length)] at hslice
  exact (congrArg unpackInt hslice).trans (unpackInt_netBytes h)

/-- The bytes of a chunk, `a` bytes into a buffer. -/
theorem slice_chunk (a b c : Str) :
    slice (a ++ (chunk b ++ c)) ((a.length : Int) + 4) ((a.length : Int) + 4 + b.length) = b := by
  have hslice := slice_append (a ++ netBytes 4 b.length) b c
  rw [List.length_append, length_netBytes, List.append_assoc, ← List.append_assoc _ b] at hslice
  exact_mod_cast hslice

/-- The loop over encoded parts finds them all. -/
theorem partsLoop_partsBytes (bytes : α → Str) (xs : List α)
    (hsmall : ∀ x ∈ xs, (bytes x).length < 2 ^ 31) (before : Str) (acc : List (Int × Str))
    (fuel : Nat) (hfuel : xs.length < fuel) :
    partsLoop (before ++ partsBytes bytes xs) (before ++ partsBytes bytes xs).length fuel
        (before.length : Nat) acc =
      .ok (acc ++ xs.map fun x => (((bytes x).length : Int), bytes x), false) := by
  induction xs generalizing before acc fuel with
  | nil =>
      obtain ⟨fuel, rfl⟩ := Nat.exists_eq_add_of_lt hfuel
      have hnil : partsBytes bytes [] = [] := rfl
      rw [partsLoop, hnil, List.append_nil, if_neg (by omega), List.map_nil, List.append_nil]
  | cons x xs ih =>
      obtain ⟨fuel, rfl⟩ := Nat.exists_eq_add_of_lt hfuel
      have hx := hsmall x List.mem_cons_self
      have hrest := ih (fun y hy => hsmall y (List.mem_cons_of_mem x hy))
        (before ++ chunk (bytes x)) (acc ++ [(((bytes x).length : Int), bytes x)])
        (xs.length + 1 + fuel) (by omega)
      have hpos : ((before ++ chunk (bytes x)).length : Nat) =
          (before.length : Int) + 4 + (bytes x).length := by
        rw [List.length_append, length_chunk]
        omega
      rw [List.append_assoc, ← partsBytes_cons, hpos] at hrest
      have hmore : (before.length : Int) < (before ++ partsBytes bytes (x :: xs)).length := by
        rw [partsBytes_cons, List.length_append, List.length_append, length_chunk]
        omega
      rw [partsLoop, if_pos hmore, partsBytes_cons, unpackInt_chunk before _ hx]
      dsimp only
      rw [slice_chunk, ← partsBytes_cons]
      refine hrest.trans ?_
      rw [List.map_cons, List.append_assoc, List.singleton_append]

/-- There are not more parts than bytes. -/
theorem length_le_partsBytes (bytes : α → Str) (xs : List α) :
    xs.length ≤ (partsBytes bytes xs).length := by
  induction xs with
  | nil => exact Nat.zero_le _
  | cons x xs ih =>
      rw [partsBytes_cons, List.length_append, length_chunk, List.length_cons]
      omega

/-- Parts of which each fits in an `int` are found. -/
theorem parts_partsBytes_of_small (bytes : α → Str) (xs : List α)
    (hsmall : ∀ x ∈ xs, (bytes x).length < 2 ^ 31) :
    parts (partsBytes bytes xs) (partsBytes bytes xs).length =
      .ok (xs.map fun x => (((bytes x).length : Int), bytes x), false) := by
  have hcount := length_le_partsBytes bytes xs
  exact partsLoop_partsBytes bytes xs hsmall [] [] _ (by omega)

/-- Parts that fit in an `int` are found. -/
theorem parts_partsBytes (bytes : α → Str) (xs : List α)
    (h : (partsBytes bytes xs).length < 2 ^ 31) :
    parts (partsBytes bytes xs) (partsBytes bytes xs).length =
      .ok (xs.map fun x => (((bytes x).length : Int), bytes x), false) := by
  refine parts_partsBytes_of_small bytes xs fun x hx => ?_
  have := length_lt_of_mem_parts bytes hx
  omega

theorem unpackKv_chunks {name value : Str} (hname : name.length < 2 ^ 31)
    (hvalue : value.length < 2 ^ 31) :
    unpackKv (chunk name ++ chunk value) = some (name, value) := by
  have hn := unpackInt_chunk [] (chunk value) hname
  have hn' := slice_chunk [] name (chunk value)
  have hv := unpackInt_chunk (chunk name) [] hvalue
  have hv' := slice_chunk (chunk name) value []
  simp only [List.nil_append, List.length_nil, Int.natCast_zero, Int.zero_add] at hn hn'
  rw [List.append_nil, length_chunk] at hv hv'
  push_cast at hv hv'
  simp only [unpackKv, hn, hn', hv, hv', unpackStr_self, Option.bind_eq_bind, Option.bind_some,
    Option.pure_def]

/-- The name and the value of an encoded field. -/
theorem unpackKv_fieldBytes (f : CBinMsgField) (h : fieldSize f < 2 ^ 31) :
    unpackKv (fieldBytes f) = some (f.m_strName, f.m_strValue) := by
  rw [fieldSize] at h
  rw [fieldBytes, cut_eq_self (by omega), cut_eq_self (by omega)]
  exact unpackKv_chunks (by omega) (by omega)

/-- The dictionary of a row. -/
def dictionary (row : CBinMsgRow) : Dict := fun name =>
  (row.m_vecField.find? (·.m_strName = name)).map (·.m_strValue)

/-- Fields with distinct names fill the dictionary. -/
theorem unpackField_fields (fields : List CBinMsgField)
    (hsmall : ∀ f ∈ fields, fieldSize f < 2 ^ 31) (hnames : (fields.map (·.m_strName)).Nodup)
    (datagram_row : Dict) (hnew : ∀ f ∈ fields, datagram_row f.m_strName = none) (name : Str) :
    unpackField datagram_row (fields.map fun f => (((fieldBytes f).length : Int), fieldBytes f))
        name =
      (datagram_row name).or ((fields.find? (·.m_strName = name)).map (·.m_strValue)) := by
  induction fields generalizing datagram_row with
  | nil => simp [unpackField]
  | cons f fields ih =>
      obtain ⟨hf, hnames⟩ := List.nodup_cons.mp hnames
      rw [List.map_cons, unpackField, unpackKv_fieldBytes f (hsmall f List.mem_cons_self)]
      dsimp only
      rw [ih (fun g hg => hsmall g (List.mem_cons_of_mem f hg)) hnames]
      · by_cases hname : f.m_strName = name
        · subst hname
          have hnone := hnew f List.mem_cons_self
          simp [hnone]
        · rw [update_of_ne (Ne.symm hname), List.find?_cons_of_neg (by simpa using hname)]
      · intro g hg
        have hne : g.m_strName ≠ f.m_strName := fun heq =>
          hf (List.mem_map.mpr ⟨g, hg, heq⟩)
        rw [update_of_ne hne]
        exact hnew g (List.mem_cons_of_mem f hg)

/-- A record that can be sent to the Python end: no row is empty, and the names in a row are
distinct. -/
structure Sendable (rec : CBinMsgRecord) : Prop where
  fields_ne : ∀ row ∈ rec.m_vecRow, row.m_vecField ≠ []
  names : ∀ row ∈ rec.m_vecRow, (row.m_vecField.map (·.m_strName)).Nodup
  size_lt : recordSize rec < 2 ^ 31

/-- The fields of an encoded row fill its dictionary. -/
theorem unpackField_row {row : CBinMsgRow} (h : rowSize row < 2 ^ 31)
    (hnames : (row.m_vecField.map (·.m_strName)).Nodup) :
    unpackField (fun _ => none)
        (row.fields.map fun f => (((fieldBytes f).length : Int), fieldBytes f)) =
      dictionary row := by
  funext name
  rw [row.fields_eq h, unpackField_fields row.m_vecField _ hnames _ (fun _ _ => rfl)]
  · rfl
  · intro f hf
    have := size_le_partsSize fieldSize hf
    rw [rowSize] at h
    omega

/-- Encoded rows are read one after the other. -/
theorem unpackRow_rows (rows : List CBinMsgRow) (hsmall : ∀ row ∈ rows, rowSize row < 2 ^ 31)
    (hlen : ∀ row ∈ rows, (rowBytes row).length < 2 ^ 31)
    (hnames : ∀ row ∈ rows, (row.m_vecField.map (·.m_strName)).Nodup) (datagram : List Dict) :
    unpackRow datagram (rows.map fun row => (((rowBytes row).length : Int), rowBytes row)) =
      .ok (datagram ++ rows.map dictionary) := by
  induction rows generalizing datagram with
  | nil => simp [unpackRow]
  | cons row rows ih =>
      have hparts := parts_partsBytes fieldBytes row.fields (hlen row List.mem_cons_self)
      rw [List.map_cons, unpackRow, rowBytes, hparts, ok_bind]
      dsimp only
      rw [if_neg Bool.false_ne_true,
        unpackField_row (hsmall row List.mem_cons_self) (hnames row List.mem_cons_self)]
      have hrest := ih (fun r hr => hsmall r (List.mem_cons_of_mem row hr))
        (fun r hr => hlen r (List.mem_cons_of_mem row hr))
        (fun r hr => hnames r (List.mem_cons_of_mem row hr)) (datagram ++ [dictionary row])
      rw [hrest, List.map_cons, List.append_assoc, List.singleton_append]

/-- The Python end reads an encoded record. -/
theorem unpack_recordBytes {rec : CBinMsgRecord} (h : Sendable rec)
    (hlen : (recordBytes rec).length < 2 ^ 31) :
    unpack (recordBytes rec) = .ok (rec.m_vecRow.map dictionary) := by
  have hrows := rec.rows_eq h.size_lt
  have hdrop := drop_recordBytes rec
  rw [length_recordBytes] at hlen
  have hword : unpackInt (slice (recordBytes rec) 0 4) =
      some ((4 + (partsBytes rowBytes rec.rows).length : Nat) : Int) := by
    have hslice := slice_append [] (netBytes 4 (4 + (partsBytes rowBytes rec.rows).length))
      (partsBytes rowBytes rec.rows)
    rw [length_netBytes] at hslice
    exact (congrArg unpackInt hslice).trans (unpackInt_netBytes hlen)
  have hlimit : ((4 + (partsBytes rowBytes rec.rows).length : Nat) : Int) - 4 =
      ((partsBytes rowBytes rec.rows).length : Nat) := by
    omega
  rw [unpack, hword]
  dsimp only
  rw [hdrop, hlimit, parts_partsBytes rowBytes rec.rows (by omega), ok_bind]
  dsimp only
  rw [hrows]
  exact unpackRow_rows rec.m_vecRow (fun row hrow => rowSize_lt h.size_lt hrow)
    (fun row hrow => by
      have := length_lt_of_mem_parts rowBytes hrow
      rw [hrows] at hlen
      omega) h.names []

/-! ## sizes -/

theorem length_partsBytes {bytes : α → Str} {size : α → Nat} (xs : List α)
    (h : ∀ x ∈ xs, (bytes x).length = size x) :
    (partsBytes bytes xs).length = partsSize size xs := by
  induction xs with
  | nil => rfl
  | cons x xs ih =>
      rw [partsBytes_cons, List.length_append, length_chunk, partsSize_cons,
        h x List.mem_cons_self, ih fun y hy => h y (List.mem_cons_of_mem x hy)]

theorem length_fieldBytes_eq (f : CBinMsgField) (h : fieldSize f < 2 ^ 31) :
    (fieldBytes f).length = fieldSize f := by
  rw [fieldSize] at h ⊢
  rw [length_fieldBytes, cut_eq_self (by omega), cut_eq_self (by omega)]
  omega

theorem length_rowBytes_eq (row : CBinMsgRow) (h : rowSize row < 2 ^ 31) :
    (rowBytes row).length = rowSize row := by
  rw [rowBytes, row.fields_eq h, rowSize]
  refine length_partsBytes row.m_vecField fun f hf => length_fieldBytes_eq f ?_
  have := size_le_partsSize fieldSize hf
  rw [rowSize] at h
  omega

/-- A record is written in its size. -/
theorem length_recordBytes_eq (rec : CBinMsgRecord) (h : recordSize rec < 2 ^ 31) :
    (recordBytes rec).length = recordSize rec := by
  rw [length_recordBytes, rec.rows_eq h, recordSize]
  congr 1
  exact length_partsBytes rec.m_vecRow fun row hrow => length_rowBytes_eq row (rowSize_lt h hrow)

/-! ## what is packed -/

/-- The requests of `pack`, with the strings that are packed. -/
inductive Request
  | getusrinfor (sessionid : Str)
  | checksession (sessionid : Str)
  | getuserinfoBase (userid usertype : Str)

/-- The packed fields, in order. -/
def Request.fields : Request → List CBinMsgField
  | .getusrinfor sessionid => [⟨requestKey, getusrinforName⟩, ⟨sessionidKey, sessionid⟩]
  | .checksession sessionid => [⟨requestKey, checksessionName⟩, ⟨sessionidKey, sessionid⟩]
  | .getuserinfoBase userid usertype =>
      [⟨requestKey, getuserinfoBaseName⟩, ⟨useridKey, userid⟩, ⟨usertypeKey, usertype⟩]

/-- A record with one row of fields. -/
def recordOf (fields : List CBinMsgField) : CBinMsgRecord :=
  CBinMsgRecord.init.addRow (fields.foldl .addField .init)

theorem rows_recordOf (fields : List CBinMsgField) :
    (recordOf fields).m_vecRow = [fields.foldl .addField .init] := rfl

theorem fields_recordOf (fields : List CBinMsgField) :
    (fields.foldl CBinMsgRow.addField .init).m_vecField = fields := by
  rw [foldl_addField]
  rfl

theorem packStrField_eq {k v : Str} (h : k.length + v.length + 8 < 2 ^ 31) :
    packStrField k v = some (chunk (chunk k ++ chunk v)) := by
  have hlen : (chunk k ++ chunk v).length = k.length + v.length + 8 := by
    rw [List.length_append, length_chunk, length_chunk]
    omega
  rw [packStrField, packInt, packInt, packInt, if_pos h, if_pos (by omega), if_pos (by omega)]
  simp only [Option.bind_eq_bind, Option.bind_some, Option.pure_def]
  rw [chunk, hlen, chunk, chunk]
  simp only [List.append_assoc]

/-- Fields that fit are packed as `Encode` writes them. -/
theorem packFields_eq (fields : List CBinMsgField) (h : ∀ f ∈ fields, fieldSize f < 2 ^ 31)
    (bytes_buffer : Str) :
    packFields bytes_buffer (fields.map fun f => (f.m_strName, some f.m_strValue)) =
      .ok (bytes_buffer ++ partsBytes fieldBytes fields) := by
  induction fields generalizing bytes_buffer with
  | nil => simp [packFields, partsBytes]
  | cons f fields ih =>
      have hf := h f List.mem_cons_self
      rw [fieldSize] at hf
      rw [List.map_cons, packFields, packStrField_eq (by omega)]
      dsimp only
      rw [ih (fun g hg => h g (List.mem_cons_of_mem f hg)), partsBytes_cons, fieldBytes,
        cut_eq_self (by omega), cut_eq_self (by omega), List.append_assoc]

/-- A request that fits is packed as `Encode` writes it. -/
theorem packRequest_eq {request : Str} {keys : List Str} {datagram : Dict}
    {fields : List CBinMsgField} (hsize : recordSize (recordOf fields) < 2 ^ 31)
    (hfields : (requestKey, some request) :: keys.map (fun k => (k, datagram k)) =
      fields.map fun f => (f.m_strName, some f.m_strValue)) :
    packRequest request keys datagram = recordBytes (recordOf fields) := by
  have hrow := rowSize_lt hsize (List.mem_singleton_self _)
  have hrowBytes : rowBytes (fields.foldl .addField .init) = partsBytes fieldBytes fields := by
    rw [rowBytes, CBinMsgRow.fields_eq _ hrow, fields_recordOf]
  have hbytes : recordBytes (recordOf fields) =
      netBytes 4 ((partsBytes fieldBytes fields).length + 8) ++
        (netBytes 4 (partsBytes fieldBytes fields).length ++ partsBytes fieldBytes fields) := by
    have hparts : partsBytes rowBytes [fields.foldl .addField .init] =
        chunk (partsBytes fieldBytes fields) := by
      rw [partsBytes_cons, hrowBytes]
      exact List.append_nil _
    rw [recordBytes, CBinMsgRecord.rows_eq _ hsize, rows_recordOf, hparts, length_chunk, chunk]
    congr 2
    omega
  have hlen := length_recordBytes_eq _ hsize
  rw [hbytes, List.length_append, List.length_append, length_netBytes, length_netBytes] at hlen
  have hsmall : ∀ f ∈ fields, fieldSize f < 2 ^ 31 := by
    intro f hf
    rw [rowSize, fields_recordOf] at hrow
    have := size_le_partsSize fieldSize hf
    omega
  rw [packRequest, hfields, packFields_eq fields hsmall, List.nil_append]
  dsimp only
  rw [packInt, packInt, if_pos (by omega), if_pos (by omega)]
  dsimp only
  rw [hbytes, List.append_assoc]

/-- The dictionary has the fields of a request. -/
def Carries (datagram : Dict) (request : Request) : Prop :=
  ∀ f ∈ request.fields, datagram f.m_strName = some f.m_strValue

/-- `pack` writes a request as `Encode` does. -/
theorem pack_eq {datagram : Dict} {request : Request} (h : Carries datagram request)
    (hsize : recordSize (recordOf request.fields) < 2 ^ 31) :
    pack datagram = recordBytes (recordOf request.fields) := by
  cases request with
  | getusrinfor sessionid =>
      have hrequest := h ⟨requestKey, getusrinforName⟩ (by simp [Request.fields])
      have hsessionid := h ⟨sessionidKey, sessionid⟩ (by simp [Request.fields])
      simp only at hrequest hsessionid
      rw [pack, hrequest]
      dsimp only
      rw [if_pos rfl]
      exact packRequest_eq hsize (by simp [Request.fields, hsessionid])
  | checksession sessionid =>
      have hrequest := h ⟨requestKey, checksessionName⟩ (by simp [Request.fields])
      have hsessionid := h ⟨sessionidKey, sessionid⟩ (by simp [Request.fields])
      simp only at hrequest hsessionid
      rw [pack, hrequest]
      dsimp only
      rw [if_neg (by decide), if_pos rfl]
      exact packRequest_eq hsize (by simp [Request.fields, hsessionid])
  | getuserinfoBase userid usertype =>
      have hrequest := h ⟨requestKey, getuserinfoBaseName⟩ (by simp [Request.fields])
      have huserid := h ⟨useridKey, userid⟩ (by simp [Request.fields])
      have husertype := h ⟨usertypeKey, usertype⟩ (by simp [Request.fields])
      simp only at hrequest huserid husertype
      rw [pack, hrequest]
      dsimp only
      rw [if_neg (by decide), if_neg (by decide), if_pos rfl]
      exact packRequest_eq hsize (by simp [Request.fields, huserid, husertype])

/-! ## the two ends -/

/-- A record that fits has a layout, also one without rows. -/
theorem layoutRecord_fits {rec : CBinMsgRecord} (h : Sendable rec) {room : Nat}
    (hfit : recordSize rec ≤ room) : layoutRecord room rec = .ok (recordSize rec) := by
  by_cases hnil : rec.m_vecRow = []
  · rw [layoutRecord, rec.rows_eq h.size_lt, recordSize, hnil]
    rfl
  · rw [layoutRecord_eq rec h.size_lt hnil h.fields_ne, if_pos hfit]

/-- `Encode` writes a record that fits, and the Python end reads it. -/
theorem encode_unpack (host : Endian) {rec : CBinMsgRecord} (h : Sendable rec) {buf : List UInt8}
    (hbuf : buf.length < 2 ^ 31) (hfit : recordSize rec ≤ buf.length) :
    ∃ mem', recordEncode host buf (some 0) buf.length rec = .ok (.ok, recordSize rec, mem') ∧
      unpack (mem'.take (recordSize rec)) = .ok (rec.m_vecRow.map dictionary) := by
  have h4 : 4 ≤ buf.length := by
    rw [recordSize] at hfit
    omega
  obtain ⟨henc, hlen, -⟩ :=
    recordEncode_ok host hbuf (Nat.zero_add _) h4 (layoutRecord_fits h hfit)
  refine ⟨_, henc, ?_⟩
  have htake : (splice buf 0 (recordBytes rec)).take (recordSize rec) = recordBytes rec := by
    rw [← hlen]
    exact window_encoded buf rec
  rw [htake]
  exact unpack_recordBytes h (by omega)

/-- A record that `Encode` accepts fits in the buffer. -/
theorem fits_of_encode (host : Endian) {rec : CBinMsgRecord} (h : Sendable rec)
    {buf : List UInt8} (hbuf : buf.length < 2 ^ 31) {len : Int} {mem' : List UInt8}
    (henc : recordEncode host buf (some 0) buf.length rec = .ok (.ok, len, mem')) :
    recordSize rec ≤ buf.length := by
  by_cases hnil : rec.m_vecRow = []
  · -- without rows it is four bytes long, and would be written over the end of less
    by_contra hfit
    rw [recordSize, hnil] at hfit
    have htiny : buf.length < 4 := Nat.lt_of_not_le hfit
    obtain ⟨e, herr⟩ := recordEncode_tiny host (by rw [rec.rows_eq h.size_lt, hnil]) htiny
    rw [henc] at herr
    cases herr
  · obtain ⟨hget, ret, len', mem'', henc', -, hret, -⟩ :=
      binMsg_roundtrip host rec hnil h.fields_ne h.size_lt buf hbuf
    rw [henc'] at henc
    cases henc
    have := hret.mp rfl
    rw [hget] at this
    exact_mod_cast this

/-- The C++ end reads what is packed. -/
theorem pack_decode (host : Endian) {datagram : Dict} {request : Request}
    (h : Carries datagram request) (hsize : recordSize (recordOf request.fields) < 2 ^ 31) :
    ∃ rec, (recordDecode host (pack datagram) (some 0) (pack datagram).length .init).result =
        .ok (.ok, rec) ∧
      rec.m_vecRow.map (·.m_vecField) = [request.fields] := by
  have hlen := length_recordBytes_eq _ hsize
  have hrows := CBinMsgRecord.rows_eq _ hsize
  have hwin := window_self (recordBytes (recordOf request.fields))
  have hsmall : (recordBytes (recordOf request.fields)).length < 2 ^ 31 := by omega
  rw [pack_eq h hsize]
  have hdec := recordDecode_ok host hsmall (Nat.le_of_eq (Nat.zero_add _))
    (by rw [hwin]; exact not_recordBad_recordBytes hsmall)
    (by
      rw [hwin]
      refine recordAccepts_recordBytes hsmall ?_ ?_
      · rw [hrows]
        exact List.cons_ne_nil _ _
      · intro row hrow
        rw [hrows] at hrow
        rw [row.fields_eq (rowSize_lt hsize hrow), List.mem_singleton.mp hrow, fields_recordOf]
        cases request <;> exact List.cons_ne_nil _ _)
  rw [CBinMsgRecord.sent_eq _ hsize] at hdec
  refine ⟨_, hdec.2, ?_⟩
  rw [rows_recordOf, List.map_singleton, fields_recordOf]

/-- **The two ends agree**: the C++ end writes every record that fits in its buffer, the Python
end reads what it writes as the dictionaries of the rows, and the C++ end reads every request
that the Python end writes, as one row of its fields. -/
theorem ends_agree (host : Endian) :
    (∀ rec, Sendable rec → ∀ buf : List UInt8, buf.length < 2 ^ 31 →
      (recordSize rec ≤ buf.length → ∃ len mem',
        recordEncode host buf (some 0) buf.length rec = .ok (.ok, len, mem')) ∧
      ∀ len mem', recordEncode host buf (some 0) buf.length rec = .ok (.ok, len, mem') →
        unpack (mem'.take len.toNat) = .ok (rec.m_vecRow.map dictionary)) ∧
    (∀ datagram request, Carries datagram request →
      recordSize (recordOf request.fields) < 2 ^ 31 →
      ∃ rec, (recordDecode host (pack datagram) (some 0) (pack datagram).length .init).result =
          .ok (.ok, rec) ∧
        rec.m_vecRow.map (·.m_vecField) = [request.fields]) := by
  refine ⟨fun rec h buf hbuf => ⟨fun hfit => ?_, fun len mem' henc => ?_⟩,
    fun _ _ h hsize => pack_decode host h hsize⟩
  · obtain ⟨mem', henc, -⟩ := encode_unpack host h hbuf hfit
    exact ⟨_, mem', henc⟩
  · obtain ⟨mem'', henc', hunpack⟩ :=
      encode_unpack host h hbuf (fits_of_encode host h hbuf henc)
    rw [henc'] at henc
    cases henc
    exact hunpack

/-- The dictionary of a `getusrinfor` request for the session `7`. -/
def sessionRequest : Dict :=
  update (update (fun _ => none) requestKey (some getusrinforName)) sessionidKey (some [55])

/-- The record of two rows, and a request, in both directions. -/
theorem ends_agree_twoRows :
    (∃ len mem', recordEncode .little (List.replicate 60 0) (some 0) 60 twoRows =
        .ok (.ok, len, mem') ∧
      unpack (mem'.take len.toNat) = .ok (twoRows.m_vecRow.map dictionary)) ∧
    ∃ rec, (recordDecode .little (pack sessionRequest) (some 0) (pack sessionRequest).length
        .init).result = .ok (.ok, rec) ∧
      rec.m_vecRow.map (·.m_vecField) = [(Request.getusrinfor [55]).fields] := by
  have hall : twoRows.m_vecRow.all (fun row =>
      row.m_vecField ≠ [] ∧ (row.m_vecField.map (·.m_strName)).Nodup) := by decide
  have hrows := fun row hrow => of_decide_eq_true (List.all_eq_true.mp hall row hrow)
  have hsend : Sendable twoRows :=
    ⟨fun row hrow => (hrows row hrow).1, fun row hrow => (hrows row hrow).2, by decide⟩
  have hcarries : Carries sessionRequest (.getusrinfor [55]) := by
    intro f hf
    simp only [Request.fields, List.mem_cons, List.not_mem_nil, or_false] at hf
    rcases hf with rfl | rfl
    · decide
    · decide
  obtain ⟨hfits, hread⟩ :=
    (ends_agree .little).1 twoRows hsend (List.replicate 60 0) (by decide)
  obtain ⟨len, mem', henc⟩ := hfits (by decide)
  exact ⟨⟨len, mem', henc, hread len mem' henc⟩,
    (ends_agree .little).2 sessionRequest _ hcarries (by decide)⟩

end DatagramFactory
end PythonProjects
end MySrc
