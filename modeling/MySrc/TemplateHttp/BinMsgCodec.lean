import MySrc.TemplateHttp.BinMsgDecode

/-!
# MySrc.TemplateHttp.BinMsgCodec

Encoding and decoding together.  `binMsg_roundtrip` is about the records that
are meant to be sent, with a row and with a field in every row.
`encoded_decodable_iff` is about every record: what `Encode` accepts and
`Decode` rejects are the records without rows and those with an empty row.
-/

namespace MySrc

open Lib

/-! ## encoded bytes are accepted -/

theorem wordAt_chunk {bs : List UInt8} (h : bs.length < 2 ^ 31) (rest : List UInt8) :
    wordAt (chunk bs ++ rest) 0 = bs.length := by
  have hold : HoldsAt (chunk bs ++ rest) 0 (netBytes 4 bs.length) := by
    rw [chunk, List.append_assoc]
    exact List.prefix_append _ _
  rw [wordAt_of_holdsAt hold, i32_eq_self ⟨by omega, by omega⟩]

/-- A chunk in front is split off again. -/
theorem splitChunk_chunk {bs : List UInt8} (h : bs.length < 2 ^ 31) (rest : List UInt8) :
    splitChunk (chunk bs ++ rest) = some (bs, rest) := by
  have hword := wordAt_chunk h rest
  have hfour : (chunk bs ++ rest).drop 4 = bs ++ rest := by
    rw [chunk, List.append_assoc, List.drop_left' (length_netBytes 4 _)]
  unfold splitChunk
  rw [if_pos, hword, Int.toNat_natCast, ← List.drop_drop, hfour, List.take_left, List.drop_left]
  rw [hword, List.length_append, length_chunk]
  omega

/-- A length word that tells the truth is not hostile. -/
theorem not_hostileWord_chunk {bs : List UInt8} (h : cur + 4 + bs.length < 2 ^ 31)
    (rest : List UInt8) : ¬ HostileWord cur (chunk bs ++ rest) := by
  rintro (hbig | ⟨-, -, hover⟩)
  · omega
  · rw [wordAt_chunk (by omega)] at hover
    omega

section

variable {bad : List UInt8 → Prop} {accepts : List UInt8 → β → Prop} {bytes : α → List UInt8}
  {g : α → β}

theorem length_lt_of_mem_parts (bytes : α → List UInt8) {xs : List α} (hx : x ∈ xs) :
    4 + (bytes x).length ≤ (partsBytes bytes xs).length := by
  induction xs with
  | nil => cases hx
  | cons y ys ih =>
      rw [partsBytes_cons, List.length_append, length_chunk]
      rcases List.mem_cons.mp hx with rfl | hx
      · omega
      · have := ih hx
        omega

/-- Encoded parts are chunks of what each of them is read as. -/
theorem partsOf_partsBytes (xs : List α) (hlen : (partsBytes bytes xs).length < 2 ^ 31)
    (hacc : ∀ x ∈ xs, accepts (bytes x) (g x)) :
    PartsOf accepts (partsBytes bytes xs) (xs.map g) := by
  induction xs with
  | nil => exact .done rfl
  | cons x xs ih =>
      rw [partsBytes_cons, List.length_append, length_chunk] at hlen
      have hchunk := splitChunk_chunk (by omega : (bytes x).length < 2 ^ 31) (partsBytes bytes xs)
      refine .next hchunk (hacc x List.mem_cons_self) ?_
      exact ih (by omega) fun y hy => hacc y (List.mem_cons_of_mem _ hy)

/-- What reads encoded parts reads every one of them. -/
theorem accepts_of_partsOf (xs : List α) (hlen : (partsBytes bytes xs).length < 2 ^ 31)
    (h : PartsOf accepts (partsBytes bytes xs) ys) (hx : x ∈ xs) : ∃ y, accepts (bytes x) y := by
  induction xs generalizing ys with
  | nil => cases hx
  | cons z zs ih =>
      rw [partsBytes_cons, List.length_append, length_chunk] at hlen
      have hchunk := splitChunk_chunk (by omega : (bytes z).length < 2 ^ 31) (partsBytes bytes zs)
      rw [partsBytes_cons] at h
      cases h with
      | done hnone => cases hnone.symm.trans hchunk
      | @next _ _ _ y ys hsome hy hys =>
          obtain ⟨rfl, rfl⟩ := Prod.mk.inj (Option.some.inj (hsome.symm.trans hchunk))
          rcases List.mem_cons.mp hx with rfl | hx
          · exact ⟨y, hy⟩
          · exact ih (by omega) hys hx

/-- Encoded parts have no hostile words. -/
theorem not_meetsHostile_partsBytes {acc : List UInt8 → Prop} (xs : List α)
    (hlen : cur + (partsBytes bytes xs).length + 4 < 2 ^ 31)
    (hsafe : ∀ x ∈ xs, ¬ bad (bytes x)) : ¬ MeetsHostile bad acc cur (partsBytes bytes xs) := by
  intro h
  induction xs generalizing cur with
  | nil =>
      cases h with
      | word hword =>
          rcases hword with hbig | ⟨hfour, -⟩
          · omega
          · cases hfour
      | inner hchunk _ => cases hchunk
      | next hchunk _ _ => cases hchunk
  | cons x xs ih =>
      rw [partsBytes_cons, List.length_append, length_chunk] at hlen
      have hchunk := splitChunk_chunk (by omega : (bytes x).length < 2 ^ 31) (partsBytes bytes xs)
      rw [partsBytes_cons] at h
      cases h with
      | word hword => exact not_hostileWord_chunk (by omega) _ hword
      | inner hsome hbad =>
          obtain ⟨rfl, rfl⟩ := Prod.mk.inj (Option.some.inj (hsome.symm.trans hchunk))
          exact hsafe x List.mem_cons_self hbad
      | next hsome _ hrest =>
          obtain ⟨rfl, rfl⟩ := Prod.mk.inj (Option.some.inj (hsome.symm.trans hchunk))
          exact ih (by omega) (fun y hy => hsafe y (List.mem_cons_of_mem _ hy)) hrest

end

/-! ## what is read back -/

/-- A field as it is read back: with the strings that were written. -/
def CBinMsgField.sent (f : CBinMsgField) : CBinMsgField := ⟨cut f.m_strName, cut f.m_strValue⟩

def CBinMsgRow.sent (row : CBinMsgRow) : CBinMsgRow :=
  (row.fields.map CBinMsgField.sent).foldl .addField .init

def CBinMsgRecord.sent (rec : CBinMsgRecord) : CBinMsgRecord :=
  (rec.rows.map CBinMsgRow.sent).foldl .addRow .init

theorem length_fieldBytes (f : CBinMsgField) :
    (fieldBytes f).length = 4 + (cut f.m_strName).length + (4 + (cut f.m_strValue).length) := by
  rw [fieldBytes, List.length_append, length_chunk, length_chunk]

/-- The first chunk of a field is its name, and the value is the rest. -/
theorem splitChunk_fieldBytes (f : CBinMsgField) (h : (fieldBytes f).length < 2 ^ 31) :
    splitChunk (fieldBytes f) = some (cut f.m_strName, chunk (cut f.m_strValue)) := by
  rw [length_fieldBytes] at h
  exact splitChunk_chunk (by omega) _

/-- The bytes of a field are accepted as the field with its strings cut. -/
theorem fieldAccepts_fieldBytes (f : CBinMsgField) (h : (fieldBytes f).length < 2 ^ 31) :
    FieldAccepts (fieldBytes f) f.sent := by
  refine ⟨_, [], splitChunk_fieldBytes f h, ?_⟩
  rw [length_fieldBytes] at h
  have hvalue := splitChunk_chunk (by omega : (cut f.m_strValue).length < 2 ^ 31) []
  rwa [List.append_nil] at hvalue

/-- No length in the bytes of a field leads out of them. -/
theorem not_fieldBad_fieldBytes (f : CBinMsgField) (h : (fieldBytes f).length < 2 ^ 31) :
    ¬ FieldBad (fieldBytes f) := by
  have hname := splitChunk_fieldBytes f h
  rw [length_fieldBytes] at h
  rintro (hword | ⟨c, rest, hc, hword⟩)
  · exact not_hostileWord_chunk (by omega) _ hword
  · obtain ⟨rfl, rfl⟩ := Prod.mk.inj (Option.some.inj (hc.symm.trans hname))
    rw [← List.append_nil (chunk (cut f.m_strValue))] at hword
    exact not_hostileWord_chunk (by omega) _ hword

/-- The bytes of a row that has a field are accepted as the row. -/
theorem rowAccepts_rowBytes (row : CBinMsgRow) (hne : row.fields ≠ [])
    (h : (rowBytes row).length < 2 ^ 31) : RowAccepts (rowBytes row) row.sent := by
  refine ⟨_, fun hnil => hne (List.map_eq_nil_iff.mp hnil), ?_, rfl⟩
  refine partsOf_partsBytes row.fields h fun f hf => fieldAccepts_fieldBytes f ?_
  have := length_lt_of_mem_parts fieldBytes hf
  rw [rowBytes] at h
  omega

/-- No length in the bytes of a row leads out of them. -/
theorem not_rowBad_rowBytes (row : CBinMsgRow) (h : (rowBytes row).length + 4 < 2 ^ 31) :
    ¬ RowBad (rowBytes row) := by
  rw [rowBytes] at h
  refine not_meetsHostile_partsBytes row.fields (by omega) fun f hf => not_fieldBad_fieldBytes f ?_
  have := length_lt_of_mem_parts fieldBytes hf
  omega

theorem drop_recordBytes (rec : CBinMsgRecord) :
    (recordBytes rec).drop 4 = partsBytes rowBytes rec.rows := by
  rw [recordBytes, List.drop_left' (length_netBytes 4 _)]

theorem length_recordBytes (rec : CBinMsgRecord) :
    (recordBytes rec).length = 4 + (partsBytes rowBytes rec.rows).length := by
  rw [recordBytes, List.length_append, length_netBytes]

section

variable {rec : CBinMsgRecord} (h : (recordBytes rec).length < 2 ^ 31)

include h

theorem length_rowBytes_lt (hrow : row ∈ rec.rows) : (rowBytes row).length + 4 < 2 ^ 31 := by
  have := length_lt_of_mem_parts rowBytes hrow
  rw [length_recordBytes] at h
  omega

/-- No length in the bytes of a record leads out of them. -/
theorem not_recordBad_recordBytes : ¬ RecordBad (recordBytes rec) := by
  rw [RecordBad, drop_recordBytes]
  refine not_meetsHostile_partsBytes rec.rows ?_ fun row hrow => ?_
  · rw [length_recordBytes] at h
    omega
  · exact not_rowBad_rowBytes row (length_rowBytes_lt h hrow)

/-- The bytes of a record are accepted as the record, when it has a row and each row a field. -/
theorem recordAccepts_recordBytes (hne : rec.rows ≠ [])
    (hrows : ∀ row ∈ rec.rows, row.fields ≠ []) :
    RecordAccepts (recordBytes rec) rec.sent := by
  rw [RecordAccepts, drop_recordBytes]
  refine ⟨_, fun hnil => hne (List.map_eq_nil_iff.mp hnil), ?_, rfl⟩
  refine partsOf_partsBytes rec.rows ?_ fun row hrow => ?_
  · rw [length_recordBytes] at h
    omega
  · have := length_rowBytes_lt h hrow
    exact rowAccepts_rowBytes row (hrows row hrow) (by omega)

/-- No record without rows, and none with an empty row, is accepted. -/
theorem rows_of_recordAccepts (hacc : RecordAccepts (recordBytes rec) rec') :
    rec.rows ≠ [] ∧ ∀ row ∈ rec.rows, row.fields ≠ [] := by
  rw [RecordAccepts, drop_recordBytes] at hacc
  constructor
  · intro hnil
    rw [hnil] at hacc
    exact not_partsAccepts_nil _ hacc
  · intro row hrow hnil
    obtain ⟨rows, -, hparts, -⟩ := hacc
    rw [length_recordBytes] at h
    obtain ⟨row', hrow'⟩ := accepts_of_partsOf rec.rows (by omega) hparts hrow
    rw [rowBytes, hnil] at hrow'
    exact not_partsAccepts_nil _ hrow'

end

/-! ## every record -/

/-- The encoder stays in its buffer, and what it says it has encoded can be
decoded. -/
def EncodedDecodable (host : Endian) (buf : List UInt8) (rec : CBinMsgRecord) : Prop :=
  ∃ ret len mem', recordEncode host buf (some 0) buf.length rec = .ok (ret, len, mem') ∧
    (ret = .ok → len ≤ buf.length ∧
      ∃ rec', (recordDecode host mem' (some 0) len .init).result = .ok (.ok, rec'))

section

variable (host : Endian) {buf : List UInt8} {rec : CBinMsgRecord}

/-- The bytes of an encoded record. -/
theorem window_encoded (buf : List UInt8) (rec : CBinMsgRecord) :
    window (splice buf 0 (recordBytes rec)) 0 (recordBytes rec).length = recordBytes rec :=
  (holdsAt_splice (Nat.zero_le buf.length)).take_eq

/-- Decoding an encoded record with a row, and a field in every row. -/
theorem recordDecode_encoded (hbuf : buf.length < 2 ^ 31)
    (hlen : (recordBytes rec).length ≤ buf.length) (hne : rec.rows ≠ [])
    (hrows : ∀ row ∈ rec.rows, row.fields ≠ []) :
    (recordDecode host (splice buf 0 (recordBytes rec)) (some 0) (recordBytes rec).length
      .init).Returns Span.Inside (.ok, rec.sent) := by
  have hsmall : (recordBytes rec).length < 2 ^ 31 := by omega
  have hin : 0 + (recordBytes rec).length ≤ (splice buf 0 (recordBytes rec)).length := by
    rw [length_splice (by omega)]
    omega
  have hwin := window_encoded buf rec
  refine recordDecode_ok host hsmall hin ?_ ?_
  · rw [hwin]
    exact not_recordBad_recordBytes hsmall
  · rw [hwin]
    exact recordAccepts_recordBytes hsmall hne hrows

/-- Any other record is not decoded. -/
theorem recordDecode_encoded_ne_ok (hbuf : buf.length < 2 ^ 31)
    (hlen : (recordBytes rec).length ≤ buf.length)
    (h : (recordDecode host (splice buf 0 (recordBytes rec)) (some 0) (recordBytes rec).length
      .init).result = .ok (.ok, rec')) :
    rec.rows ≠ [] ∧ ∀ row ∈ rec.rows, row.fields ≠ [] := by
  have hsmall : (recordBytes rec).length < 2 ^ 31 := by omega
  have hin : 0 + (recordBytes rec).length ≤ (splice buf 0 (recordBytes rec)).length := by
    rw [length_splice (by omega)]
    omega
  have hwin := window_encoded buf rec
  by_contra hnot
  obtain ⟨ret, rec'', hret, hdec⟩ := recordDecode_fails host hsmall hin
    (by rw [hwin]; exact not_recordBad_recordBytes hsmall)
    (fun rec'' hacc => hnot (rows_of_recordAccepts hsmall (by rwa [hwin] at hacc)))
  have heq := Except.ok.inj (hdec.2.symm.trans h)
  exact hret (congrArg Prod.fst heq)

/-- A record that has a row needs room for its length. -/
theorem four_lt_of_rows (hne : rec.rows ≠ []) (h : layoutRecord room rec = .ok n) : 4 ≤ room := by
  cases hrows : rec.rows with
  | nil => exact absurd hrows hne
  | cons row rows =>
      rw [layoutRecord, hrows, layoutParts] at h
      split at h
      · cases h
      · omega

/-- A record without rows does not fit in less than four bytes, but is written. -/
theorem recordEncode_tiny (hnil : rec.rows = []) (h : buf.length < 4) :
    ∃ e, recordEncode host buf (some 0) buf.length rec = .error e := by
  have hptr : pointerAt (some 0) 0 = .ok 0 := rfl
  have hparam : ¬ ((some 0 : Option Int) = none ∨ (buf.length : Int) < 0) := not_param 0 buf.length
  refine ⟨.outOfBounds, ?_⟩
  rw [recordEncode, if_neg hparam, hnil, encodeParts, ok_bind]
  dsimp only
  rw [if_neg (by decide), storeInt, hptr, ok_bind, memcpyTo_eq_error]
  · rfl
  · rw [length_storeWord]
    omega

/-- What can be decoded again has rows, and fields in them. -/
theorem rows_of_encodedDecodable (hbuf : buf.length < 2 ^ 31) (h : EncodedDecodable host buf rec)
    (hn : layoutRecord buf.length rec = .ok n) :
    rec.rows ≠ [] ∧ ∀ row ∈ rec.rows, row.fields ≠ [] := by
  obtain ⟨ret, len, mem', henc, hdec⟩ := h
  by_cases h4 : 4 ≤ buf.length
  · obtain ⟨hok, rfl, hle⟩ := recordEncode_ok host hbuf (Nat.zero_add _) h4 hn
    have heq := Except.ok.inj (henc.symm.trans hok)
    obtain ⟨rfl, rfl, rfl⟩ : ret = .ok ∧ len = _ ∧ mem' = _ := by simpa using heq
    obtain ⟨-, rec', hrec'⟩ := hdec rfl
    exact recordDecode_encoded_ne_ok host hbuf hle hrec'
  · by_cases hnil : rec.rows = []
    · obtain ⟨e, he⟩ := recordEncode_tiny host hnil (show buf.length < 4 by omega)
      cases henc.symm.trans he
    · exact absurd (four_lt_of_rows hnil hn) h4

/-- **Encoded records** are decodable exactly when no space test overflows, and
the records that fit have a row and a field in every row. -/
theorem encoded_decodable_iff (hbuf : buf.length < 2 ^ 31) :
    EncodedDecodable host buf rec ↔
      layoutRecord buf.length rec ≠ .error .overrun ∧
        ∀ n, layoutRecord buf.length rec = .ok n →
          rec.rows ≠ [] ∧ ∀ row ∈ rec.rows, row.fields ≠ [] := by
  have hend : 0 + buf.length = buf.length := Nat.zero_add _
  constructor
  · intro h
    refine ⟨fun hover => ?_, fun n hn => rows_of_encodedDecodable host hbuf h hn⟩
    obtain ⟨ret, len, mem', henc, -⟩ := h
    obtain ⟨e, he⟩ := recordEncode_overrun host hbuf hend hover
    cases henc.symm.trans he
  · rintro ⟨hover, hrows⟩
    cases hlay : layoutRecord buf.length rec with
    | error o =>
        cases o with
        | noRoom =>
            obtain ⟨mem', henc, -⟩ := recordEncode_noRoom host hbuf hend hlay
            exact ⟨.noEnough, 0, mem', henc, fun h => by cases h⟩
        | overrun => exact absurd hlay hover
    | ok n =>
        obtain ⟨hne, hfields⟩ := hrows n hlay
        obtain ⟨hok, rfl, hle⟩ := recordEncode_ok host hbuf hend (four_lt_of_rows hne hlay) hlay
        refine ⟨.ok, _, _, hok, fun _ => ⟨Int.ofNat_le.mpr hle, rec.sent, ?_⟩⟩
        exact (recordDecode_encoded host hbuf hle hne hfields).2

end

/-- A record of a row with two fields and a row with one. -/
def twoRows : CBinMsgRecord :=
  (CBinMsgRecord.init.addRow
    ((CBinMsgRow.init.addField ⟨[97], [98]⟩).addField ⟨[99], [100, 101]⟩)).addRow
      (CBinMsgRow.init.addField ⟨[102], []⟩)

/-- The record of two rows is encoded into a buffer that is longer than it. -/
theorem encoded_decodable_twoRows : EncodedDecodable .little (List.replicate 60 0) twoRows := by
  have hlay : layoutRecord 60 twoRows = .ok 54 := by decide +kernel
  have hlen : twoRows.rows.length = 2 := by decide +kernel
  have hall : twoRows.rows.all (fun row => row.fields ≠ []) := by decide +kernel
  refine (encoded_decodable_iff .little (by decide)).mpr ⟨?_, fun _ _ => ⟨fun hnil => ?_, ?_⟩⟩
  · rw [List.length_replicate, hlay]
    exact fun h => by cases h
  · rw [hnil] at hlen
    cases hlen
  · exact fun row hrow => of_decide_eq_true (List.all_eq_true.mp hall row hrow)

/-- The record without rows is encoded into four bytes, which are not decoded. -/
theorem encoded_not_decodable_empty : ¬ EncodedDecodable .little (List.replicate 4 0) .init := by
  intro h
  exact (rows_of_encodedDecodable .little (by decide) h rfl).1 rfl

/-! ## the records that are sent -/

/-- The size of a field. -/
def fieldSize (f : CBinMsgField) : Nat := f.m_strName.length + 4 + f.m_strValue.length + 4

/-- The size of some parts with the lengths in front of them. -/
def partsSize (size : α → Nat) (parts : List α) : Nat := (parts.map fun x => 4 + size x).sum

def rowSize (row : CBinMsgRow) : Nat := partsSize fieldSize row.m_vecField

/-- The exact size of a record. -/
def recordSize (rec : CBinMsgRecord) : Nat := 4 + partsSize rowSize rec.m_vecRow

section

variable {size : α → Nat} {layout : Nat → α → Except Obstacle Nat}

theorem partsSize_cons (size : α → Nat) (x : α) (xs : List α) :
    partsSize size (x :: xs) = 4 + size x + partsSize size xs := rfl

theorem size_le_partsSize (size : α → Nat) {xs : List α} (hx : x ∈ xs) :
    4 + size x ≤ partsSize size xs := by
  induction xs with
  | nil => cases hx
  | cons y ys ih =>
      rw [partsSize_cons]
      rcases List.mem_cons.mp hx with rfl | hx
      · omega
      · have := ih hx
        omega

theorem length_le_partsSize (size : α → Nat) (xs : List α) : xs.length ≤ partsSize size xs := by
  induction xs with
  | nil => exact Nat.zero_le _
  | cons x xs ih =>
      rw [partsSize_cons, List.length_cons]
      omega

/-- A layout that only asks whether the part fits. -/
def FitsBySize (layout : Nat → α → Except Obstacle Nat) (size : α → Nat) (x : α) : Prop :=
  ∀ room, layout room x = if size x ≤ room then .ok (size x) else .error .noRoom

/-- Parts are laid out one behind the other when the sum of their sizes fits. -/
theorem layoutParts_eq (xs : List α) (hlay : ∀ x ∈ xs, FitsBySize layout size x)
    (hpos : ∀ x ∈ xs, 0 < size x) (hlen : xs = [] → len ≤ room) :
    layoutParts layout room xs len =
      if len + partsSize size xs ≤ room then .ok (len + partsSize size xs) else .error .noRoom := by
  induction xs generalizing len with
  | nil =>
      rw [layoutParts, partsSize, List.map_nil, List.sum_nil, Nat.add_zero, if_pos (hlen rfl)]
  | cons x xs ih =>
      have hx := hpos x List.mem_cons_self
      rw [partsSize_cons]
      by_cases hfull : room ≤ len + 4
      · rw [layoutParts, if_pos hfull, if_neg (by omega)]
      · rw [layoutParts_cons x xs hfull, hlay x List.mem_cons_self]
        by_cases hfit : size x ≤ room - len - 4
        · rw [if_pos hfit, ok_bind, ih (fun y hy => hlay y (List.mem_cons_of_mem _ hy))
            (fun y hy => hpos y (List.mem_cons_of_mem _ hy)) (fun _ => by omega)]
          rw [Nat.add_assoc len, Nat.add_assoc len]
        · rw [if_neg hfit, error_bind, if_neg (by omega)]

/-- The size of parts is summed without an overflow when the sum is an `int`. -/
theorem sizeParts_eq {getSize : α → Int} (start : Nat) (xs : List α)
    (hsize : ∀ x ∈ xs, getSize x = size x)
    (h : start + partsSize size xs < 2 ^ 31) :
    sizeParts getSize start xs = (start + partsSize size xs : Nat) := by
  induction xs generalizing start with
  | nil => rfl
  | cons x xs ih =>
      rw [partsSize_cons] at h ⊢
      have hstep : i32 ((start : Nat) + (getSize x + 4)) = (start + (4 + size x) : Nat) := by
        rw [hsize x List.mem_cons_self, i32_eq_self ⟨by omega, by omega⟩]
        omega
      have hrest := ih (start + (4 + size x))
        (fun y hy => hsize y (List.mem_cons_of_mem _ hy)) (by omega)
      rw [sizeParts, List.foldl_cons, hstep]
      rw [sizeParts] at hrest
      rw [hrest, Nat.add_assoc]

end

theorem take_i32_length {xs : List α} (h : xs.length < 2 ^ 31) :
    xs.take (i32 xs.length).toNat = xs := by
  rw [i32_eq_self ⟨by omega, by omega⟩, Int.toNat_natCast, List.take_length]

/-- The counter of a row that is small enough is the number of its fields. -/
theorem CBinMsgRow.fields_eq (row : CBinMsgRow) (h : rowSize row < 2 ^ 31) :
    row.fields = row.m_vecField := by
  have hlen := length_le_partsSize fieldSize row.m_vecField
  rw [rowSize] at h
  rw [CBinMsgRow.fields, row.fieldNum_eq, take_i32_length (by omega)]

/-- The counter of a record that is small enough is the number of its rows. -/
theorem CBinMsgRecord.rows_eq (rec : CBinMsgRecord) (h : recordSize rec < 2 ^ 31) :
    rec.rows = rec.m_vecRow := by
  have hlen := length_le_partsSize rowSize rec.m_vecRow
  rw [recordSize] at h
  rw [CBinMsgRecord.rows, rec.rowNum_eq, take_i32_length (by omega)]

/-! ### sizes and layouts -/

/-- Whether a field fits is a matter of its size. -/
theorem field_fitsBySize (f : CBinMsgField) (h : fieldSize f < 2 ^ 31) :
    FitsBySize layoutField fieldSize f := by
  intro room
  rw [fieldSize] at h ⊢
  have hname : i32 f.m_strName.length = f.m_strName.length := i32_eq_self ⟨by omega, by omega⟩
  have hvalue : i32 f.m_strValue.length = f.m_strValue.length := i32_eq_self ⟨by omega, by omega⟩
  unfold layoutField layoutString
  rw [hname, hvalue, Int.toNat_natCast, Int.toNat_natCast, if_neg (by omega), if_neg (by omega)]
  by_cases hfit : room < 0 + 4 + f.m_strName.length
  · rw [if_pos hfit, error_bind, if_neg (by omega)]
  · rw [if_neg hfit, ok_bind, if_neg (by omega), if_neg (by omega)]
    by_cases hfit' : room < 0 + 4 + f.m_strName.length + 4 + f.m_strValue.length
    · rw [if_pos hfit', if_neg (by omega)]
    · rw [if_neg hfit', if_pos (by omega)]
      congr 1
      omega

/-- Whether a row fits is a matter of its size. -/
theorem row_fitsBySize (row : CBinMsgRow) (h : rowSize row < 2 ^ 31) :
    FitsBySize layoutRow rowSize row := by
  intro room
  rw [layoutRow, row.fields_eq h, rowSize, layoutParts_eq row.m_vecField, Nat.zero_add]
  · intro f hf
    have := size_le_partsSize fieldSize hf
    rw [rowSize] at h
    exact field_fitsBySize f (by omega)
  · intro f _
    rw [fieldSize]
    omega
  · omega

theorem rowSize_lt (h : recordSize rec < 2 ^ 31) (hrow : row ∈ rec.m_vecRow) :
    rowSize row < 2 ^ 31 := by
  have := size_le_partsSize rowSize hrow
  rw [recordSize] at h
  omega

theorem rowSize_pos (row : CBinMsgRow) (h : row.m_vecField ≠ []) : 0 < rowSize row := by
  have hlen := length_le_partsSize fieldSize row.m_vecField
  have hpos := List.length_pos_iff.mpr h
  rw [rowSize]
  omega

/-- Whether a record fits is a question of its size. -/
theorem layoutRecord_eq (rec : CBinMsgRecord) (h : recordSize rec < 2 ^ 31)
    (hne : rec.m_vecRow ≠ []) (hrows : ∀ row ∈ rec.m_vecRow, row.m_vecField ≠ []) (room : Nat) :
    layoutRecord room rec =
      if recordSize rec ≤ room then .ok (recordSize rec) else .error .noRoom := by
  rw [layoutRecord, rec.rows_eq h, recordSize, layoutParts_eq rec.m_vecRow]
  · intro row hrow
    exact row_fitsBySize row (rowSize_lt h hrow)
  · intro row hrow
    exact rowSize_pos row (hrows row hrow)
  · exact fun hnil => absurd hnil hne

/-- `GetSize` is the size. -/
theorem CBinMsgRecord.getSize_eq (rec : CBinMsgRecord) (h : recordSize rec < 2 ^ 31) :
    rec.getSize = recordSize rec := by
  have hfield : ∀ f : CBinMsgField, fieldSize f < 2 ^ 31 → f.getSize = fieldSize f := by
    intro f hf
    rw [fieldSize] at hf
    rw [CBinMsgField.getSize, i32_eq_self ⟨by omega, by omega⟩]
    rfl
  have hrow : ∀ row ∈ rec.m_vecRow, row.getSize = rowSize row := by
    intro row hrow
    have hlt := rowSize_lt h hrow
    have hsum := sizeParts_eq 0 row.m_vecField (fun f hf => hfield f (by
      have := size_le_partsSize fieldSize hf
      rw [rowSize] at hlt
      omega)) (by rwa [Nat.zero_add])
    rw [Nat.zero_add] at hsum
    rw [CBinMsgRow.getSize, row.fields_eq hlt]
    exact hsum
  rw [CBinMsgRecord.getSize, rec.rows_eq h]
  exact sizeParts_eq 4 rec.m_vecRow hrow h

/-! ### what is read back is the record -/

theorem cut_eq_self (h : s.length < 2 ^ 31) : cut s = s := take_i32_length h

/-- A row is its fields: the counter follows from them. -/
theorem CBinMsgRow.ext_fields {row row' : CBinMsgRow} (h : row.m_vecField = row'.m_vecField) :
    row = row' := by
  obtain ⟨fs, n, hn⟩ := row
  obtain ⟨fs', n', hn'⟩ := row'
  subst h
  subst hn
  subst hn'
  rfl

/-- A record is its rows: the counter follows from them. -/
theorem CBinMsgRecord.ext_rows {rec rec' : CBinMsgRecord} (h : rec.m_vecRow = rec'.m_vecRow) :
    rec = rec' := by
  obtain ⟨rows, n, hn⟩ := rec
  obtain ⟨rows', n', hn'⟩ := rec'
  subst h
  subst hn
  subst hn'
  rfl

theorem foldl_addField (fs : List CBinMsgField) (row : CBinMsgRow) :
    (fs.foldl .addField row).m_vecField = row.m_vecField ++ fs := by
  induction fs generalizing row with
  | nil => rw [List.foldl_nil, List.append_nil]
  | cons f fs ih => rw [List.foldl_cons, ih, CBinMsgRow.addField, List.append_assoc]; rfl

theorem foldl_addRow (rows : List CBinMsgRow) (rec : CBinMsgRecord) :
    (rows.foldl .addRow rec).m_vecRow = rec.m_vecRow ++ rows := by
  induction rows generalizing rec with
  | nil => rw [List.foldl_nil, List.append_nil]
  | cons row rows ih => rw [List.foldl_cons, ih, CBinMsgRecord.addRow, List.append_assoc]; rfl

/-- A small row is sent as it is. -/
theorem CBinMsgRow.sent_eq (row : CBinMsgRow) (h : rowSize row < 2 ^ 31) : row.sent = row := by
  have hfields : row.m_vecField.map CBinMsgField.sent = row.m_vecField.map id := by
    apply List.map_congr_left
    intro f hf
    have := size_le_partsSize fieldSize hf
    rw [rowSize] at h
    rw [fieldSize] at this
    rw [CBinMsgField.sent, cut_eq_self (by omega), cut_eq_self (by omega), id]
  apply CBinMsgRow.ext_fields
  rw [CBinMsgRow.sent, foldl_addField, row.fields_eq h, hfields, List.map_id]
  rfl

/-- A small record is sent as it is. -/
theorem CBinMsgRecord.sent_eq (rec : CBinMsgRecord) (h : recordSize rec < 2 ^ 31) :
    rec.sent = rec := by
  have hrows : rec.m_vecRow.map CBinMsgRow.sent = rec.m_vecRow.map id := by
    apply List.map_congr_left
    intro row hrow
    exact row.sent_eq (rowSize_lt h hrow)
  apply CBinMsgRecord.ext_rows
  rw [CBinMsgRecord.sent, foldl_addRow, rec.rows_eq h, hrows, List.map_id]
  rfl

/-- **Round trip**: a record with a row, and with a field in every row, is
encoded exactly when it fits, into exactly its size, and the encoded bytes are
decoded to the same record.  The memory of the encoder is its buffer, so that
nothing is ever written behind it. -/
theorem binMsg_roundtrip (host : Endian) (rec : CBinMsgRecord) (hne : rec.m_vecRow ≠ [])
    (hrows : ∀ row ∈ rec.m_vecRow, row.m_vecField ≠ []) (hsize : recordSize rec < 2 ^ 31)
    (buf : List UInt8) (hbuf : buf.length < 2 ^ 31) :
    rec.getSize = recordSize rec ∧
      ∃ ret len mem', recordEncode host buf (some 0) buf.length rec = .ok (ret, len, mem') ∧
        mem'.length = buf.length ∧
        (ret = .ok ↔ rec.getSize ≤ buf.length) ∧
        (ret = .ok → len = rec.getSize ∧
          mem'.drop (recordSize rec) = buf.drop (recordSize rec) ∧
          (recordDecode host mem' (some 0) len .init).result = .ok (.ok, rec)) ∧
        (ret ≠ .ok → len = 0) := by
  have hget := rec.getSize_eq hsize
  have hend : 0 + buf.length = buf.length := Nat.zero_add _
  have hlay := layoutRecord_eq rec hsize hne hrows buf.length
  refine ⟨hget, ?_⟩
  rw [hget]
  by_cases hfit : recordSize rec ≤ buf.length
  · rw [if_pos hfit] at hlay
    have h4 : 4 ≤ buf.length := by
      rw [recordSize] at hfit
      omega
    obtain ⟨henc, hlen, -⟩ := recordEncode_ok host hbuf hend h4 hlay
    have hdec := recordDecode_encoded host hbuf (by omega : (recordBytes rec).length ≤ buf.length)
      (by rwa [rec.rows_eq hsize]) (fun row hrow => by
        rw [rec.rows_eq hsize] at hrow
        rw [row.fields_eq (rowSize_lt hsize hrow)]
        exact hrows row hrow)
    rw [rec.sent_eq hsize, hlen] at hdec
    refine ⟨.ok, recordSize rec, _, henc, length_splice (by omega), by simpa using hfit,
      fun _ => ⟨rfl, ?_, hdec.2⟩, fun h => absurd rfl h⟩
    have hdrop : (splice buf 0 (recordBytes rec)).drop (0 + (recordBytes rec).length) =
        buf.drop (0 + (recordBytes rec).length) := drop_splice (Nat.zero_le _)
    rwa [hlen, Nat.zero_add] at hdrop
  · rw [if_neg hfit] at hlay
    obtain ⟨mem', henc, hmem⟩ := recordEncode_noRoom host hbuf hend hlay
    have hret : BinRet.noEnough ≠ .ok := by decide
    refine ⟨.noEnough, 0, mem', henc, hmem, ⟨fun h => absurd h hret, fun h => ?_⟩,
      fun h => absurd h hret, fun _ => rfl⟩
    omega

/-- The record of two rows comes back, and the bytes behind it stay as they were. -/
theorem binMsg_roundtrip_twoRows :
    ∃ mem', recordEncode .little (List.replicate 60 7) (some 0) 60 twoRows = .ok (.ok, 54, mem') ∧
      mem'.drop 54 = List.replicate 6 7 ∧
      (recordDecode .little mem' (some 0) 54 .init).result = .ok (.ok, twoRows) := by
  have hne : twoRows.m_vecRow ≠ [] := List.cons_ne_nil _ _
  have hrows : ∀ row ∈ twoRows.m_vecRow, row.m_vecField ≠ [] := by
    have hall : twoRows.m_vecRow.all (fun row => row.m_vecField ≠ []) := by decide
    exact fun row hrow => of_decide_eq_true (List.all_eq_true.mp hall row hrow)
  obtain ⟨hget, ret, len, mem', henc, -, hret, hok, -⟩ :=
    binMsg_roundtrip .little twoRows hne hrows (by decide) (List.replicate 60 7) (by decide)
  obtain rfl := hret.mpr (by rw [hget]; decide)
  obtain ⟨hlen, hbehind, hdec⟩ := hok rfl
  obtain rfl : len = 54 := by
    rw [hlen, hget]
    rfl
  exact ⟨mem', henc, hbehind, hdec⟩

end MySrc
