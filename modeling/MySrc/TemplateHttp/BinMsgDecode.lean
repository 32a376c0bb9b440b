import MySrc.TemplateHttp.BinMsgEncode

/-!
# MySrc.TemplateHttp.BinMsgDecode

What the decoders of `cbinmsg.cpp` do with any bytes whatsoever.

`splitChunk` takes a length word and the bytes it announces off the front of
some bytes, and never more than there are.  `GetString` does the same, unless
the length word is *hostile*: added to the cursor it overflows an `int`, the
bounds test passes, and the span it returns leaves the buffer.

`MeetsHostile` says that a decoder meets a hostile word, and the lemmas on `Decodes`
that this is the only way out of the buffer.
-/

namespace MySrc

open Lib

/-! ## chunks -/

/-- A chunk off the front of some bytes, and the bytes behind it. -/
def splitChunk (r : List UInt8) : Option (List UInt8 × List UInt8) :=
  if 4 ≤ r.length ∧ 0 ≤ wordAt r 0 ∧ 4 + (wordAt r 0).toNat ≤ r.length then
    some ((r.drop 4).take (wordAt r 0).toNat, r.drop (4 + (wordAt r 0).toNat))
  else none

/-- The length word in front of the bytes `r`, `cur` bytes into a buffer,
overflows the bounds test of `GetString`. -/
def HostileWord (cur : Nat) (r : List UInt8) : Prop :=
  2 ^ 31 ≤ cur + 4 ∨ (4 ≤ r.length ∧ 0 ≤ wordAt r 0 ∧ 2 ^ 31 ≤ cur + 4 + wordAt r 0)

instance (cur : Nat) (r : List UInt8) : Decidable (HostileWord cur r) :=
  inferInstanceAs (Decidable (_ ∨ _))

/-- Bytes that are chunks of some values, one behind the other. -/
inductive PartsOf (accepts : List UInt8 → α → Prop) : List UInt8 → List α → Prop
  | done : splitChunk r = none → PartsOf accepts r []
  | next : splitChunk r = some (c, rest) → accepts c x → PartsOf accepts rest xs →
      PartsOf accepts r (x :: xs)

/-- From the bytes `r`, `cur` bytes into its buffer, a loop over chunks meets a
hostile word: in front of a chunk, or inside one, in which case `bad` holds of
it.  The loop goes on behind chunks that it accepts. -/
inductive MeetsHostile (bad accepts : List UInt8 → Prop) : Nat → List UInt8 → Prop
  | word : HostileWord cur r → MeetsHostile bad accepts cur r
  | inner : splitChunk r = some (c, rest) → bad c → MeetsHostile bad accepts cur r
  | next : splitChunk r = some (c, rest) → accepts c →
      MeetsHostile bad accepts (cur + (4 + c.length)) rest → MeetsHostile bad accepts cur r

/-- The bytes of a buffer. -/
def window (mem : List UInt8) (base room : Nat) : List UInt8 := (mem.drop base).take room

section

variable {mem : List UInt8} {base room : Nat}

theorem length_window (h : base + room ≤ mem.length) : (window mem base room).length = room := by
  rw [window, List.length_take, List.length_drop]
  omega

theorem window_drop (cur : Nat) :
    (window mem base room).drop cur = window mem (base + cur) (room - cur) := by
  rw [window, List.drop_take, List.drop_drop, window]

theorem window_take (h : n ≤ room) : (window mem base room).take n = window mem base n := by
  rw [window, List.take_take, Nat.min_eq_left h, window]

theorem wordAt_window (h : 4 ≤ room) : wordAt (window mem base room) 0 = wordAt mem base := by
  rw [wordAt, wordAt, List.drop_zero, window_take h, window]

/-- What is split off is as long as its word says, and there. -/
theorem splitChunk_eq_some {r c rest : List UInt8} (h : splitChunk r = some (c, rest)) :
    4 + c.length ≤ r.length ∧ wordAt r 0 = c.length ∧ c = (r.drop 4).take c.length ∧
      rest = r.drop (4 + c.length) := by
  unfold splitChunk at h
  split at h
  · next hc =>
      obtain ⟨rfl, rfl⟩ := Prod.mk.inj (Option.some.inj h)
      have hlen : ((r.drop 4).take (wordAt r 0).toNat).length = (wordAt r 0).toNat := by
        rw [List.length_take, List.length_drop]
        omega
      rw [hlen]
      exact ⟨hc.2.2, by omega, rfl, rfl⟩
  · cases h

/-- A chunk in a buffer lies in the memory behind its length word. -/
theorem splitChunk_window (hin : base + room ≤ mem.length)
    (h : splitChunk (window mem base room) = some (c, rest)) :
    4 + c.length ≤ room ∧ wordAt mem base = c.length ∧ c = window mem (base + 4) c.length ∧
      rest = window mem (base + (4 + c.length)) (room - (4 + c.length)) := by
  obtain ⟨hle, hword, hc, hrest⟩ := splitChunk_eq_some h
  rw [length_window hin] at hle
  rw [wordAt_window (by omega)] at hword
  refine ⟨hle, hword, ?_, ?_⟩
  · rwa [window_drop, window_take (by omega)] at hc
  · rwa [window_drop] at hrest

end

/-! ## one span -/

section

variable {mem : List UInt8} {b : CBufferManage} {base cur room : Nat}

/-- A buffer that a decoder reads: it lies in the memory, and if the bounds
tests could overflow at its very end, the memory ends there. -/
structure Readable (mem : List UInt8) (base room : Nat) : Prop where
  lt : room < 2 ^ 31
  inside : base + room ≤ mem.length
  last : room + 4 < 2 ^ 31 ∨ base + room = mem.length

/-- A buffer that is attached to readable bytes can be moved to every place in them. -/
theorem Readable.cursor (hr : Readable mem base room) (h : cur ≤ room) :
    Cursor mem ((attached base room).seek cur) base cur :=
  (cursor_attached hr.lt hr.inside).seek (Int.ofNat_le.mpr h)

/-- `GetString` in terms of the cursor. -/
theorem getStringPtr_attached (host : Endian) (p : Option Int) (l : Int) :
    getStringPtr host mem ((attached base room).seek cur) p l = (do
      if i32 ((cur : Nat) + 4) > (room : Nat) then
        return (.overflow, (attached base room).seek cur, p, l)
      let iLength ← loadInt host mem (some (base : Int)) (cur : Nat)
      if i32 (i32 ((cur : Nat) + iLength) + 4) > (room : Nat) ∨ iLength < 0 then
        return (.overflow, (attached base room).seek cur, p, 0)
      return (.ok, ⟨some (base : Int), room, i32 (i32 ((cur : Nat) + 4) + iLength)⟩,
        some (base + i32 ((cur : Nat) + 4)), iLength)) := rfl

/-- A word inside the window is loaded. -/
theorem loadInt_attached (host : Endian) (hr : Readable mem base room) (hcur : cur + 4 ≤ room) :
    loadInt host mem (some (base : Int)) (cur : Nat) = .ok (wordAt mem (base + cur)) :=
  (hr.cursor (by omega : cur ≤ room)).loadInt_eq host
    (show ((cur : Nat) : Int) + 4 ≤ (room : Nat) by omega)

/-- A hostile word leads out of the buffer. -/
theorem getSpan_hostile (host : Endian) (hr : Readable mem base room) (hcur : cur ≤ room)
    (h : HostileWord cur (window mem (base + cur) (room - cur))) (p : Option Int) (l : Int) :
    ¬ (getSpan host mem ((attached base room).seek cur) p l).Clean Span.Inside := by
  have hlt := hr.lt
  have hin := hr.inside
  have hlen : (window mem (base + cur) (room - cur)).length = room - cur :=
    length_window (by omega)
  rintro ⟨a, hlog, hok⟩
  rcases h with hbig | ⟨h4, hpos, hover⟩
  · -- the cursor is so close to the end that the first test overflows
    have hend := hr.last.resolve_left (by omega)
    have htest : i32 (((cur : Nat) : Int) + 4) = cur + 4 - 2 ^ 32 :=
      i32_of_overflow (by omega) (by omega)
    have hptr : pointerAt (some (base : Int)) ((cur : Nat) : Int) = .ok (base + cur) := rfl
    have hload : loadInt host mem (some (base : Int)) (cur : Nat) = .error .outOfBounds := by
      rw [loadInt, hptr, ok_bind, memcpyFrom, if_neg (by omega)]
      rfl
    rw [getSpan, getStringPtr_attached, if_neg (by omega), hload, error_bind] at hok
    cases hok
  · -- the second test overflows, and the span is returned
    rw [hlen] at h4
    rw [wordAt_window h4] at hpos hover
    have hmax := (isI32_i32 (ofNetBytes ((mem.drop (base + cur)).take 4))).2
    have hword : wordAt mem (base + cur) < 2 ^ 31 := hmax
    have htest4 : i32 (((cur : Nat) : Int) + 4) = (cur + 4 : Nat) :=
      i32_eq_self ⟨by omega, by omega⟩
    have htest : i32 (i32 ((cur : Nat) + wordAt mem (base + cur)) + 4) =
        cur + 4 + wordAt mem (base + cur) - 2 ^ 32 := by
      rw [i32_i32_add, i32_of_overflow (by omega) (by omega)]
      omega
    rw [getSpan, getStringPtr_attached, htest4, if_neg (by omega),
      loadInt_attached host hr (by omega), ok_bind, htest, if_neg (by omega)] at hlog
    have hspan := hlog _ (List.mem_singleton.mpr rfl)
    simp only [Span.Inside, attached, CBufferManage.seek] at hspan
    omega

/-- Where there is no chunk, `GetString` fails and changes nothing. -/
theorem getSpan_none (host : Endian) (hr : Readable mem base room) (hcur : cur ≤ room)
    (hsafe : ¬ HostileWord cur (window mem (base + cur) (room - cur)))
    (h : splitChunk (window mem (base + cur) (room - cur)) = none) (p : Option Int) (l : Int) :
    ∃ l', getSpan host mem ((attached base room).seek cur) p l =
      .lift (.ok (.overflow, (attached base room).seek cur, p, l')) := by
  have hlt := hr.lt
  have hin := hr.inside
  have hlen : (window mem (base + cur) (room - cur)).length = room - cur :=
    length_window (by omega)
  obtain ⟨hsmall, hword⟩ := not_or.mp hsafe
  rw [hlen] at hword
  have htest4 : i32 (((cur : Nat) : Int) + 4) = (cur + 4 : Nat) := i32_eq_self ⟨by omega, by omega⟩
  by_cases h4 : cur + 4 ≤ room
  · -- the length word is there, and announces too much
    rw [wordAt_window (by omega)] at hword
    unfold splitChunk at h
    rw [hlen, wordAt_window (by omega), ite_eq_right_iff] at h
    have htest : i32 (i32 ((cur : Nat) + wordAt mem (base + cur)) + 4) > (room : Nat) ∨
        wordAt mem (base + cur) < 0 := by
      by_contra hnot
      obtain ⟨hle, hpos⟩ := not_or.mp hnot
      rw [i32_i32_add, i32_eq_self ⟨by omega, by omega⟩] at hle
      cases h (by omega)
    refine ⟨0, ?_⟩
    rw [getSpan, getStringPtr_attached, htest4, if_neg (by omega),
      loadInt_attached host hr h4, ok_bind, if_pos htest]
    rfl
  · refine ⟨l, ?_⟩
    rw [getSpan, getStringPtr_attached, htest4, if_pos (by omega)]
    rfl

/-- `GetString` returns the span of the next chunk. -/
theorem getSpan_some (host : Endian) (hr : Readable mem base room) (hcur : cur ≤ room)
    (h : splitChunk (window mem (base + cur) (room - cur)) = some (c, rest)) (p : Option Int)
    (l : Int) :
    (getSpan host mem ((attached base room).seek cur) p l).Returns Span.Inside
      (.ok, (attached base room).seek (cur + (4 + c.length)),
        some ((base + (cur + 4) : Nat) : Int), c.length) := by
  have hin := hr.inside
  obtain ⟨hle, hword, -, -⟩ := splitChunk_window (by omega) h
  have hptr := (hr.cursor hcur).getStringPtr_eq host
    (show ((cur : Nat) : Int) + (4 + c.length : Nat) ≤ (room : Nat) by omega) hword p l
  have hspan : getSpan host mem ((attached base room).seek cur) p l =
      ⟨[⟨some (base : Int), room, some ((base + (cur + 4) : Nat) : Int), c.length⟩],
        .ok (.ok, (attached base room).seek (cur + (4 + c.length)),
          some ((base + (cur + 4) : Nat) : Int), c.length)⟩ := by
    rw [getSpan, hptr]
    rfl
  rw [hspan]
  refine ⟨fun s hs => ?_, rfl⟩
  rw [List.mem_singleton.mp hs]
  simp only [Span.Inside]
  omega

/-- The string of a chunk. -/
theorem stringAt_chunk (hr : Readable mem base room) (hcur : cur ≤ room)
    (h : splitChunk (window mem (base + cur) (room - cur)) = some (c, rest)) :
    stringAt mem (some ((base + (cur + 4) : Nat) : Int)) c.length = .ok c := by
  have hin := hr.inside
  obtain ⟨hle, -, hc, -⟩ := splitChunk_window (by omega) h
  have c' := hr.cursor (show cur + 4 ≤ room by omega)
  apply c'.stringAt_eq
  rw [Nat.add_assoc, window] at hc
  exact List.prefix_iff_eq_take.mpr hc

/-- The buffer behind a chunk. -/
theorem behind_chunk (hr : Readable mem base room) (hcur : cur ≤ room)
    (h : splitChunk (window mem (base + cur) (room - cur)) = some (c, rest)) :
    cur + (4 + c.length) ≤ room ∧
      rest = window mem (base + (cur + (4 + c.length))) (room - (cur + (4 + c.length))) := by
  have hin := hr.inside
  obtain ⟨hle, -, -, hrest⟩ := splitChunk_window (by omega) h
  refine ⟨by omega, ?_⟩
  rw [hrest, Nat.add_assoc, Nat.sub_sub]

/-- The buffer that a chunk is. -/
theorem chunk_readable (hr : Readable mem base room) (hcur : cur ≤ room)
    (h : splitChunk (window mem (base + cur) (room - cur)) = some (c, rest)) :
    Readable mem (base + (cur + 4)) c.length ∧ c = window mem (base + (cur + 4)) c.length := by
  have hlt := hr.lt
  have hin := hr.inside
  obtain ⟨hle, -, hc, -⟩ := splitChunk_window (by omega) h
  rw [Nat.add_assoc] at hc
  exact ⟨⟨by omega, by omega, .inl (by omega)⟩, hc⟩

end

/-! ## one level -/

/-- A decoder leaves the buffer exactly on bad bytes; on all others it returns,
with the value that the bytes stand for or with an error. -/
structure Decodes (mem : List UInt8) (decode : Option Int → Int → Logged Span (BinRet × α))
    (bad : List UInt8 → Prop) (accepts : List UInt8 → α → Prop) : Prop where
  leaves : ∀ {base room}, Readable mem base room → bad (window mem base room) →
    ¬ (decode (some (base : Nat)) (room : Nat)).Clean Span.Inside
  ok : ∀ {base room x}, Readable mem base room → ¬ bad (window mem base room) →
    accepts (window mem base room) x →
    (decode (some (base : Nat)) (room : Nat)).Returns Span.Inside (.ok, x)
  fails : ∀ {base room}, Readable mem base room → ¬ bad (window mem base room) →
    (∀ x, ¬ accepts (window mem base room) x) →
    ∃ ret x, ret ≠ .ok ∧ (decode (some (base : Nat)) (room : Nat)).Returns Span.Inside (ret, x)

/-- A field meets a hostile word in front of its name or of its value. -/
def FieldBad (bs : List UInt8) : Prop :=
  HostileWord 0 bs ∨ ∃ c rest, splitChunk bs = some (c, rest) ∧ HostileWord (4 + c.length) rest

/-- The bytes of a field are its name, its value, and anything. -/
def FieldAccepts (bs : List UInt8) (f : CBinMsgField) : Prop :=
  ∃ rest rest', splitChunk bs = some (f.m_strName, rest) ∧
    splitChunk rest = some (f.m_strValue, rest')

section

variable {mem : List UInt8} (host : Endian)

/-- `CBinMsgField::Decode` behind the second `GetString`. -/
def fieldValueStep (mem : List UInt8) (f : CBinMsgField) :
    BufRet × CBufferManage × Option Int × Int → Logged Span (BinRet × CBinMsgField)
  | (iRet, _, szBufferRow, iFieldLength) =>
      if iRet ≠ .ok then pure (.fieldDecode, f)
      else do
        let value ← .lift (stringAt mem szBufferRow iFieldLength)
        return (.ok, { f with m_strValue := value })

/-- `CBinMsgField::Decode` behind the first `GetString`. -/
def fieldNameStep (mem : List UInt8) (f : CBinMsgField) :
    BufRet × CBufferManage × Option Int × Int → Logged Span (BinRet × CBinMsgField)
  | (iRet, clsBuffer, szBufferRow, iFieldLength) =>
      if iRet ≠ .ok then pure (.fieldDecode, f)
      else do
        let name ← .lift (stringAt mem szBufferRow iFieldLength)
        getSpan host mem clsBuffer szBufferRow iFieldLength >>=
          fieldValueStep mem { f with m_strName := name }

/-- `Decode` of a field reads the name, then goes on with the value. -/
theorem fieldDecode_eq (base : Nat) (h : 0 < room) (f : CBinMsgField) :
    fieldDecode host mem (some (base : Int)) (room : Nat) f =
      getSpan host mem ((attached base room).seek 0) none 0 >>= fieldNameStep host mem f := by
  have hparam : ¬ ((some (base : Int) : Option Int) = none ∨ ((room : Nat) : Int) ≤ 0) := by
    rintro (h' | h')
    · cases h'
    · omega
  unfold fieldDecode
  rw [if_neg hparam, attachBuffer_eq .init base h]
  rfl

theorem window_zero (mem : List UInt8) (base : Nat) : window mem base 0 = [] := List.take_zero

theorem not_hostileWord_nil : ¬ HostileWord 0 [] := by decide

section

variable {base room : Nat} (hr : Readable mem base room)
  (hname : splitChunk (window mem base room) = some (name, rest))

include hr hname

/-- What lies behind the name of a field. -/
theorem behind_name : 4 + name.length ≤ room ∧
    rest = window mem (base + (4 + name.length)) (room - (4 + name.length)) := by
  have hbehind := behind_chunk hr (Nat.zero_le room) hname
  rwa [Nat.zero_add] at hbehind

/-- The name is read where the first chunk says. -/
theorem getSpan_name : (getSpan host mem ((attached base room).seek 0) none 0).Returns Span.Inside
    (.ok, (attached base room).seek (4 + name.length), some ((base + 4 : Nat) : Int),
      name.length) := by
  have hspan := getSpan_some host hr (Nat.zero_le room) hname none 0
  rwa [Nat.zero_add, Nat.zero_add] at hspan

theorem stringAt_name : stringAt mem (some ((base + 4 : Nat) : Int)) name.length = .ok name := by
  have hstr := stringAt_chunk hr (Nat.zero_le room) hname
  rwa [Nat.zero_add] at hstr

/-- The decoder with the name read and the cursor in front of the value. -/
theorem fieldNameStep_returns (f : CBinMsgField) {y : BinRet × CBinMsgField}
    (h : (getSpan host mem ((attached base room).seek (4 + name.length))
      (some ((base + 4 : Nat) : Int)) name.length >>=
        fieldValueStep mem { f with m_strName := name }).Returns Span.Inside y) :
    (getSpan host mem ((attached base room).seek 0) none 0 >>=
      fieldNameStep host mem f).Returns Span.Inside y := by
  refine (getSpan_name host hr hname).bind ?_
  rw [fieldNameStep, if_neg (by decide)]
  exact (Logged.returns_lift (stringAt_name hr hname)).bind h

/-- When a field is decoded inside the window, so is its value. -/
theorem fieldNameStep_clean (f : CBinMsgField)
    (h : (getSpan host mem ((attached base room).seek 0) none 0 >>=
      fieldNameStep host mem f).Clean Span.Inside) :
    (getSpan host mem ((attached base room).seek (4 + name.length))
      (some ((base + 4 : Nat) : Int)) name.length).Clean Span.Inside := by
  have hstep := h.right (getSpan_name host hr hname)
  rw [fieldNameStep, if_neg (by decide)] at hstep
  exact (hstep.right (Logged.returns_lift (stringAt_name hr hname))).left

end

/-- **Decoding a field** stays inside, accepts and refuses as the bytes say. -/
theorem fieldDecode_decodes (f : CBinMsgField) :
    Decodes mem (fun p n => fieldDecode host mem p n f) FieldBad FieldAccepts where
  leaves := by
    intro base room hr hbad hclean
    rcases Nat.eq_zero_or_pos room with rfl | hpos
    · rw [window_zero] at hbad
      rcases hbad with hword | ⟨c, rest, hc, -⟩
      · exact not_hostileWord_nil hword
      · cases hc
    · rw [fieldDecode_eq host base hpos] at hclean
      rcases hbad with hword | ⟨c, rest, hc, hword⟩
      · exact getSpan_hostile host hr (Nat.zero_le _) hword none 0 hclean.left
      · obtain ⟨hle, rfl⟩ := behind_name hr hc
        exact getSpan_hostile host hr hle hword _ _ (fieldNameStep_clean host hr hc f hclean)
  ok := by
    intro base room x hr hsafe hacc
    obtain ⟨rest, rest', hname, hvalue⟩ := hacc
    obtain ⟨hle, rfl⟩ := behind_name hr hname
    rw [fieldDecode_eq host base (by omega)]
    apply fieldNameStep_returns host hr hname f
    refine (getSpan_some host hr hle hvalue _ _).bind ?_
    rw [fieldValueStep, if_neg (by decide)]
    exact (Logged.returns_lift (stringAt_chunk hr hle hvalue)).bind (Logged.returns_pure _)
  fails := by
    intro base room hr hsafe hacc
    rcases Nat.eq_zero_or_pos room with rfl | hpos
    · exact ⟨.param, f, by decide, Logged.returns_pure _⟩
    · obtain ⟨hword, hsecond⟩ := not_or.mp hsafe
      rw [fieldDecode_eq host base hpos]
      cases hname : splitChunk (window mem base room) with
      | none =>
          obtain ⟨l, hspan⟩ := getSpan_none host hr (Nat.zero_le room) hword hname none 0
          refine ⟨.fieldDecode, f, by decide, ?_⟩
          rw [hspan]
          exact (Logged.returns_lift rfl).bind (Logged.returns_pure _)
      | some nr =>
          obtain ⟨name, rest⟩ := nr
          obtain ⟨hle, rfl⟩ := behind_name hr hname
          have hvalue : splitChunk (window mem (base + (4 + name.length))
              (room - (4 + name.length))) = none := by
            cases hv : splitChunk (window mem (base + (4 + name.length))
                (room - (4 + name.length))) with
            | none => rfl
            | some vr => exact absurd ⟨_, _, hname, hv⟩ (hacc ⟨name, vr.1⟩)
          have hsafe' := fun hbad => hsecond ⟨name, _, hname, hbad⟩
          obtain ⟨l, hspan⟩ := getSpan_none host hr hle hsafe' hvalue
            (some ((base + 4 : Nat) : Int)) name.length
          refine ⟨.fieldDecode, { f with m_strName := name }, by decide, ?_⟩
          apply fieldNameStep_returns host hr hname f
          rw [hspan]
          exact (Logged.returns_lift rfl).bind (Logged.returns_pure _)

end

/-! ## the loops -/

section

variable {mem : List UInt8} (host : Endian)
  {decode : Option Int → Int → Logged Span (BinRet × α)} {bad : List UInt8 → Prop}
  {accepts : List UInt8 → α → Prop} {err : BinRet} {add : γ → α → γ}

/-- The loop behind a part that was decoded. -/
def partStep (mem : List UInt8) (decode : Option Int → Int → Logged Span (BinRet × α))
    (err : BinRet) (add : γ → α → γ) (fuel : Nat) (clsBuffer : CBufferManage)
    (szBufferRow : Option Int)
    (iRowLength : Int) (acc : γ) : BinRet × α → Logged Span (BinRet × γ)
  | (iRet, x) =>
      if iRet ≠ .ok then pure (err, acc)
      else
        decodeParts host mem decode err add fuel clsBuffer szBufferRow iRowLength true (add acc x)

/-- The loop behind its `GetString`. -/
def spanStep (mem : List UInt8) (decode : Option Int → Int → Logged Span (BinRet × α))
    (err : BinRet) (add : γ → α → γ) (fuel : Nat) (flag : Bool) (acc : γ) :
    BufRet × CBufferManage × Option Int × Int → Logged Span (BinRet × γ)
  | (iRet, clsBuffer, szBufferRow, iRowLength) =>
      if iRet ≠ .ok then pure (if flag then .ok else err, acc)
      else decode szBufferRow iRowLength >>=
        partStep host mem decode err add fuel clsBuffer szBufferRow iRowLength acc

/-- A turn of the loop reads the length of a part, then the part. -/
theorem decodeParts_succ (fuel : Nat) (b : CBufferManage) (p : Option Int) (l : Int) (flag : Bool)
    (acc : γ) :
    decodeParts host mem decode err add (fuel + 1) b p l flag acc =
      getSpan host mem b p l >>= spanStep host mem decode err add fuel flag acc := rfl

section

variable {base room cur : Nat} (hr : Readable mem base room) (hcur : cur ≤ room)
  (hchunk : splitChunk (window mem (base + cur) (room - cur)) = some (c, rest))

include hr hcur hchunk

/-- One turn of the loop: the chunk at the cursor is decoded. -/
theorem decodeParts_returns {fuel : Nat} {p : Option Int} {l : Int} {flag : Bool} {acc : γ}
    {y : BinRet × γ}
    (h : (decode (some ((base + (cur + 4) : Nat) : Int)) c.length >>=
      partStep host mem decode err add fuel ((attached base room).seek (cur + (4 + c.length)))
        (some ((base + (cur + 4) : Nat) : Int)) c.length acc).Returns Span.Inside y) :
    (decodeParts host mem decode err add (fuel + 1) ((attached base room).seek cur) p l flag
      acc).Returns Span.Inside y := by
  rw [decodeParts_succ]
  refine (getSpan_some host hr hcur hchunk p l).bind ?_
  rw [spanStep, if_neg (by decide)]
  exact h

/-- When the loop stays inside, so does the decoder of the part. -/
theorem decodeParts_clean {fuel : Nat} {p : Option Int} {l : Int} {flag : Bool} {acc : γ}
    (h : (decodeParts host mem decode err add (fuel + 1) ((attached base room).seek cur) p l flag
      acc).Clean Span.Inside) :
    (decode (some ((base + (cur + 4) : Nat) : Int)) c.length >>=
      partStep host mem decode err add fuel ((attached base room).seek (cur + (4 + c.length)))
        (some ((base + (cur + 4) : Nat) : Int)) c.length acc).Clean Span.Inside := by
  rw [decodeParts_succ] at h
  have hstep := h.right (getSpan_some host hr hcur hchunk p l)
  rwa [spanStep, if_neg (by decide)] at hstep

end

/-- A loop that meets a hostile word leaves the buffer. -/
theorem decodeParts_leaves (hdec : Decodes mem decode bad accepts) {base room cur fuel : Nat}
    (hr : Readable mem base room) (hcur : cur ≤ room) (hfuel : room - cur < fuel)
    (h : MeetsHostile bad (fun c => ∃ x, accepts c x) cur (window mem (base + cur) (room - cur)))
    (p : Option Int) (l : Int) (flag : Bool) (acc : γ) :
    ¬ (decodeParts host mem decode err add fuel ((attached base room).seek cur) p l flag
      acc).Clean Span.Inside := by
  intro hclean
  induction fuel generalizing cur p l flag acc with
  | zero => cases hfuel
  | succ fuel ih =>
      cases h with
      | word hword =>
          rw [decodeParts_succ] at hclean
          exact getSpan_hostile host hr hcur hword p l hclean.left
      | inner hchunk hbad =>
          obtain ⟨hr', hc⟩ := chunk_readable hr hcur hchunk
          rw [hc] at hbad
          exact hdec.leaves hr' hbad (decodeParts_clean host hr hcur hchunk hclean).left
      | @next _ c rest _ hchunk hx hrest =>
          obtain ⟨x, hx⟩ := hx
          obtain ⟨hr', hc⟩ := chunk_readable hr hcur hchunk
          obtain ⟨hle, rfl⟩ := behind_chunk hr hcur hchunk
          have hpart := decodeParts_clean host hr hcur hchunk hclean
          by_cases hbad : bad (window mem (base + (cur + 4)) c.length)
          · exact hdec.leaves hr' hbad hpart.left
          · have hloop := hpart.right (hdec.ok hr' hbad (hc ▸ hx))
            rw [partStep, if_neg (by decide)] at hloop
            exact ih hle (by omega) hrest _ _ _ _ hloop

/-- What a loop that meets no hostile word has in front of it. -/
theorem not_meetsHostile {base room cur : Nat} (hr : Readable mem base room) (hcur : cur ≤ room)
    (hsafe : ¬ MeetsHostile bad (fun c => ∃ x, accepts c x) cur
      (window mem (base + cur) (room - cur)))
    (hchunk : splitChunk (window mem (base + cur) (room - cur)) = some (c, rest)) :
    ¬ bad (window mem (base + (cur + 4)) c.length) ∧
      ((∃ x, accepts c x) →
        ¬ MeetsHostile bad (fun c => ∃ x, accepts c x) (cur + (4 + c.length)) rest) := by
  obtain ⟨-, hc⟩ := chunk_readable hr hcur hchunk
  constructor
  · intro hbad
    rw [← hc] at hbad
    exact hsafe (.inner hchunk hbad)
  · intro hx hrest
    exact hsafe (.next hchunk hx hrest)

variable (err add) in
/-- A loop over good parts collects them. -/
theorem decodeParts_ok (hdec : Decodes mem decode bad accepts) {base room cur fuel : Nat}
    (hr : Readable mem base room) (hcur : cur ≤ room) (hfuel : room - cur < fuel)
    (hsafe : ¬ MeetsHostile bad (fun c => ∃ x, accepts c x) cur
      (window mem (base + cur) (room - cur)))
    (h : PartsOf accepts (window mem (base + cur) (room - cur)) xs)
    (p : Option Int) (l : Int) (flag : Bool) (acc : γ) :
    (decodeParts host mem decode err add fuel ((attached base room).seek cur) p l flag
      acc).Returns Span.Inside (if flag ∨ xs ≠ [] then .ok else err, xs.foldl add acc) := by
  induction fuel generalizing cur p l flag acc xs with
  | zero => cases hfuel
  | succ fuel ih =>
      cases h with
      | done hnone =>
          obtain ⟨l', hspan⟩ := getSpan_none host hr hcur (fun hw => hsafe (.word hw)) hnone p l
          rw [decodeParts_succ, hspan]
          have hend : (if flag ∨ ([] : List α) ≠ [] then BinRet.ok else err) =
              if flag then .ok else err := by simp
          rw [hend]
          exact (Logged.returns_lift rfl).bind (Logged.returns_pure _)
      | @next _ c rest x xs hchunk hx hrest =>
          obtain ⟨hr', hc⟩ := chunk_readable hr hcur hchunk
          obtain ⟨hbad, hsafe'⟩ := not_meetsHostile hr hcur hsafe hchunk
          have hsafe' := hsafe' ⟨x, hx⟩
          obtain ⟨hle, rfl⟩ := behind_chunk hr hcur hchunk
          apply decodeParts_returns host hr hcur hchunk
          refine (hdec.ok hr' hbad (hc ▸ hx)).bind ?_
          rw [partStep, if_neg (by decide)]
          have hloop := ih hle (by omega) hsafe' hrest (some ((base + (cur + 4) : Nat) : Int))
            c.length true (add acc x)
          simpa using hloop

variable (err add) in
/-- A loop over anything else ends with an error. -/
theorem decodeParts_fails (hdec : Decodes mem decode bad accepts) {base room cur fuel : Nat}
    (hr : Readable mem base room) (hcur : cur ≤ room) (hfuel : room - cur < fuel)
    (hsafe : ¬ MeetsHostile bad (fun c => ∃ x, accepts c x) cur
      (window mem (base + cur) (room - cur)))
    (h : ∀ xs, ¬ PartsOf accepts (window mem (base + cur) (room - cur)) xs)
    (p : Option Int) (l : Int) (flag : Bool) (acc : γ) :
    ∃ acc', (decodeParts host mem decode err add fuel ((attached base room).seek cur) p l flag
      acc).Returns Span.Inside (err, acc') := by
  induction fuel generalizing cur p l flag acc with
  | zero => cases hfuel
  | succ fuel ih =>
      cases hchunk : splitChunk (window mem (base + cur) (room - cur)) with
      | none => exact absurd (.done hchunk) (h [])
      | some cr =>
          obtain ⟨c, rest⟩ := cr
          obtain ⟨hr', hc⟩ := chunk_readable hr hcur hchunk
          obtain ⟨hbad, hsafe'⟩ := not_meetsHostile hr hcur hsafe hchunk
          obtain ⟨hle, hrest⟩ := behind_chunk hr hcur hchunk
          by_cases hx : ∃ x, accepts c x
          · have hsafe' := hsafe' hx
            obtain ⟨x, hx⟩ := hx
            rw [hrest] at hsafe'
            have hnot : ∀ xs, ¬ PartsOf accepts (window mem (base + (cur + (4 + c.length)))
                (room - (cur + (4 + c.length)))) xs := by
              intro xs hxs
              rw [← hrest] at hxs
              exact h (x :: xs) (.next hchunk hx hxs)
            obtain ⟨acc', hloop⟩ := ih hle (by omega) hsafe' hnot
              (some ((base + (cur + 4) : Nat) : Int)) c.length true (add acc x)
            refine ⟨acc', ?_⟩
            apply decodeParts_returns host hr hcur hchunk
            refine (hdec.ok hr' hbad (hc ▸ hx)).bind ?_
            rw [partStep, if_neg (by decide)]
            exact hloop
          · have hnot : ∀ x, ¬ accepts (window mem (base + (cur + 4)) c.length) x := by
              intro x hacc
              rw [← hc] at hacc
              exact hx ⟨x, hacc⟩
            obtain ⟨ret, y, hret, hpart⟩ := hdec.fails hr' hbad hnot
            refine ⟨acc, ?_⟩
            apply decodeParts_returns host hr hcur hchunk
            refine hpart.bind ?_
            rw [partStep, if_pos hret]
            exact Logged.returns_pure _

/-- A loop over the chunks of some bytes meets a hostile word. -/
def PartsBad (bad : List UInt8 → Prop) (accepts : List UInt8 → α → Prop) (bs : List UInt8) : Prop :=
  MeetsHostile bad (fun c => ∃ x, accepts c x) 0 bs

/-- The bytes are chunks of at least one value, and `y` is what they make. -/
def PartsAccepts (accepts : List UInt8 → α → Prop) (add : γ → α → γ) (init : γ) (bs : List UInt8)
    (y : γ) : Prop :=
  ∃ xs, xs ≠ [] ∧ PartsOf accepts bs xs ∧ y = xs.foldl add init

theorem not_partsBad_nil : ¬ PartsBad bad accepts [] := by
  intro h
  cases h with
  | word hword => exact not_hostileWord_nil hword
  | inner hchunk _ => cases hchunk
  | next hchunk _ _ => cases hchunk

theorem not_partsAccepts_nil {init : γ} (y : γ) : ¬ PartsAccepts accepts add init [] y := by
  rintro ⟨xs, hne, hparts, -⟩
  cases hparts with
  | done _ => exact hne rfl
  | next hchunk _ _ => cases hchunk

/-- A whole loop, from the beginning of its buffer. -/
theorem decodeParts_start (hdec : Decodes mem decode bad accepts) (herr : err ≠ .ok)
    {base room fuel : Nat} (hr : Readable mem base room) (hfuel : room < fuel) (init : γ) :
    let loop := decodeParts host mem decode err add fuel (attached base room) none 0 false init
    let bs := window mem base room
    (PartsBad bad accepts bs → ¬ loop.Clean Span.Inside) ∧
      (¬ PartsBad bad accepts bs →
        (∀ y, PartsAccepts accepts add init bs y → loop.Returns Span.Inside (.ok, y)) ∧
        ((∀ y, ¬ PartsAccepts accepts add init bs y) →
          ∃ ret y, ret ≠ .ok ∧ loop.Returns Span.Inside (ret, y))) := by
  intro loop bs
  refine ⟨fun hbad => ?_, fun hsafe => ⟨fun y hy => ?_, fun hnot => ?_⟩⟩
  · exact decodeParts_leaves host hdec hr (Nat.zero_le _) hfuel hbad none 0 false init
  · obtain ⟨xs, hne, hparts, rfl⟩ := hy
    have hloop := decodeParts_ok host err add hdec hr (Nat.zero_le _) hfuel hsafe
      hparts none 0 false init
    rwa [if_pos (.inr hne)] at hloop
  · by_cases hparts : ∃ xs, PartsOf accepts bs xs
    · obtain ⟨xs, hparts⟩ := hparts
      have hnil : xs = [] := by
        by_contra hne
        exact hnot _ ⟨xs, hne, hparts, rfl⟩
      subst hnil
      have hloop := decodeParts_ok host err add hdec hr (Nat.zero_le _) hfuel
        hsafe hparts none 0 false init
      rw [if_neg (by simp)] at hloop
      exact ⟨err, _, herr, hloop⟩
    · obtain ⟨acc', hloop⟩ := decodeParts_fails host err add hdec hr
        (Nat.zero_le _) hfuel hsafe (fun xs hxs => hparts ⟨xs, hxs⟩) none 0 false init
      exact ⟨err, acc', herr, hloop⟩

end

/-! ## rows and records -/

def RowBad : List UInt8 → Prop := PartsBad FieldBad FieldAccepts

def RowAccepts : List UInt8 → CBinMsgRow → Prop :=
  PartsAccepts FieldAccepts CBinMsgRow.addField .init

/-- A record meets a hostile word in its rows, behind its own length. -/
def RecordBad (bs : List UInt8) : Prop := PartsBad RowBad RowAccepts (bs.drop 4)

def RecordAccepts (bs : List UInt8) : CBinMsgRecord → Prop :=
  PartsAccepts RowAccepts CBinMsgRecord.addRow .init (bs.drop 4)

section

variable {mem : List UInt8} (host : Endian)

/-- `Decode` of a row is the loop over its fields. -/
theorem rowDecode_eq (base : Nat) (h : 0 < room) (row : CBinMsgRow) :
    rowDecode host mem (some (base : Int)) (room : Nat) row =
      decodeParts host mem (fun p n => fieldDecode host mem p n ⟨[], []⟩) .fieldDecode
        CBinMsgRow.addField (room + 1) (attached base room) none 0 false row := by
  have hparam : ¬ ((some (base : Int) : Option Int) = none ∨ ((room : Nat) : Int) ≤ 0) := by
    rintro (h' | h')
    · cases h'
    · omega
  unfold rowDecode
  rw [if_neg hparam, attachBuffer_eq .init base h]
  rfl

/-- **Decoding a row** stays inside, accepts and refuses as the bytes say. -/
theorem rowDecode_decodes :
    Decodes mem (fun p n => rowDecode host mem p n .init) RowBad RowAccepts where
  leaves := by
    intro base room hr hbad
    rcases Nat.eq_zero_or_pos room with rfl | hpos
    · rw [window_zero] at hbad
      exact absurd hbad not_partsBad_nil
    · rw [rowDecode_eq host base hpos]
      exact (decodeParts_start host (fieldDecode_decodes host _) (by decide) hr (by omega) _).1 hbad
  ok := by
    intro base room x hr hsafe hacc
    rcases Nat.eq_zero_or_pos room with rfl | hpos
    · rw [window_zero] at hacc
      exact absurd hacc (not_partsAccepts_nil x)
    · rw [rowDecode_eq host base hpos]
      exact ((decodeParts_start host (fieldDecode_decodes host _) (by decide) hr (by omega) _).2
        hsafe).1 x hacc
  fails := by
    intro base room hr hsafe hacc
    rcases Nat.eq_zero_or_pos room with rfl | hpos
    · exact ⟨.param, .init, by decide, Logged.returns_pure _⟩
    · rw [rowDecode_eq host base hpos]
      exact ((decodeParts_start host (fieldDecode_decodes host _) (by decide) hr (by omega) _).2
        hsafe).2 hacc

/-- `Decode` of a record is the loop over its rows, behind the length. -/
theorem recordDecode_eq (base : Nat) (h : 4 < room) (hroom : room < 2 ^ 31) (rec : CBinMsgRecord) :
    recordDecode host mem (some (base : Int)) (room : Nat) rec =
      decodeParts host mem (fun p n => rowDecode host mem p n .init) .rowDecode
        CBinMsgRecord.addRow (room + 1) (attached (base + 4) (room - 4)) none 0 false rec := by
  have hparam : ¬ ((some (base : Int) : Option Int) = none ∨ ((room : Nat) : Int) < 4) := by
    rintro (h' | h')
    · cases h'
    · omega
  have hlen : i32 (((room : Nat) : Int) - 4) = ((room - 4 : Nat) : Int) := by
    rw [i32_eq_self ⟨by omega, by omega⟩]
    omega
  have hptr : pointerAdd (some (base : Int)) 4 = some ((base + 4 : Nat) : Int) := rfl
  unfold recordDecode
  rw [if_neg hparam, hlen, hptr, attachBuffer_eq .init (base + 4) (by omega)]
  rfl

/-- A record of four bytes or less has no rows. -/
theorem recordDecode_short (base : Nat) (h : room ≤ 4) (rec : CBinMsgRecord) :
    recordDecode host mem (some (base : Int)) (room : Nat) rec = pure (.param, rec) := by
  unfold recordDecode
  by_cases h4 : room < 4
  · rw [if_pos (.inr (by omega))]
  · have hroom : room = 4 := by omega
    have hlen : i32 (((4 : Nat) : Int) - 4) = 0 := i32_eq_self (by decide)
    subst hroom
    rw [if_neg (by rintro (h' | h') <;> [cases h'; omega]), hlen, attachBuffer,
      if_pos (.inr (Int.le_refl 0))]
    rfl

theorem window_drop_four_nil (h : base + room ≤ mem.length) (h4 : room ≤ 4) :
    (window mem base room).drop 4 = [] := by
  rw [List.drop_eq_nil_iff, length_window h]
  exact h4

section

variable {base room : Nat} (hroom : room < 2 ^ 31) (hin : base + room ≤ mem.length)

include hroom hin

/-- A hostile length leads out of the window. -/
theorem recordDecode_leaves (hbad : RecordBad (window mem base room)) :
    ¬ (recordDecode host mem (some (base : Int)) (room : Nat) .init).Clean Span.Inside := by
  by_cases h4 : room ≤ 4
  · rw [RecordBad, window_drop_four_nil hin h4] at hbad
    exact absurd hbad not_partsBad_nil
  · rw [RecordBad, window_drop] at hbad
    rw [recordDecode_eq host base (by omega) hroom]
    exact (decodeParts_start host (rowDecode_decodes host) (by decide)
      ⟨by omega, by omega, .inl (by omega)⟩ (by omega) _).1 hbad

/-- Bytes that are accepted as a record are decoded to it, inside the window. -/
theorem recordDecode_ok (hsafe : ¬ RecordBad (window mem base room))
    (hacc : RecordAccepts (window mem base room) rec) :
    (recordDecode host mem (some (base : Int)) (room : Nat) .init).Returns Span.Inside
      (.ok, rec) := by
  by_cases h4 : room ≤ 4
  · rw [RecordAccepts, window_drop_four_nil hin h4] at hacc
    exact absurd hacc (not_partsAccepts_nil rec)
  · rw [RecordBad, window_drop] at hsafe
    rw [RecordAccepts, window_drop] at hacc
    rw [recordDecode_eq host base (by omega) hroom]
    exact ((decodeParts_start host (rowDecode_decodes host) (by decide)
      ⟨by omega, by omega, .inl (by omega)⟩ (by omega) _).2 hsafe).1 rec hacc

/-- Bytes that are accepted as no record are refused, inside the window. -/
theorem recordDecode_fails (hsafe : ¬ RecordBad (window mem base room))
    (hacc : ∀ rec, ¬ RecordAccepts (window mem base room) rec) :
    ∃ ret rec, ret ≠ .ok ∧
      (recordDecode host mem (some (base : Int)) (room : Nat) .init).Returns Span.Inside
        (ret, rec) := by
  by_cases h4 : room ≤ 4
  · rw [recordDecode_short host base h4]
    exact ⟨.param, .init, by decide, Logged.returns_pure _⟩
  · rw [RecordBad, window_drop] at hsafe
    simp only [RecordAccepts, window_drop] at hacc
    rw [recordDecode_eq host base (by omega) hroom]
    exact ((decodeParts_start host (rowDecode_decodes host) (by decide)
      ⟨by omega, by omega, .inl (by omega)⟩ (by omega) _).2 hsafe).2 hacc

/-- A record decoder stays in its buffer exactly when it meets no hostile word. -/
theorem recordDecode_clean_iff :
    (recordDecode host mem (some (base : Int)) (room : Nat) .init).Clean Span.Inside ↔
      ¬ RecordBad (window mem base room) := by
  constructor
  · exact fun hclean hbad => recordDecode_leaves host hroom hin hbad hclean
  · intro hsafe
    by_cases hacc : ∃ rec, RecordAccepts (window mem base room) rec
    · obtain ⟨rec, hacc⟩ := hacc
      exact (recordDecode_ok host hroom hin hsafe hacc).clean
    · obtain ⟨ret, rec, -, hret⟩ := recordDecode_fails host hroom hin hsafe
        (fun rec h => hacc ⟨rec, h⟩)
      exact hret.clean

end

/-- A decoder stays inside exactly when no length leads out. -/
theorem Decodes.clean_iff {decode : Option Int → Int → Logged Span (BinRet × α)}
    {bad : List UInt8 → Prop} {accepts : List UInt8 → α → Prop}
    (hdec : Decodes mem decode bad accepts) (hr : Readable mem base room) :
    (decode (some (base : Nat)) (room : Nat)).Clean Span.Inside ↔ ¬ bad (window mem base room) := by
  constructor
  · exact fun hclean hbad => hdec.leaves hr hbad hclean
  · intro hsafe
    by_cases hacc : ∃ x, accepts (window mem base room) x
    · obtain ⟨x, hacc⟩ := hacc
      exact (hdec.ok hr hsafe hacc).clean
    · obtain ⟨ret, x, -, hret⟩ := hdec.fails hr hsafe (fun x h => hacc ⟨x, h⟩)
      exact hret.clean

end

theorem window_self (buf : List UInt8) : window buf 0 buf.length = buf := by
  rw [window, List.drop_zero, List.take_length]

/-- **Hostile bytes**: on any bytes the decoders return, with all of their spans
inside the buffers they were taken from, exactly when they meet no length word
that overflows the bounds test. -/
theorem decode_stays_inside_iff (host : Endian) {buf : List UInt8} (h : buf.length < 2 ^ 31) :
    (∀ f, (fieldDecode host buf (some 0) buf.length f).Clean Span.Inside ↔ ¬ FieldBad buf) ∧
      ((rowDecode host buf (some 0) buf.length .init).Clean Span.Inside ↔ ¬ RowBad buf) ∧
      ((recordDecode host buf (some 0) buf.length .init).Clean Span.Inside ↔ ¬ RecordBad buf) := by
  have hr : Readable buf 0 buf.length := ⟨h, by omega, .inr (by omega)⟩
  refine ⟨fun f => ?_, ?_, ?_⟩
  · have hfield := (fieldDecode_decodes host f).clean_iff hr
    rwa [window_self] at hfield
  · have hrow := (rowDecode_decodes host).clean_iff hr
    rwa [window_self] at hrow
  · have hrecord := recordDecode_clean_iff host h hr.inside
    rwa [window_self] at hrecord

/-- A length word of `-1` is refused. -/
theorem decode_stays_inside_negative :
    (rowDecode .little [255, 255, 255, 255] (some 0) 4 .init).Clean Span.Inside := by
  refine (decode_stays_inside_iff .little (by decide)).2.1.mpr ?_
  intro h
  have hnone : splitChunk [255, 255, 255, 255] = none := by decide +kernel
  cases h with
  | word hword =>
      revert hword
      decide +kernel
  | inner hchunk _ => cases hnone.symm.trans hchunk
  | next hchunk _ _ => cases hnone.symm.trans hchunk

/-- A length word of `2 ^ 31 - 1` in a record of eight bytes is taken as it is. -/
theorem decode_leaves_buffer :
    ∃ s ∈ (recordDecode .little [0, 0, 0, 8, 127, 255, 255, 255] (some 0) 8 .init).log,
      ¬ s.Inside := by
  refine ⟨⟨some 4, 4, some 8, 2147483647⟩, by decide +kernel, ?_⟩
  simp [Span.Inside]

end MySrc
