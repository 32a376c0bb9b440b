import MySrc.TemplateHttp.BufferManage

/-!
# MySrc.TemplateHttp.BufferStream

Streams of typed values through a `CBufferManage`: a list of values is written
with the `Put` calls and read back with the `Get` calls of the same types.

Every `Put` compares the end of what it writes with the buffer length in `int`
arithmetic.  `stream_roundtrip_iff` says when a stream behaves: the end of the
first value that does not fit must not come out of that arithmetic as an
offset inside the buffer.
-/

namespace MySrc

open Lib

/-! ## values -/

/-- A value with the `Put` call that writes it.  A length that is passed as an
`int` is one. -/
inductive Item
  /-- `PutInt` -/
  | int (v : Int) (h : IsI32 v)
  /-- `PutLong64` -/
  | long64 (v : Nat) (h : v < 2 ^ 64)
  /-- `PutChar` -/
  | char (c : UInt8)
  /-- `PutString(const string&)` -/
  | string (s : List UInt8)
  /-- `PutString(const char*, int&)` -/
  | stringBuf (s : List UInt8) (h : s.length < 2 ^ 31)
  /-- `PutCharBuffer` -/
  | charBuffer (s : List UInt8) (h : 1 ≤ s.length ∧ s.length < 2 ^ 31)

/-- What a `Get` call delivers. -/
inductive Value
  | int (v : Int)
  | long64 (v : Nat)
  | char (c : UInt8)
  | bytes (s : List UInt8)
  deriving Repr, DecidableEq

/-- Which overload of `GetString` or `GetCharBuffer` reads a value: the one
that copies, or the one that returns a pointer. -/
inductive Via
  | copy
  | pointer
  deriving Repr, DecidableEq

def Item.value : Item → Value
  | .int v _ => .int v
  | .long64 v _ => .long64 v
  | .char c => .char c
  | .string s => .bytes s
  | .stringBuf s _ => .bytes s
  | .charBuffer s _ => .bytes s

/-- The size of a value in the buffer. -/
def Item.size : Item → Nat
  | .int _ _ => 4
  | .long64 _ _ => 8
  | .char _ => 1
  | .string s => 4 + s.length
  | .stringBuf s _ => 4 + s.length
  | .charBuffer s _ => s.length

/-- The bytes of a value in the buffer. -/
def Item.bytes (host : Endian) : Item → List UInt8
  | .int v _ => netBytes 4 (u32 v)
  | .long64 v _ => storeWord host 8 (lberHtonl host v)
  | .char c => [c]
  | .string s => netBytes 4 s.length ++ s
  | .stringBuf s _ => netBytes 4 s.length ++ s
  | .charBuffer s _ => s

/-- The size of a stream. -/
def streamSize (items : List Item) : Nat := (items.map Item.size).sum

/-- The bytes of a stream. -/
def streamBytes (host : Endian) (items : List Item) : List UInt8 := items.flatMap (Item.bytes host)

theorem Item.length_bytes (host : Endian) (it : Item) : (it.bytes host).length = it.size := by
  cases it <;> simp [Item.bytes, Item.size]

theorem length_streamBytes (host : Endian) (items : List Item) :
    (streamBytes host items).length = streamSize items := by
  simp [streamBytes, streamSize, List.length_flatMap, Item.length_bytes]

/-! ## writing and reading a stream -/

section

variable (host : Endian)

/-- The `Put` call of a value. -/
def putItem (mem : List UInt8) (b : CBufferManage) :
    Item → Except Fault (BufRet × CBufferManage × List UInt8)
  | .int v _ => putInt host mem b v
  | .long64 v _ => putLong64 host mem b v
  | .char c => putChar mem b c
  | .string s => putString host mem b s
  | .stringBuf s _ => do
      let (ret, b, mem, _) ← putStringBuf host mem b (some s) s.length
      return (ret, b, mem)
  | .charBuffer s _ => do
      let (ret, b, mem, _) ← putCharBuffer mem b (some s) s.length
      return (ret, b, mem)

/-- The `Put` calls of a stream, up to the first that fails. -/
def putAll (mem : List UInt8) (b : CBufferManage) :
    List Item → Except Fault (BufRet × CBufferManage × List UInt8)
  | [] => .ok (.ok, b, mem)
  | it :: items => do
      let (ret, b, mem) ← putItem host mem b it
      if ret ≠ .ok then return (ret, b, mem)
      putAll mem b items

/-- The `Get` call for a value of the type, and in the case of `GetCharBuffer`
the length, of the item. -/
def getItem (mem : List UInt8) (b : CBufferManage) (via : Via) :
    Item → Except Fault (BufRet × CBufferManage × Value)
  | .int _ _ => do
      let (ret, b, v) ← getInt host mem b 0
      return (ret, b, .int v)
  | .long64 _ _ => do
      let (ret, b, v) ← getLong64 host mem b 0
      return (ret, b, .long64 v)
  | .char _ => do
      let (ret, b, c) ← getChar mem b 0
      return (ret, b, .char c)
  | .string _ | .stringBuf _ _ =>
      match via with
      | .copy => do
          let (ret, b, s) ← getString host mem b []
          return (ret, b, .bytes s)
      | .pointer => do
          let (ret, b, p, len) ← getStringPtr host mem b none 0
          if ret ≠ .ok then return (ret, b, .bytes [])
          let s ← stringAt mem p len
          return (ret, b, .bytes s)
  | .charBuffer s _ =>
      match via with
      | .copy => do
          let (ret, b, dst, _) ← getCharBuffer mem b (some (List.replicate s.length 0)) s.length
          return (ret, b, .bytes (dst.getD []))
      | .pointer => do
          let (ret, b, p, len) ← getCharBufferPtr b none s.length
          if ret ≠ .ok then return (ret, b, .bytes [])
          let s ← stringAt mem p len
          return (ret, b, .bytes s)

/-- The `Get` calls of a stream, up to the first that fails. -/
def getAll (mem : List UInt8) (b : CBufferManage) :
    List (Item × Via) → Except Fault (BufRet × CBufferManage × List Value)
  | [] => .ok (.ok, b, [])
  | (it, via) :: reads => do
      let (ret, b, v) ← getItem host mem b via it
      if ret ≠ .ok then return (ret, b, [])
      let (ret, b, vs) ← getAll mem b reads
      return (ret, b, v :: vs)

end

/-! ## one value -/

section

variable {mem : List UInt8} {b : CBufferManage} {base cur : Nat}

/-- A value that fits is written at the cursor. -/
theorem putItem_fits (host : Endian) (c : Cursor mem b base cur) (it : Item)
    (h : (cur + it.size : Int) ≤ b.m_iBufferLen) :
    putItem host mem b it =
      .ok (.ok, b.seek (cur + it.size), splice mem (base + cur) (it.bytes host)) := by
  cases it with
  | int v _ => exact putInt_fits host c h v
  | long64 v _ => exact putLong64_fits host c h v
  | char ch => exact putChar_fits c h ch
  | string s => exact putString_fits host c h
  | stringBuf s _ =>
      rw [putItem, putStringBuf_fits host c (Nat.le_refl _) h, List.take_length]
      rfl
  | charBuffer s _ =>
      rw [putItem, putCharBuffer_fits c h]
      rfl

/-- A value whose end is past the buffer in `int` arithmetic too is refused,
and nothing is changed. -/
theorem putItem_fails (host : Endian) (c : Cursor mem b base cur) (it : Item)
    (h : b.m_iBufferLen < i32 (cur + it.size)) :
    ∃ ret, ret ≠ .ok ∧ putItem host mem b it = .ok (ret, b, mem) := by
  rw [← c.offset] at h
  refine ⟨.noEnough, by decide, ?_⟩
  cases it with
  | int v _ => exact if_pos h
  | long64 v _ => exact if_pos h
  | char ch => exact if_pos h
  | string s =>
      rw [Item.size] at h
      unfold putItem putString
      dsimp only
      rw [i32_string_end, if_pos h]
      rfl
  | stringBuf s _ =>
      rw [Item.size] at h
      unfold putItem putStringBuf
      dsimp only
      rw [i32_stringBuf_end, if_neg (by omega), if_pos h]
      rfl
  | charBuffer s _ =>
      rw [Item.size] at h
      unfold putItem putCharBuffer
      dsimp only
      rw [if_neg (by omega), if_pos h]
      rfl

/-- A value whose end is inside the buffer in `int` arithmetic is never
refused. -/
theorem putItem_passes (host : Endian) (c : Cursor mem b base cur) (it : Item)
    (h : i32 (cur + it.size) ≤ b.m_iBufferLen)
    (hput : putItem host mem b it = .ok (ret, b', mem')) : ret = .ok := by
  rw [← c.offset, ← Int.not_lt] at h
  cases it with
  | int v _ =>
      have htest : ¬ i32 (b.m_iOffset + 4) > b.m_iBufferLen := h
      rw [putItem, putInt, if_neg htest, bind_eq_ok] at hput
      obtain ⟨m, -, heq⟩ := hput
      exact (congrArg Prod.fst (Except.ok.inj heq)).symm
  | long64 v _ =>
      have htest : ¬ i32 (b.m_iOffset + 8) > b.m_iBufferLen := h
      rw [putItem, putLong64, if_neg htest, bind_eq_ok] at hput
      obtain ⟨m, -, heq⟩ := hput
      exact (congrArg Prod.fst (Except.ok.inj heq)).symm
  | char ch =>
      have htest : ¬ i32 (b.m_iOffset + 1) > b.m_iBufferLen := h
      rw [putItem, putChar, if_neg htest, bind_eq_ok] at hput
      obtain ⟨m, -, heq⟩ := hput
      exact (congrArg Prod.fst (Except.ok.inj heq)).symm
  | string s =>
      rw [Item.size] at h
      unfold putItem putString at hput
      dsimp only at hput
      rw [i32_string_end, if_neg h, bind_eq_ok] at hput
      obtain ⟨m, -, heq⟩ := hput
      split at heq
      · obtain ⟨m', -, heq⟩ := bind_eq_ok.mp heq
        exact (congrArg Prod.fst (Except.ok.inj heq)).symm
      · exact (congrArg Prod.fst (Except.ok.inj heq)).symm
  | stringBuf s _ =>
      rw [Item.size] at h
      unfold putItem putStringBuf at hput
      dsimp only at hput
      rw [i32_stringBuf_end, if_neg (by omega), if_neg h, bind_eq_ok] at hput
      obtain ⟨⟨ret', b'', mem'', len⟩, hbuf, heq⟩ := hput
      obtain ⟨m, -, hbuf⟩ := bind_eq_ok.mp hbuf
      have hret : ret' = .ok := by
        split at hbuf
        · obtain ⟨m', -, hbuf⟩ := bind_eq_ok.mp hbuf
          exact (congrArg Prod.fst (Except.ok.inj hbuf)).symm
        · exact (congrArg Prod.fst (Except.ok.inj hbuf)).symm
      exact (congrArg Prod.fst (Except.ok.inj heq)).symm.trans hret
  | charBuffer s _ =>
      rw [Item.size] at h
      unfold putItem putCharBuffer at hput
      dsimp only at hput
      rw [if_neg (by omega), if_neg h, bind_eq_ok] at hput
      obtain ⟨⟨ret', b'', mem'', len⟩, hbuf, heq⟩ := hput
      obtain ⟨m, -, hbuf⟩ := bind_eq_ok.mp hbuf
      have hret : ret' = .ok := (congrArg Prod.fst (Except.ok.inj hbuf)).symm
      exact (congrArg Prod.fst (Except.ok.inj heq)).symm.trans hret

/-- The bits of an `int` are that `int`. -/
theorem i32_u32 (h : IsI32 v) : i32 (u32 v) = v := by
  unfold IsI32 at h
  unfold i32 u32
  rw [Int.bmod_def]
  omega

/-- `GetString` through either overload. -/
theorem getItem_string (host : Endian) (c : Cursor mem b base cur) (via : Via) {s : List UInt8}
    (h : (cur + (4 + s.length : Nat) : Int) ≤ b.m_iBufferLen)
    (hold : HoldsAt mem (base + cur) (netBytes 4 s.length ++ s)) :
    getItem host mem b via (.string s) =
      .ok (.ok, b.seek (cur + (4 + s.length)), .bytes s) := by
  obtain ⟨hpre, hs⟩ := holdsAt_append.mp hold
  rw [length_netBytes, Nat.add_assoc] at hs
  have hword : wordAt mem (base + cur) = s.length := by
    have := c.len_lt
    rw [wordAt_of_holdsAt hpre, i32_eq_self ⟨by omega, by omega⟩]
  cases via with
  | copy =>
      rw [getItem, c.getString_eq host h hword hs]
      rfl
  | pointer =>
      rw [getItem, c.getStringPtr_eq host h hword, ok_bind]
      dsimp only
      rw [if_neg (by decide), (c.behind_word (by omega)).stringAt_eq hs]
      rfl

/-- What was written at the cursor is read. -/
theorem getItem_fits (host : Endian) (c : Cursor mem b base cur) (via : Via) (it : Item)
    (h : (cur + it.size : Int) ≤ b.m_iBufferLen)
    (hold : HoldsAt mem (base + cur) (it.bytes host)) :
    getItem host mem b via it = .ok (.ok, b.seek (cur + it.size), it.value) := by
  cases it with
  | int v hv =>
      have hend : i32 (b.m_iOffset + 4) = (cur + 4 : Nat) := c.i32_add (n := 4) h
      rw [getItem, getInt, hend, if_neg (by rw [Item.size] at h; omega), c.loadInt_eq host h,
        wordAt_of_holdsAt hold, i32_u32 hv]
      rfl
  | long64 v hv =>
      have hend : i32 (b.m_iOffset + 8) = (cur + 8 : Nat) := c.i32_add (n := 8) h
      have hread := c.memcpyFrom_eq hold
      rw [Item.bytes, length_storeWord] at hread
      have hback : lberHtonl host (loadWord host (storeWord host 8 (lberHtonl host v))) = v := by
        rw [loadWord_storeWord, Nat.mod_eq_of_lt (lberHtonl_lt host v), lberHtonl_lberHtonl host hv]
      rw [getItem, getLong64, hend, if_neg (by rw [Item.size] at h; omega), c.pointerAt_eq, ok_bind,
        hread, ok_bind, hback]
      rfl
  | char ch =>
      have hend : i32 (b.m_iOffset + 1) = (cur + 1 : Nat) := c.i32_add (n := 1) h
      have hread := c.memcpyFrom_eq hold
      rw [Item.bytes, List.length_singleton] at hread
      rw [getItem, getChar, hend, if_neg (by rw [Item.size] at h; omega), c.pointerAt_eq, ok_bind,
        hread]
      rfl
  | string s => exact getItem_string host c via h hold
  | stringBuf s _ => exact getItem_string host c via h hold
  | charBuffer s hs =>
      rw [Item.size] at h
      have hold' : HoldsAt mem (base + cur) s := hold
      cases via with
      | copy =>
          have hdst : memcpyTo (List.replicate s.length 0) 0 s = .ok s := by
            rw [memcpyTo_eq_splice (by simp), splice]
            simp
          unfold getItem getCharBuffer
          dsimp only
          rw [c.i32_add h, if_neg (by omega), if_neg (by omega), c.pointerAt_eq, ok_bind,
            Int.toNat_natCast, c.memcpyFrom_eq hold', ok_bind, hdst]
          rfl
      | pointer =>
          rw [getItem, c.getCharBufferPtr_eq h, ok_bind]
          dsimp only
          rw [if_neg (by decide), c.stringAt_eq hold']
          rfl

/-! ## streams -/

theorem Cursor.seek_self (c : Cursor mem b base cur) : b.seek cur = b := by
  unfold CBufferManage.seek
  rw [← c.offset]

/-- A stream that fits is written at the cursor. -/
theorem putAll_fits (host : Endian) (items : List Item) (c : Cursor mem b base cur)
    (h : (cur + streamSize items : Int) ≤ b.m_iBufferLen) :
    putAll host mem b items =
      .ok (.ok, b.seek (cur + streamSize items),
        splice mem (base + cur) (streamBytes host items)) := by
  induction items generalizing mem b cur with
  | nil =>
      rw [putAll, streamBytes, List.flatMap_nil, splice_nil, streamSize, List.map_nil, List.sum_nil,
        Nat.add_zero, c.seek_self]
  | cons it items ih =>
      have hsize : streamSize (it :: items) = it.size + streamSize items := rfl
      rw [hsize] at h ⊢
      have hit : (cur + it.size : Int) ≤ b.m_iBufferLen := by omega
      have hroom := c.room hit
      have hlen : base + cur + (it.bytes host).length ≤ mem.length := by rwa [it.length_bytes]
      have c' : Cursor (splice mem (base + cur) (it.bytes host)) (b.seek (cur + it.size)) base
          (cur + it.size) := (c.seek (by omega)).of_length (length_splice hlen)
      have hsplice : splice (splice mem (base + cur) (it.bytes host)) (base + (cur + it.size))
          (streamBytes host items) = splice mem (base + cur) (streamBytes host (it :: items)) := by
        rw [← Nat.add_assoc, ← it.length_bytes host]
        exact splice_splice hlen
      rw [putAll, putItem_fits host c it hit, ok_bind]
      dsimp only
      rw [if_neg (by decide), ih c' (show ((cur + it.size : Nat) + streamSize items : Int) ≤
        b.m_iBufferLen by omega), hsplice, Nat.add_assoc]
      rfl

/-- A stream in the buffer is read from the cursor on. -/
theorem getAll_fits (host : Endian) (reads : List (Item × Via)) (c : Cursor mem b base cur)
    (h : (cur + streamSize (reads.map Prod.fst) : Int) ≤ b.m_iBufferLen)
    (hold : HoldsAt mem (base + cur) (streamBytes host (reads.map Prod.fst))) :
    getAll host mem b reads =
      .ok (.ok, b.seek (cur + streamSize (reads.map Prod.fst)),
        (reads.map Prod.fst).map Item.value) := by
  induction reads generalizing b cur with
  | nil =>
      rw [getAll, List.map_nil, streamSize, List.map_nil, List.sum_nil, Nat.add_zero, c.seek_self,
        List.map_nil]
  | cons rd reads ih =>
      obtain ⟨it, via⟩ := rd
      have hsize : streamSize (((it, via) :: reads).map Prod.fst) =
          it.size + streamSize (reads.map Prod.fst) := rfl
      rw [hsize] at h ⊢
      obtain ⟨hit, hrest⟩ := holdsAt_append.mp hold
      rw [it.length_bytes, Nat.add_assoc] at hrest
      have c' : Cursor mem (b.seek (cur + it.size)) base (cur + it.size) := c.seek (by omega)
      have hget := ih c' (show ((cur + it.size : Nat) + streamSize (reads.map Prod.fst) : Int) ≤
        b.m_iBufferLen by omega) hrest
      rw [getAll, getItem_fits host c via it (by omega) hit, ok_bind]
      dsimp only
      rw [if_neg (by decide), hget, Nat.add_assoc]
      rfl

/-- The cursor behind a stream that was written. -/
theorem cursor_putAll (host : Endian) (items : List Item) (c : Cursor mem b base cur)
    (h : (cur + streamSize items : Int) ≤ b.m_iBufferLen) :
    Cursor (splice mem (base + cur) (streamBytes host items)) (b.seek (cur + streamSize items)) base
      (cur + streamSize items) := by
  have hroom := c.room h
  apply (c.seek (by omega)).of_length (length_splice _)
  rwa [length_streamBytes]

end

/-- What a stream of values is to do from the cursor on.  When it fits, all of
it is written, and read back through any choice of overloads it gives the same
values and the same end.  When it does not fit, the first value that does not
is refused, and neither the memory nor the cursor changes. -/
def StreamBehaves (host : Endian) (mem : List UInt8) (b : CBufferManage) (cur : Nat)
    (items : List Item) : Prop :=
  ((cur + streamSize items : Int) ≤ b.m_iBufferLen →
    ∃ b' mem', putAll host mem b items = .ok (.ok, b', mem') ∧
      b'.m_iOffset = cur + streamSize items ∧
      ∀ reads : List (Item × Via), reads.map Prod.fst = items →
        getAll host mem' b reads = .ok (.ok, b', items.map Item.value)) ∧
  ∀ done it rest, items = done ++ it :: rest →
    (cur + streamSize done : Int) ≤ b.m_iBufferLen →
    b.m_iBufferLen < cur + streamSize done + it.size →
    ∃ b' mem', putAll host mem b done = .ok (.ok, b', mem') ∧
      ∃ ret, ret ≠ .ok ∧ putItem host mem' b' it = .ok (ret, b', mem')

section

variable {mem : List UInt8} {b : CBufferManage} {base cur : Nat}

/-- A stream that fits is read back as it was written. -/
theorem stream_fits (host : Endian) (c : Cursor mem b base cur) (items : List Item)
    (h : (cur + streamSize items : Int) ≤ b.m_iBufferLen) :
    ∃ b' mem', putAll host mem b items = .ok (.ok, b', mem') ∧
      b'.m_iOffset = cur + streamSize items ∧
      ∀ reads : List (Item × Via), reads.map Prod.fst = items →
        getAll host mem' b reads = .ok (.ok, b', items.map Item.value) := by
  have hroom := c.room h
  refine ⟨_, _, putAll_fits host items c h, Int.natCast_add _ _, fun reads hreads => ?_⟩
  subst hreads
  have c' :
      Cursor (splice mem (base + cur) (streamBytes host (reads.map Prod.fst))) b base cur := by
    apply c.of_length (length_splice _)
    rwa [length_streamBytes]
  exact getAll_fits host reads c' h (holdsAt_splice (by omega))

/-- The first value that does not fit is refused exactly when its end is past
the buffer as an `int`. -/
theorem putItem_refused_iff (host : Endian) (c : Cursor mem b base cur) (done : List Item)
    (it : Item)
    (h : (cur + streamSize done : Int) ≤ b.m_iBufferLen) :
    (∃ b' mem', putAll host mem b done = .ok (.ok, b', mem') ∧
        ∃ ret, ret ≠ .ok ∧ putItem host mem' b' it = .ok (ret, b', mem')) ↔
      b.m_iBufferLen < i32 (cur + streamSize done + it.size) := by
  have hdone := putAll_fits host done c h
  have c' := cursor_putAll host done c h
  constructor
  · rintro ⟨b', mem', hput, ret, hret, hit⟩
    rw [hdone] at hput
    obtain ⟨rfl, rfl⟩ := Prod.mk.inj (Prod.mk.inj (Except.ok.inj hput)).2
    by_contra hle
    exact hret (putItem_passes host c' it (Int.not_lt.mp hle) hit)
  · intro hlt
    exact ⟨_, _, hdone, putItem_fails host c' it hlt⟩

/-- **Streams round-trip** exactly when the end of the first value that does
not fit is past the buffer as an `int`, too. -/
theorem stream_roundtrip_iff (host : Endian) (c : Cursor mem b base cur) (items : List Item) :
    StreamBehaves host mem b cur items ↔
      ∀ done it rest, items = done ++ it :: rest →
        (cur + streamSize done : Int) ≤ b.m_iBufferLen →
        b.m_iBufferLen < cur + streamSize done + it.size →
        b.m_iBufferLen < i32 (cur + streamSize done + it.size) := by
  constructor
  · intro hb done it rest hsplit hdone hit
    exact (putItem_refused_iff host c done it hdone).mp (hb.2 done it rest hsplit hdone hit)
  · intro hcond
    refine ⟨stream_fits host c items, fun done it rest hsplit hdone hit => ?_⟩
    exact (putItem_refused_iff host c done it hdone).mpr (hcond done it rest hsplit hdone hit)

end

/-- A buffer of sixteen bytes. -/
def sixteen : CBufferManage := ⟨some 0, 16, 0⟩

theorem cursor_sixteen : Cursor (List.replicate 16 0) sixteen 0 0 :=
  ⟨rfl, rfl, by decide, by decide, by decide⟩

/-- A string of seven bytes, and a word that no longer fits behind it. -/
theorem stream_roundtrip_sixteen :
    StreamBehaves .little (List.replicate 16 0) sixteen 0
      [.string [104, 101, 97, 100, 101, 114, 0], .long64 7 (by decide)] := by
  refine (stream_roundtrip_iff .little cursor_sixteen _).mpr ?_
  intro done it rest hsplit hdone hit
  have htotal : 19 = streamSize done + (it.size + streamSize rest) := by
    have hsum := congrArg streamSize hsplit
    rwa [streamSize, streamSize, List.map_append, List.sum_append] at hsum
  rw [i32_eq_self ⟨by omega, by omega⟩]
  exact hit

/-- A string of `2 ^ 31` bytes passes the space test of a buffer of sixteen. -/
theorem stream_roundtrip_overflow :
    ¬ StreamBehaves .little (List.replicate 16 0) sixteen 0
      [.string (List.replicate (2 ^ 31) 65)] := by
  intro hb
  have hsize : (Item.string (List.replicate (2 ^ 31) 65)).size = 4 + 2 ^ 31 := by
    rw [Item.size, List.length_replicate]
  have hrefused := hb.2 [] _ [] rfl (by decide) (by rw [hsize]; decide)
  have hlt := (putItem_refused_iff .little cursor_sixteen [] _ (by decide)).mp hrefused
  rw [hsize] at hlt
  revert hlt
  decide +kernel

end MySrc
