import MySrc.TemplateHttp.BufferManage

/-!
# MySrc.TemplateHttp.BufferStrings

The three overloads of `CBufferManage::GetString`.  They test the space behind the length
word in three ways, at three places relative to the move of the cursor;
`stringsAgree_iff` says for which buffers this makes no difference.
-/

namespace MySrc

open Lib

section

variable {mem : List UInt8} {b : CBufferManage} {base cur : Nat}

/-- `GetString` copies a string that lies in the buffer, and a NUL behind it. -/
theorem Cursor.getStringBuf_eq (c : Cursor mem b base cur) (host : Endian) {s dst : List UInt8}
    {iLength : Int} (h : (cur + (4 + s.length : Nat) : Int) ≤ b.m_iBufferLen)
    (hword : wordAt mem (base + cur) = s.length) (hs : HoldsAt mem (base + (cur + 4)) s)
    (hcap : (s.length : Int) < iLength) (hdst : iLength ≤ dst.length) :
    getStringBuf host mem b (some dst) iLength =
      .ok (.ok, b.seek (cur + (4 + s.length)), some (splice dst 0 (s ++ [0])), iLength) := by
  have hlen := c.len_lt
  have hend4 : i32 (b.m_iOffset + 4) = (cur + 4 : Nat) := c.i32_add (n := 4) (by omega)
  have htest : i32 (b.m_iOffset + s.length) = (cur + s.length : Nat) := c.i32_add (by omega)
  have hend : i32 (((cur + 4 : Nat) : Int) + s.length) = (cur + (4 + s.length) : Nat) := by
    rw [i32_eq_self ⟨by omega, by omega⟩]
    omega
  have c' := c.behind_word (by omega)
  have hptr : pointerAt b.m_szBuffer ((cur + 4 : Nat) : Int) = .ok (base + (cur + 4)) :=
    c'.pointerAt_eq
  have hcopy : memcpyTo dst 0 s = .ok (splice dst 0 s) := memcpyTo_eq_splice (by omega)
  have hnul : memcpyTo (splice dst 0 s) s.length [0] = .ok (splice dst 0 (s ++ [0])) := by
    have hsplice : splice (splice dst 0 s) (0 + s.length) [0] = splice dst 0 (s ++ [0]) :=
      splice_splice (by omega)
    rw [Nat.zero_add] at hsplice
    rw [memcpyTo_eq_splice, hsplice]
    rw [length_splice (by omega), List.length_singleton]
    omega
  unfold getStringBuf
  dsimp only
  rw [if_neg (by omega), hend4, if_neg (by omega), c.loadInt_eq host (by omega), ok_bind, hword,
    if_neg (by omega), htest, if_neg (by omega), Int.toNat_natCast, hptr, ok_bind,
    c'.memcpyFrom_eq hs, ok_bind, hcopy, ok_bind, hnul, ok_bind, hend]
  rfl

end

/-- All three overloads return, and all succeed with the same string and the same cursor,
or all fail and leave the cursor. -/
def StringsAgree (host : Endian) (mem : List UInt8) (b : CBufferManage) (strValue dst : List UInt8)
    (iLength : Int) (pBuffer : Option Int) (iLength' : Int) : Prop :=
  ∃ r₁ b₁ s r₂ b₂ szBuffer n₂ r₃ b₃ p n₃,
    getString host mem b strValue = .ok (r₁, b₁, s) ∧
    getStringBuf host mem b (some dst) iLength = .ok (r₂, b₂, szBuffer, n₂) ∧
    getStringPtr host mem b pBuffer iLength' = .ok (r₃, b₃, p, n₃) ∧
    ((r₁ = .ok ∧ r₂ = .ok ∧ r₃ = .ok ∧ b₂ = b₁ ∧ b₃ = b₁ ∧
        (∃ dst', szBuffer = some dst' ∧ s ++ [0] <+: dst') ∧ stringAt mem p n₃ = .ok s) ∨
      (r₁ ≠ .ok ∧ r₂ ≠ .ok ∧ r₃ ≠ .ok ∧ b₁ = b ∧ b₂ = b ∧ b₃ = b))

/-- The string at the cursor, with its length word, lies in the buffer. -/
def StringInside (mem : List UInt8) (b : CBufferManage) (base cur : Nat) : Prop :=
  (cur + 4 : Int) ≤ b.m_iBufferLen ∧ 0 ≤ wordAt mem (base + cur) ∧
    cur + 4 + wordAt mem (base + cur) ≤ b.m_iBufferLen

section

variable {host : Endian} {mem : List UInt8} {b : CBufferManage} {base cur : Nat}

theorem StringInside.exists_string (hin : StringInside mem b base cur) (c : Cursor mem b base cur) :
    ∃ s : List UInt8, wordAt mem (base + cur) = s.length ∧ HoldsAt mem (base + (cur + 4)) s ∧
      (cur + (4 + s.length : Nat) : Int) ≤ b.m_iBufferLen := by
  obtain ⟨h4, hpos, hend⟩ := hin
  have hinside := c.inside
  have hlen : ((mem.drop (base + (cur + 4))).take (wordAt mem (base + cur)).toNat).length =
      (wordAt mem (base + cur)).toNat := by
    rw [List.length_take, List.length_drop]
    omega
  refine ⟨(mem.drop (base + (cur + 4))).take (wordAt mem (base + cur)).toNat, ?_,
    List.take_prefix _ _, ?_⟩
  · rw [hlen]
    omega
  · rw [hlen]
    omega

variable (host) in
/-- A length word without its string behind it moves the cursor, or has bytes read from
behind the buffer. -/
theorem getString_of_not_inside (c : Cursor mem b base cur)
    (hmem : base + b.m_iBufferLen = mem.length) (h4 : (cur + 4 : Int) ≤ b.m_iBufferLen)
    (hout : ¬ StringInside mem b base cur) (strValue : List UInt8) :
    getString host mem b strValue = .ok (.overflow, b.seek (cur + 4), strValue) ∨
      getString host mem b strValue = .error .outOfBounds := by
  have hend4 : i32 (b.m_iOffset + 4) = (cur + 4 : Nat) := c.i32_add (n := 4) h4
  have c' := c.behind_word h4
  have hptr : pointerAt b.m_szBuffer ((cur + 4 : Nat) : Int) = .ok (base + (cur + 4)) :=
    c'.pointerAt_eq
  unfold getString
  rw [hend4, if_neg (by omega), c.loadInt_eq host h4, ok_bind]
  dsimp only
  split
  · exact .inl rfl
  · next htest =>
      -- the sum has wrapped around
      have hcopy : memcpyFrom mem (base + (cur + 4)) (wordAt mem (base + cur)).toNat =
          .error .outOfBounds := by
        refine if_neg fun hle => hout ⟨h4, ?_, ?_⟩
        all_goals omega
      right
      rw [hptr, ok_bind, hcopy]
      rfl

/-- Without room for a length word all overloads give up, unless the test wraps around. -/
theorem stringsAgree_of_short (c : Cursor mem b base cur) (h4 : b.m_iBufferLen < cur + 4)
    (hcur : cur + 4 < 2 ^ 31) (strValue dst : List UInt8) {iLength : Int} (hpos : 0 < iLength)
    (pBuffer : Option Int) (iLength' : Int) :
    StringsAgree host mem b strValue dst iLength pBuffer iLength' := by
  have htest : i32 (b.m_iOffset + 4) > b.m_iBufferLen := by
    rw [c.offset, i32_eq_self ⟨by omega, by omega⟩]
    omega
  refine ⟨.overflow, b, strValue, .overflow, b, some dst, iLength, .overflow, b, pBuffer, iLength',
    ?_, ?_, ?_, .inr ⟨by decide, by decide, by decide, rfl, rfl, rfl⟩⟩
  · rw [getString, if_pos htest]
    rfl
  · unfold getStringBuf
    dsimp only
    rw [if_neg (by omega), if_pos htest]
    rfl
  · rw [getStringPtr, if_pos htest]
    rfl

/-- The test for the length word wraps around at the end of the largest buffers. -/
theorem getString_of_wrapped (c : Cursor mem b base cur)
    (hmem : base + b.m_iBufferLen = mem.length) (h4 : b.m_iBufferLen < cur + 4)
    (hcur : 2 ^ 31 ≤ cur + 4) (strValue : List UInt8) :
    getString host mem b strValue = .error .outOfBounds := by
  have hlen := c.len_lt
  have hle := c.offset_le
  have htest : i32 (b.m_iOffset + 4) = b.m_iOffset + 4 - 2 ^ 32 := by
    rw [c.offset]
    exact i32_of_overflow (by omega) (by omega)
  have hload : loadInt host mem b.m_szBuffer b.m_iOffset = .error .outOfBounds := by
    rw [loadInt, c.pointerAt_eq, ok_bind, memcpyFrom, if_neg (by omega)]
    rfl
  have hoffset := c.offset
  unfold getString
  rw [htest, if_neg (by omega), hload]
  rfl

/-- A string that lies in the buffer is read by all overloads. -/
theorem stringsAgree_of_inside (c : Cursor mem b base cur) (hin : StringInside mem b base cur)
    (strValue : List UInt8) {dst : List UInt8} {iLength : Int} (hdst : iLength ≤ dst.length)
    (hcap : wordAt mem (base + cur) < iLength) (pBuffer : Option Int) (iLength' : Int) :
    StringsAgree host mem b strValue dst iLength pBuffer iLength' := by
  obtain ⟨s, hword, hs, hend⟩ := hin.exists_string c
  have c' := c.behind_word hin.1
  rw [hword] at hcap
  refine ⟨.ok, _, s, .ok, _, _, _, .ok, _, _, _, c.getString_eq host hend hword hs strValue,
    c.getStringBuf_eq host hend hword hs hcap hdst,
    c.getStringPtr_eq host hend hword pBuffer iLength',
    .inl ⟨rfl, rfl, rfl, rfl, rfl, ⟨_, rfl, ?_⟩, c'.stringAt_eq hs⟩⟩
  rw [splice, List.take_zero, List.nil_append]
  exact List.prefix_append _ _

variable (host) in
/-- **The three overloads** of `GetString` agree exactly when the whole string lies in the
buffer, or not even its length word does (and the test for that does not wrap around). -/
theorem stringsAgree_iff (c : Cursor mem b base cur) (hmem : base + b.m_iBufferLen = mem.length)
    (strValue : List UInt8) {dst : List UInt8} {iLength : Int} (hpos : 0 < iLength)
    (hdst : iLength ≤ dst.length)
    (hcap : StringInside mem b base cur → wordAt mem (base + cur) < iLength)
    (pBuffer : Option Int) (iLength' : Int) :
    StringsAgree host mem b strValue dst iLength pBuffer iLength' ↔
      StringInside mem b base cur ∨ (b.m_iBufferLen < cur + 4 ∧ cur + 4 < 2 ^ 31) := by
  constructor
  · rintro ⟨r₁, b₁, s, r₂, b₂, szBuffer, n₂, r₃, b₃, p, n₃, hstring, -, -, hagree⟩
    by_contra hcond
    obtain ⟨hout, hwrap⟩ := not_or.mp hcond
    by_cases h4 : (cur + 4 : Int) ≤ b.m_iBufferLen
    · rcases getString_of_not_inside host c hmem h4 hout strValue with hmoved | hfault
      · rw [hmoved] at hstring
        cases hstring
        -- a failed call has moved the cursor
        obtain ⟨hok, -⟩ | ⟨-, -, -, hstay, -⟩ := hagree
        · cases hok
        · have hoffset := congrArg CBufferManage.m_iOffset hstay
          rw [c.offset, CBufferManage.seek] at hoffset
          simp only at hoffset
          omega
      · rw [hfault] at hstring
        cases hstring
    · rw [getString_of_wrapped c hmem (by omega) (by omega)] at hstring
      cases hstring
  · rintro (hin | ⟨h4, hcur⟩)
    · exact stringsAgree_of_inside c hin strValue hdst (hcap hin) pBuffer iLength'
    · exact stringsAgree_of_short c h4 hcur strValue dst hpos pBuffer iLength'

end

/-- A buffer over a whole memory, with the cursor at its begin. -/
def wholeBuffer (mem : List UInt8) : CBufferManage := ⟨some 0, mem.length, 0⟩

theorem cursor_wholeBuffer {mem : List UInt8} (h : mem.length < 2 ^ 31) :
    Cursor mem (wholeBuffer mem) 0 0 where
  pointer := rfl
  offset := rfl
  offset_le := by simp [wholeBuffer]
  len_lt := by
    change (mem.length : Int) < 2 ^ 31
    omega
  inside := by simp [wholeBuffer]

/-- A string of one byte. -/
theorem stringsAgree_one :
    StringsAgree .little [0, 0, 0, 1, 65] (wholeBuffer [0, 0, 0, 1, 65]) [] [9, 9] 2 none 0 := by
  have hword : wordAt [0, 0, 0, 1, 65] (0 + 0) = 1 := by decide +kernel
  refine (stringsAgree_iff .little (cursor_wholeBuffer (by decide)) (by decide) [] (by decide)
    (by decide) ?_ none 0).mpr (.inl ?_)
  · exact fun _ => by rw [hword]; decide
  · rw [StringInside, hword]
    decide

/-- A length word of two with one byte behind it: `GetString(string&)` has moved the
cursor when it fails. -/
theorem getString_moves_cursor :
    Cursor [0, 0, 0, 2, 65] (wholeBuffer [0, 0, 0, 2, 65]) 0 0 ∧
      ¬ StringsAgree .little [0, 0, 0, 2, 65] (wholeBuffer [0, 0, 0, 2, 65]) [] [9, 9, 9] 3
        none 0 := by
  refine ⟨cursor_wholeBuffer (by decide), ?_⟩
  rintro ⟨r₁, b₁, s, r₂, b₂, szBuffer, n₂, r₃, b₃, p, n₃, hstring, -, -, hagree⟩
  have hmoved : getString .little [0, 0, 0, 2, 65] (wholeBuffer [0, 0, 0, 2, 65]) [] =
      .ok (.overflow, ⟨some 0, 5, 4⟩, []) := by
    decide +kernel
  rw [hmoved] at hstring
  cases hstring
  simp [wholeBuffer] at hagree

end MySrc
