import MySrc.CxxUtils.ConfigLoad

/-!
# MySrc.CxxUtils.ConfigSyntax

The two ways to write a binding that the header of `config_file.h` names,
`[PREFIX]` with `K=V` and `PREFIX.K V`, and for which values they say the same.

`loadline` looks for `=` before it looks for a tab, and for a tab before it
looks for a blank, each in the whole line, so a value with such a character in
it can move the place where the second form is cut.
-/

namespace MySrc.ConfigFile

open Lib

variable {E : UnorderedMap Str Str}

/-- A prefix or a key that stands for itself in both forms. -/
structure Name (s : Str) : Prop where
  ne_nil : s ≠ []
  newline : 10 ∉ s
  blank : 32 ∉ s
  tab : 9 ∉ s
  assign : 61 ∉ s
  opening : 91 ∉ s
  closing : 93 ∉ s
  comment : s.head? ≠ some 35

/-- A value of one line, with no blanks around it. -/
structure Value (s : Str) : Prop where
  newline : 10 ∉ s
  ends : NoBlankEnds s

/-- `P.K` -/
def dotted (P K : Str) : Str := P ++ 46 :: K

/-- `K=V` -/
def assignLine (K V : Str) : Str := K ++ 61 :: V

/-- `P.K V` -/
def pairLine (P K : Str) (sep : UInt8) (V : Str) : Str := dotted P K ++ sep :: V

/-! ## what a line is cut into -/

theorem idxOf?_append_cons {c : UInt8} {a : Str} (h : c ∉ a) (b : Str) :
    (a ++ c :: b).idxOf? c = some a.length := by
  rw [List.idxOf?_eq_some_iff]
  refine ⟨by simp, by simp, fun j hj => ?_⟩
  rw [List.getElem_append_left hj]
  exact fun heq => h (heq ▸ List.getElem_mem hj)

/-- Text that is not empty, a comment or a section head. -/
structure Ordinary (s : Str) : Prop where
  ne_nil : s ≠ []
  comment : s.head? ≠ some 35
  opening : s.head? ≠ some 91

/-- A line that is no comment and no section head is sorted by its first `=`, then by its first
blank. -/
theorem classify_of_ordinary {s : Str} (h : Ordinary s) :
    classify s =
      match s.idxOf? 61 with
      | some pos => .assign (s.take pos) (s.drop (pos + 1))
      | none =>
          match (s.idxOf? 9).or (s.idxOf? 32) with
          | some pos => .pair (s.take pos) (s.drop (pos + 1))
          | none => .bad := by
  have hcomment : s.idxOf? 35 ≠ some 0 := by
    intro hidx
    obtain ⟨hlt, hhead, -⟩ := List.idxOf?_eq_some_iff.mp hidx
    exact h.comment (by rw [List.head?_eq_getElem?, List.getElem?_eq_getElem hlt, hhead])
  rw [classify, if_neg (not_or.mpr ⟨h.ne_nil, hcomment⟩)]
  exact if_neg fun hhead => h.opening hhead.1

/-- A line that begins with a name is ordinary. -/
theorem Name.ordinary {P : Str} (h : Name P) (rest : Str) : Ordinary (P ++ rest) := by
  have hhead : (P ++ rest).head? = P.head? := List.head?_append_of_ne_nil _ h.ne_nil
  refine ⟨by simp [h.ne_nil], by rw [hhead]; exact h.comment, ?_⟩
  rw [hhead]
  exact fun hopen => h.opening (List.mem_of_head? hopen)

section

variable {P K V : Str} {sep : UInt8}

/-- The line `K=V` is an assignment. -/
theorem classify_assignLine (hK : Name K) (V : Str) :
    classify (assignLine K V) = .assign K V := by
  rw [assignLine, classify_of_ordinary (hK.ordinary _), idxOf?_append_cons hK.assign]
  simp

/-- The line `P.K V` is a pair, when there is no `=` in it and no tab in front of its blank. -/
theorem classify_pairLine (hP : Name P) (hK : Name K) (hsep : sep = 32 ∨ sep = 9)
    (hassign : 61 ∉ V) (htab : sep = 32 → 9 ∉ V) :
    classify (pairLine P K sep V) = .pair (dotted P K) V := by
  have h61 : 61 ∉ pairLine P K sep V := by
    rcases hsep with rfl | rfl <;>
      simp [pairLine, dotted, hP.assign, hK.assign, hassign]
  have hord : Ordinary (pairLine P K sep V) := by
    rw [pairLine, dotted, List.append_assoc]
    exact hP.ordinary _
  have hcut : ((pairLine P K sep V).idxOf? 9).or ((pairLine P K sep V).idxOf? 32) =
      some (dotted P K).length := by
    rcases hsep with rfl | rfl
    · have h9 : 9 ∉ pairLine P K 32 V := by
        simp [pairLine, dotted, hP.tab, hK.tab, htab rfl]
      rw [List.idxOf?_eq_none_iff.mpr h9, Option.none_or, pairLine]
      exact idxOf?_append_cons (by simp [dotted, hP.blank, hK.blank]) V
    · rw [pairLine, idxOf?_append_cons (by simp [dotted, hP.tab, hK.tab]) V, Option.some_or]
  rw [classify_of_ordinary hord, List.idxOf?_eq_none_iff.mpr h61]
  simp only [hcut]
  simp [pairLine]

/-- Where ordinary text with an item is cut, and what the value is. -/
theorem item_eq_some {s : Str} (hord : Ordinary s) {p : Str} {item : ConfigItem}
    (h : (classify s).item p = some item) :
    ∃ pos, (s.idxOf? 61 = some pos ∨
        s.idxOf? 61 = none ∧ (s.idxOf? 9).or (s.idxOf? 32) = some pos) ∧
      item.m_value = trim (s.drop (pos + 1)) := by
  have hvalue : ∀ {key value : Str}, trimmedItem key value = some item →
      item.m_value = trim value := by
    intro key value hitem
    rw [trimmedItem] at hitem
    split at hitem
    · cases hitem
      rfl
    · cases hitem
  rw [classify_of_ordinary hord] at h
  cases h61 : s.idxOf? 61 with
  | some pos =>
      rw [h61] at h
      exact ⟨pos, .inl rfl, hvalue h⟩
  | none =>
      rw [h61] at h
      cases hcut : (s.idxOf? 9).or (s.idxOf? 32) with
      | some pos =>
          simp only [hcut] at h
          exact ⟨pos, .inr ⟨rfl, rfl⟩, hvalue h⟩
      | none =>
          simp only [hcut] at h
          cases h

theorem trim_isPrefix_of_head {s : Str} (h : ∀ c : UInt8, c = 32 ∨ c = 9 → s.head? ≠ some c) :
    trim s <+: s := by
  have hstrip : ∀ (c : UInt8) {t : Str}, t.head? ≠ some c → strip c t <+: t := by
    intro c t hhead
    rw [strip, dropWhile_of_head hhead]
    exact List.rdropWhile_prefix _ _
  have h32 := hstrip 32 (h 32 (.inl rfl))
  refine (hstrip 9 ?_).trans h32
  intro h9
  obtain ⟨t, ht⟩ := h32
  refine h 9 (.inr rfl) ?_
  rw [← ht, List.head?_append_of_ne_nil, h9]
  rintro hnil
  simp [hnil] at h9

/-- Text that `trim` leaves does not end in a blank. -/
theorem getLast?_of_trim_eq_self {s : Str} (h : trim s = s) {c : UInt8} (hc : c = 32 ∨ c = 9) :
    s.getLast? ≠ some c := by
  have hlast : ∀ {d : UInt8}, strip d s = s → s.getLast? ≠ some d := by
    intro d hd hlast
    have hne : s ≠ [] := by
      rintro rfl
      simp at hlast
    have hdrop : s.dropWhile (· = d) = s :=
      (List.dropWhile_suffix _).eq_of_length_le (by
        have hle := (List.rdropWhile_prefix (· = d) (s.dropWhile (· = d))).length_le
        rw [show (s.dropWhile (· = d)).rdropWhile (· = d) = s from hd] at hle
        exact hle)
    rw [strip, hdrop, List.rdropWhile_eq_self_iff] at hd
    refine hd hne ?_
    rw [List.getLast?_eq_some_getLast hne] at hlast
    simpa using hlast
  have h32 : strip 32 s = s :=
    (infix_strip 32 s).eq_of_length_le (by
      have hle := (infix_strip 9 (strip 32 s)).length_le
      rw [show strip 9 (strip 32 s) = s from h] at hle
      exact hle)
  rcases hc with rfl | rfl
  · exact hlast h32
  · refine hlast ?_
    rw [trim, h32] at h
    exact h

/-- The second form is cut behind the key: nothing in the value is looked for
before the separator, there is a value, and no character ends the line early. -/
def CutAtKey (P K : Str) (sep : UInt8) (V : Str) : Prop :=
  V ≠ [] ∧ 61 ∉ V ∧ (sep = 32 → 9 ∉ V) ∧ ∀ s ∈ [P, K, V], 0 ∉ s ∧ 13 ∉ s

theorem text_isPrefix_of (l : Str) : text l <+: l :=
  (List.takeWhile_prefix _).trans (List.takeWhile_prefix _)

theorem Ordinary.of_prefix {s t : Str} (h : Ordinary s) (hpre : t <+: s) (hne : t ≠ []) :
    Ordinary t := by
  obtain ⟨u, rfl⟩ := hpre
  have hhead : (t ++ u).head? = t.head? := List.head?_append_of_ne_nil _ hne
  exact ⟨hne, hhead ▸ h.comment, hhead ▸ h.opening⟩

/-- A character that is looked for and found does not stand in the key. -/
theorem length_le_of_idxOf? {key rest t : Str} {c : UInt8} {pos : Nat} (hc : c ∉ key)
    (hpre : t <+: key ++ rest) (h : t.idxOf? c = some pos) :
    key.length ≤ pos ∧ (key ++ rest)[pos]? = some c := by
  obtain ⟨hlt, heq, -⟩ := List.idxOf?_eq_some_iff.mp h
  have hpos : (key ++ rest)[pos]? = some c := by
    obtain ⟨u, hu⟩ := hpre
    rw [← hu, List.getElem?_append_left hlt, List.getElem?_eq_getElem hlt, heq]
  refine ⟨Nat.le_of_not_lt fun hlt' => hc ?_, hpos⟩
  rw [List.getElem?_append_left hlt'] at hpos
  exact List.mem_of_getElem? hpos

/-- Where the line is cut: behind the key, or later. -/
theorem cut_of_prefix (hP : Name P) (hK : Name K) {t : Str}
    (hpre : t <+: pairLine P K sep V) {pos : Nat}
    (hpos : t.idxOf? 61 = some pos ∨
      t.idxOf? 61 = none ∧ (t.idxOf? 9).or (t.idxOf? 32) = some pos) :
    (dotted P K).length ≤ pos ∧ pos < t.length := by
  have hlt : ∀ {c : UInt8}, t.idxOf? c = some pos → pos < t.length := fun h =>
    (List.idxOf?_eq_some_iff.mp h).1
  have h61 : 61 ∉ dotted P K := by simp [dotted, hP.assign, hK.assign]
  have h9 : 9 ∉ dotted P K := by simp [dotted, hP.tab, hK.tab]
  have h32 : 32 ∉ dotted P K := by simp [dotted, hP.blank, hK.blank]
  rcases hpos with h | ⟨-, h⟩
  · exact ⟨(length_le_of_idxOf? h61 hpre h).1, hlt h⟩
  · rcases Option.or_eq_some_iff.mp h with h | ⟨-, h⟩
    · exact ⟨(length_le_of_idxOf? h9 hpre h).1, hlt h⟩
    · exact ⟨(length_le_of_idxOf? h32 hpre h).1, hlt h⟩

theorem newline_notMem_pairLine (hP : Name P) (hK : Name K) (hV : Value V)
    (hsep : sep = 32 ∨ sep = 9) : 10 ∉ pairLine P K sep V := by
  rcases hsep with rfl | rfl <;>
    simp [pairLine, dotted, hP.newline, hK.newline, hV.newline]

theorem Name.head_ne_blank (hP : Name P) (rest : Str) {c : UInt8} (hc : c = 32 ∨ c = 9) :
    (P ++ rest).head? ≠ some c := by
  rw [List.head?_append_of_ne_nil _ hP.ne_nil]
  intro hhead
  rcases hc with rfl | rfl
  · exact hP.blank (List.mem_of_head? hhead)
  · exact hP.tab (List.mem_of_head? hhead)

/-- **The whole line**: when the second form yields the value, the line was
read to its end and cut behind the key. -/
theorem whole_of_item (hP : Name P) (hK : Name K) (hV : Value V) (hsep : sep = 32 ∨ sep = 9)
    {p : Str} (h : (lineOf (pairLine P K sep V)).item p = some ⟨dotted P K, V⟩) :
    trim (text (pairLine P K sep V)) = pairLine P K sep V ∧
      ((pairLine P K sep V).idxOf? 61 = some (dotted P K).length ∨
        (pairLine P K sep V).idxOf? 61 = none ∧
          ((pairLine P K sep V).idxOf? 9).or ((pairLine P K sep V).idxOf? 32) =
            some (dotted P K).length) := by
  have hassoc : pairLine P K sep V = P ++ (46 :: K ++ sep :: V) := by simp [pairLine, dotted]
  rw [lineOf, strline_of_notMem (newline_notMem_pairLine hP hK hV hsep)] at h
  have hne : trim (text (pairLine P K sep V)) ≠ [] := by
    intro hnil
    rw [hnil] at h
    cases h
  have hpre : trim (text (pairLine P K sep V)) <+: pairLine P K sep V := by
    have htext := text_isPrefix_of (pairLine P K sep V)
    refine (trim_isPrefix_of_head fun c hc hhead => ?_).trans htext
    obtain ⟨u, hu⟩ := htext
    refine hP.head_ne_blank (46 :: K ++ sep :: V) hc ?_
    rw [← hassoc, ← hu, List.head?_append_of_ne_nil, hhead]
    rintro hnil
    simp [hnil] at hhead
  have hord : Ordinary (pairLine P K sep V) := hassoc ▸ hP.ordinary _
  obtain ⟨pos, hpos, hvalue⟩ := item_eq_some (hord.of_prefix hpre hne) h
  obtain ⟨hkey, hlt⟩ := cut_of_prefix hP hK hpre hpos
  -- the value leaves no room for anything but the separator in front of it
  have hlen := (infix_trim ((trim (text (pairLine P K sep V))).drop (pos + 1))).length_le
  rw [← hvalue, List.length_drop] at hlen
  have hle := hpre.length_le
  have hline : (pairLine P K sep V).length = (dotted P K).length + 1 + V.length := by
    rw [pairLine, List.length_append, List.length_cons]
    omega
  dsimp only at hlen
  have hwhole := hpre.eq_of_length (by omega)
  rw [hwhole] at hpos hlen hlt
  obtain rfl : pos = (dotted P K).length := by omega
  exact ⟨hwhole, hpos⟩

/-- A line that is its own text is plain. -/
theorem plain_of_text_eq {l : Str} (h10 : 10 ∉ l) (h : text l = l) : Plain l := by
  refine ⟨fun h0 => ?_, h10, fun h13 => ?_⟩
  · rw [← h] at h0
    exact nul_notMem_cStr l ((List.takeWhile_prefix _).subset h0)
  · rw [← h] at h13
    simpa using List.mem_takeWhile_imp h13

/-- A pair that is read as it was written is cut at its key. -/
theorem cutAtKey_of_item (hP : Name P) (hK : Name K) (hV : Value V)
    (hsep : sep = 32 ∨ sep = 9) {p : Str}
    (h : (lineOf (pairLine P K sep V)).item p = some ⟨dotted P K, V⟩) : CutAtKey P K sep V := by
  obtain ⟨hwhole, hpos⟩ := whole_of_item hP hK hV hsep h
  have htext : text (pairLine P K sep V) = pairLine P K sep V := by
    refine (text_isPrefix_of _).eq_of_length_le ?_
    have hle := (infix_trim (text (pairLine P K sep V))).length_le
    rwa [hwhole] at hle
  rw [htext] at hwhole
  have hfound : ∀ {c : UInt8},
      (pairLine P K sep V).idxOf? c = some (dotted P K).length → sep = c := by
    intro c hidx
    obtain ⟨hlt, hc, -⟩ := List.idxOf?_eq_some_iff.mp hidx
    simpa [pairLine] using hc
  have h61 : 61 ∉ pairLine P K sep V := by
    rw [← List.idxOf?_eq_none_iff]
    refine (hpos.resolve_left fun hidx => ?_).1
    have h61 := hfound hidx
    rcases hsep with rfl | rfl <;> simp at h61
  refine ⟨?_, fun hmem => h61 (by simp [pairLine, hmem]), ?_, ?_⟩
  · -- without a value the separator is trimmed off
    rintro rfl
    exact getLast?_of_trim_eq_self hwhole hsep List.getLast?_concat
  · rintro rfl hmem
    rcases hpos with h | ⟨-, h⟩
    · exact h61 (List.isSome_idxOf?.mp (by rw [h]; rfl))
    · rcases Option.or_eq_some_iff.mp h with h9 | ⟨h9, -⟩
      · simpa using hfound h9
      · exact List.idxOf?_eq_none_iff.mp h9 (by simp [pairLine, hmem])
  · have hplain := plain_of_text_eq (newline_notMem_pairLine hP hK hV hsep) htext
    simp only [Plain, pairLine, dotted, List.mem_append, List.mem_cons, not_or] at hplain
    obtain ⟨⟨⟨hP0, -, hK0⟩, -, hV0⟩, -, ⟨⟨hP13, -, hK13⟩, -, hV13⟩⟩ := hplain
    simp [hP0, hK0, hV0, hP13, hK13, hV13]

theorem Name.noBlankEnds_dotted (hP : Name P) (hK : Name K) : NoBlankEnds (dotted P K) := by
  intro c hc
  refine ⟨hP.head_ne_blank _ hc, ?_⟩
  have hlast : (dotted P K).getLast? = K.getLast? := by
    rw [dotted, List.append_cons, List.getLast?_append_of_ne_nil _ hK.ne_nil]
  rw [hlast]
  intro hK'
  rcases hc with rfl | rfl
  · exact hK.blank (List.mem_of_getLast? hK')
  · exact hK.tab (List.mem_of_getLast? hK')

/-- A name and a value are not trimmed. -/
theorem trimmedItem_eq (hP : Name P) (hK : Name K) (hV : Value V) :
    trimmedItem (dotted P K) V = some ⟨dotted P K, V⟩ := by
  rw [trimmedItem, trim_eq_self (hP.noBlankEnds_dotted hK), trim_eq_self hV.ends]
  simp [dotted]

/-- The second form yields the value exactly when it is cut behind the key. -/
theorem pairLine_item_iff (hP : Name P) (hK : Name K) (hV : Value V)
    (hsep : sep = 32 ∨ sep = 9) (p : Str) :
    (lineOf (pairLine P K sep V)).item p = some ⟨dotted P K, V⟩ ↔ CutAtKey P K sep V := by
  refine ⟨cutAtKey_of_item hP hK hV hsep, ?_⟩
  rintro ⟨hne, hassign, htab, hplain⟩
  have hends : NoBlankEnds (pairLine P K sep V) := by
    intro c hc
    refine ⟨?_, ?_⟩
    · rw [pairLine, dotted, List.append_assoc]
      exact hP.head_ne_blank _ hc
    · rw [pairLine, List.append_cons, List.getLast?_append_of_ne_nil _ hne]
      exact (hV.ends c hc).2
  have hline : Plain (pairLine P K sep V) := by
    have hnl := newline_notMem_pairLine hP hK hV hsep
    simp only [List.forall_mem_cons] at hplain
    refine ⟨?_, hnl, ?_⟩ <;> rcases hsep with rfl | rfl <;> simp [pairLine, dotted, hplain]
  rw [lineOf_of_plain hline hends, classify_pairLine hP hK hsep hassign htab]
  exact trimmedItem_eq hP hK hV

/-- The first form yields the value, whatever it is, unless the line ends early. -/
theorem assignLine_item (hP : Name P) (hK : Name K) (hV : Value V)
    (hplain : ∀ s ∈ [P, K, V], 0 ∉ s ∧ 13 ∉ s) :
    (lineOf (assignLine K V)).item (P ++ [46]) = some ⟨dotted P K, V⟩ := by
  simp only [List.forall_mem_cons] at hplain
  have hends : NoBlankEnds (assignLine K V) := by
    intro c hc
    refine ⟨hK.head_ne_blank _ hc, ?_⟩
    rw [assignLine]
    by_cases hne : V = []
    · rw [hne, List.getLast?_concat]
      rcases hc with rfl | rfl <;> simp
    · rw [List.append_cons, List.getLast?_append_of_ne_nil _ hne]
      exact (hV.ends c hc).2
  have hline : Plain (assignLine K V) := by
    refine ⟨?_, ?_, ?_⟩ <;> simp [assignLine, hplain, hK.newline, hV.newline]
  rw [lineOf_of_plain hline hends, classify_assignLine hK]
  have hdotted : P ++ [46] ++ K = dotted P K := by simp [dotted]
  rw [Line.item, hdotted]
  exact trimmedItem_eq hP hK hV

/-! ## the two forms as files -/

/-- The lines `[P]` and `K=V`. -/
def sectionFile (P K V : Str) : Str := headLine P ++ 10 :: (assignLine K V ++ 10 :: [])

/-- The line `P.K V`. -/
def pairFile (P K : Str) (sep : UInt8) (V : Str) : Str := pairLine P K sep V ++ 10 :: []

/-- What a single line binds. -/
theorem bound_single_iff (p : Str) (l : Line) (q v : Str) :
    (firstItem (itemsOf p [l]) q).map (·.m_value) = some v ↔ l.item p = some ⟨q, v⟩ := by
  rw [itemsOf, itemsOf, List.append_nil]
  cases l.item p with
  | none => simp [firstItem]
  | some item =>
      obtain ⟨key, value⟩ := item
      rw [Option.toList_some, firstItem_singleton]
      by_cases hq : key = q <;> simp [hq]

/-- The file of one pair binds its key to its value exactly when the line is cut at the key. -/
theorem bound_pairFile_iff (file : ConfigFile E) (hP : Name P) (hK : Name K) (hV : Value V)
    (hsep : sep = 32 ∨ sep = 9) (hlen : (pairLine P K sep V).length < kMaxLineLength) :
    (file.load (some (pairFile P K sep V))).1.bound (dotted P K) = some V ↔
      CutAtKey P K sep V := by
  have hnl := newline_notMem_pairLine hP hK hV hsep
  rw [pairFile, (load_eq file (.line hnl hlen shortLines_nil)).2, linesRead_line hnl]
  rw [← pairLine_item_iff hP hK hV hsep file.m_prefix]
  exact bound_single_iff _ _ _ _

/-- The file of one section binds its key to its value. -/
theorem bound_sectionFile (file : ConfigFile E) (hP : Name P) (hK : Name K) (hV : Value V)
    (hhead : (headLine P).length < kMaxLineLength)
    (hassign : (assignLine K V).length < kMaxLineLength)
    (hplain : ∀ s ∈ [P, K, V], 0 ∉ s ∧ 13 ∉ s) :
    (file.load (some (sectionFile P K V))).1.bound (dotted P K) = some V := by
  have hnl1 : 10 ∉ headLine P := by simp [headLine, hP.newline]
  have hnl2 : 10 ∉ assignLine K V := by simp [assignLine, hK.newline, hV.newline]
  have hPplain : Plain P := by
    simp only [List.forall_mem_cons] at hplain
    exact ⟨hplain.1.1, hP.newline, hplain.1.2⟩
  rw [sectionFile, (load_eq file (.line hnl1 hhead (.line hnl2 hassign shortLines_nil))).2,
    linesRead_line hnl1, linesRead_line hnl2, List.map_cons, lineOf_headLine hPplain]
  exact (bound_single_iff _ _ _ _).mpr (assignLine_item hP hK hV hplain)

/-- **The two forms** bind `P.K` to `V`, in any object, exactly when the second
is cut behind the key. -/
theorem syntaxes_agree_iff (file : ConfigFile E) (hP : Name P) (hK : Name K) (hV : Value V)
    (hsep : sep = 32 ∨ sep = 9) (hhead : (headLine P).length < kMaxLineLength)
    (hassign : (assignLine K V).length < kMaxLineLength)
    (hpair : (pairLine P K sep V).length < kMaxLineLength) :
    ((file.load (some (sectionFile P K V))).1.bound (dotted P K) = some V ∧
        (file.load (some (pairFile P K sep V))).1.bound (dotted P K) = some V) ↔
      CutAtKey P K sep V := by
  rw [bound_pairFile_iff file hP hK hV hsep hpair]
  exact ⟨And.right, fun h => ⟨bound_sectionFile file hP hK hV hhead hassign h.2.2.2, h⟩⟩

end

/-- `[p]` with `k=a b`, and `p.k`, a tab and `a b`. -/
theorem syntaxes_agree_ab :
    ((new alistEngine).load (some (sectionFile [112] [107] [97, 32, 98]))).1.bound
          (dotted [112] [107]) = some [97, 32, 98] ∧
      ((new alistEngine).load (some (pairFile [112] [107] 9 [97, 32, 98]))).1.bound
          (dotted [112] [107]) = some [97, 32, 98] := by
  have hP : Name [112] := by constructor <;> decide
  have hK : Name [107] := by constructor <;> decide
  have hV : Value [97, 32, 98] := by
    refine ⟨by decide, ?_⟩
    rintro c (rfl | rfl) <;> decide
  refine (syntaxes_agree_iff (new alistEngine) hP hK hV (.inr rfl) (by decide) (by decide)
    (by decide)).mpr ⟨by decide, by decide, by decide, by decide⟩

/-- `p.k` and `a=b` behind a blank is read as an assignment to `p.k a`. -/
theorem syntaxes_differ :
    ¬ ∀ (P K V : Str) (sep : UInt8), Name P → Name K → Value V → sep = 32 ∨ sep = 9 →
        (headLine P).length < kMaxLineLength → (assignLine K V).length < kMaxLineLength →
        (pairLine P K sep V).length < kMaxLineLength →
        ((new alistEngine).load (some (sectionFile P K V))).1.bound (dotted P K) = some V ∧
          ((new alistEngine).load (some (pairFile P K sep V))).1.bound (dotted P K) =
            some V := by
  intro h
  have hP : Name [112] := by constructor <;> decide
  have hK : Name [107] := by constructor <;> decide
  have hV : Value [97, 61, 98] := by
    refine ⟨by decide, ?_⟩
    rintro c (rfl | rfl) <;> decide
  have hbound := (h [112] [107] [97, 61, 98] 32 hP hK hV (.inl rfl) (by decide) (by decide)
    (by decide)).2
  revert hbound
  decide

end MySrc.ConfigFile
