import MySrc.TemplateHttp.HttpRequestPacket
import Mathlib.Data.List.TakeWhile
import Mathlib.Algebra.GroupWithZero.Nat

/-!
# MySrc.LogingameServer.CJson

Objects of strings in `logingame_server/src/main/cJSON.cpp`: how they are printed without
formatting, and how a printed object is parsed.

`printObject` is all of `cJSON_PrintUnformatted` on such an object.  `parseObject` is the part
of `cJSON_Parse` that reads one back; numbers, arrays and the like are not read.
`parsesStrings_parseObject` says that it is the inverse of printing.
-/

namespace MySrc
namespace LogingameServer

/-! ## printing -/

/-- A hexadecimal digit of `%04x`. -/
def hexChar (d : Nat) : UInt8 := UInt8.ofNat (if d < 10 then 48 + d else 87 + d)

/-- What `print_string_ptr` writes for a character. -/
def escapeChar (c : UInt8) : Str :=
  if 31 < c ∧ c ≠ 34 ∧ c ≠ 92 then [c]
  else if c = 92 then [92, 92]
  else if c = 34 then [92, 34]
  else if c = 8 then [92, 98]
  else if c = 12 then [92, 102]
  else if c = 10 then [92, 110]
  else if c = 13 then [92, 114]
  else if c = 9 then [92, 116]
  else [92, 117, 48, 48, hexChar (c.toNat / 16), hexChar (c.toNat % 16)]

/-- `print_string_ptr` -/
def printStringPtr (str : Str) : Str := 34 :: ((cStr str).flatMap escapeChar ++ [34])

/-- An item of an object: its name and its string. -/
def printItem (item : Str × Str) : Str := printStringPtr item.1 ++ 58 :: printStringPtr item.2

/-- The items of an object behind the first one. -/
def printMore (items : List (Str × Str)) : Str := items.flatMap fun item => 44 :: printItem item

/-- `print_object` without formatting -/
def printObject : List (Str × Str) → Str
  | [] => [123, 125]
  | item :: items => 123 :: (printItem item ++ (printMore items ++ [125]))

/-! ## parsing -/

/-- An item that is parsed: its name, and its `valuestring` unless that is null. -/
abbrev Item := Str × Option Str

/-- What is assumed of a parser: it reads printed objects of strings. -/
def ParsesStrings (parse : Str → Option (List Item)) : Prop :=
  ∀ items : List (Str × Str), (∀ item ∈ items, 0 ∉ item.1 ∧ 0 ∉ item.2) →
    parse (printObject items) = some (items.map fun item => (item.1, some item.2))

/-- `skip` -/
def skip (value : Str) : Str := value.dropWhile fun c => c ≠ 0 && c ≤ 32

/-- The value of a hexadecimal digit. -/
def hexValue (c : UInt8) : Nat := if c ≤ 57 then c.toNat - 48 else c.toNat - 87

/-- The character behind a backslash. -/
def unescapeChar (c : UInt8) : UInt8 :=
  if c = 98 then 8 else if c = 102 then 12 else if c = 110 then 10 else if c = 114 then 13
  else if c = 116 then 9 else c

/-- The loop of `parse_string` behind the quote, and the text behind the string.  Of the
escapes with a number those below `80` are read, which are one byte. -/
def parseChars : Str → Str × Str
  | [] => ([], [])
  | c :: rest =>
      if c = 34 then ([], rest)
      else if c = 92 then
        match rest with
        | [] => ([], [])
        | e :: rest =>
            if e = 117 then
              match rest with
              | _ :: _ :: hi :: lo :: rest =>
                  (UInt8.ofNat (16 * hexValue hi + hexValue lo) :: (parseChars rest).1,
                    (parseChars rest).2)
              | _ => ([], [])
            else (unescapeChar e :: (parseChars rest).1, (parseChars rest).2)
      else (c :: (parseChars rest).1, (parseChars rest).2)

/-- `parse_string` -/
def parseString : Str → Option (Str × Str)
  | 34 :: rest => some (parseChars rest)
  | _ => none

/-- A name, a colon and a string. -/
def parseItem (value : Str) : Option (Item × Str) := do
  let (name, value) ← parseString (skip value)
  match skip value with
  | 58 :: value =>
      let (valuestring, value) ← parseString (skip value)
      return ((name, some valuestring), skip value)
  | _ => none

/-- The loop of `parse_object`.  Every item takes some text, so `fuel` cannot run out before
the text does. -/
def parseMore : Nat → Str → Option (List Item)
  | 0, _ => none
  | fuel + 1, value =>
      match value with
      | 44 :: value => do
          let (item, value) ← parseItem value
          let items ← parseMore fuel value
          return item :: items
      | 125 :: _ => some []
      | _ => none

/-- `cJSON_Parse` on an object of strings. -/
def parseObject (value : Str) : Option (List Item) :=
  match skip value with
  | 123 :: value =>
      if (skip value).head? = some 125 then some []
      else do
        let (item, value) ← parseItem (skip value)
        let items ← parseMore (value.length + 1) value
        return item :: items
  | _ => none

/-! ## parsing what is printed -/

theorem hexValue_hexChar : ∀ n < 32,
    16 * hexValue (hexChar (n / 16)) + hexValue (hexChar (n % 16)) = n := by
  decide +kernel

theorem parseChars_plain {c : UInt8} (h34 : c ≠ 34) (h92 : c ≠ 92) (t : Str) :
    parseChars (c :: t) = (c :: (parseChars t).1, (parseChars t).2) := by
  rw [parseChars.eq_def]
  simp [h34, h92]

theorem parseChars_backslash {e : UInt8} (h : e ≠ 117) (t : Str) :
    parseChars (92 :: e :: t) = (unescapeChar e :: (parseChars t).1, (parseChars t).2) := by
  rw [parseChars.eq_def]
  simp [h]

/-- An escape by number stands for its low byte. -/
theorem parseChars_number (a b hi lo : UInt8) (t : Str) :
    parseChars (92 :: 117 :: a :: b :: hi :: lo :: t) =
      (UInt8.ofNat (16 * hexValue hi + hexValue lo) :: (parseChars t).1, (parseChars t).2) := by
  rw [parseChars.eq_def]
  simp

theorem parseChars_quote (t : Str) : parseChars (34 :: t) = ([], t) := by
  rw [parseChars.eq_def]
  simp

/-- A character that is printed is read back. -/
theorem parseChars_escapeChar (c : UInt8) (t : Str) :
    parseChars (escapeChar c ++ t) = (c :: (parseChars t).1, (parseChars t).2) := by
  unfold escapeChar
  split
  · next h => exact parseChars_plain h.2.1 h.2.2 t
  · next hspecial =>
      split_ifs with h92 h34 h8 h12 h10 h13 h9
      · subst h92; exact parseChars_backslash (by decide) t
      · subst h34; exact parseChars_backslash (by decide) t
      · subst h8; exact parseChars_backslash (by decide) t
      · subst h12; exact parseChars_backslash (by decide) t
      · subst h10; exact parseChars_backslash (by decide) t
      · subst h13; exact parseChars_backslash (by decide) t
      · subst h9; exact parseChars_backslash (by decide) t
      · have hlow : c.toNat < 32 := by
          have h31 : ¬ 31 < c := fun h => hspecial ⟨h, h34, h92⟩
          rw [UInt8.not_lt, UInt8.le_iff_toNat_le] at h31
          exact Nat.lt_succ_of_le h31
        refine (parseChars_number _ _ _ _ t).trans ?_
        rw [hexValue_hexChar c.toNat hlow, UInt8.ofNat_toNat]

/-- Escaped characters are read back, up to the quote. -/
theorem parseChars_flatMap (s t : Str) :
    parseChars (s.flatMap escapeChar ++ 34 :: t) = (s, t) := by
  induction s with
  | nil => exact parseChars_quote t
  | cons c s ih => rw [List.flatMap_cons, List.append_assoc, parseChars_escapeChar, ih]

/-- A string that is printed is read back. -/
theorem parseString_printStringPtr {s : Str} (h : 0 ∉ s) (t : Str) :
    parseString (printStringPtr s ++ t) = some (s, t) := by
  rw [printStringPtr, cStr_eq_self h, List.cons_append, List.append_assoc, List.singleton_append]
  exact congrArg some (parseChars_flatMap s t)

/-- Nothing is skipped in front of a visible character. -/
theorem skip_cons {c : UInt8} (h : 32 < c) (t : Str) : skip (c :: t) = c :: t := by
  rw [skip, List.dropWhile_cons, if_neg]
  simp [UInt8.not_le.mpr h]

theorem skip_printStringPtr (s t : Str) : skip (printStringPtr s ++ t) = printStringPtr s ++ t :=
  skip_cons (by decide) _

/-- A printed pair is parsed as the pair. -/
theorem parseItem_printItem {item : Str × Str} (hname : 0 ∉ item.1) (hvalue : 0 ∉ item.2)
    {c : UInt8} (hc : 32 < c) (t : Str) :
    parseItem (printItem item ++ c :: t) = some ((item.1, some item.2), c :: t) := by
  rw [printItem, List.append_assoc, List.cons_append, parseItem, skip_printStringPtr,
    parseString_printStringPtr hname]
  simp only [Option.bind_eq_bind, Option.bind_some]
  rw [skip_cons (by decide)]
  simp only
  rw [skip_printStringPtr, parseString_printStringPtr hvalue]
  simp only [Option.bind_some, Option.pure_def]
  rw [skip_cons hc]

/-- What follows an item is a comma or the brace. -/
theorem printMore_head (items : List (Str × Str)) :
    ∃ c t, 32 < c ∧ printMore items ++ [125] = c :: t := by
  cases items with
  | nil => exact ⟨125, [], by decide, rfl⟩
  | cons item items => exact ⟨44, _, by decide, rfl⟩

theorem length_le_printMore (items : List (Str × Str)) :
    items.length ≤ (printMore items).length := by
  induction items with
  | nil => exact Nat.zero_le _
  | cons item items ih =>
      rw [printMore, List.flatMap_cons, List.length_append, List.length_cons, List.length_cons]
      rw [printMore] at ih
      omega

/-- Printed pairs are parsed as the pairs, in order. -/
theorem parseMore_printMore (items : List (Str × Str))
    (h : ∀ item ∈ items, 0 ∉ item.1 ∧ 0 ∉ item.2) (fuel : Nat) (hfuel : items.length < fuel) :
    parseMore fuel (printMore items ++ [125]) =
      some (items.map fun item => (item.1, some item.2)) := by
  induction items generalizing fuel with
  | nil =>
      obtain ⟨fuel, rfl⟩ := Nat.exists_eq_add_of_lt hfuel
      rfl
  | cons item items ih =>
      obtain ⟨fuel, rfl⟩ := Nat.exists_eq_add_of_lt hfuel
      obtain ⟨hname, hvalue⟩ := h item List.mem_cons_self
      obtain ⟨c, t, hc, hhead⟩ := printMore_head items
      have hrest := ih (fun i hi => h i (List.mem_cons_of_mem item hi))
        (items.length + 1 + fuel) (by omega)
      have htext : printMore (item :: items) ++ [125] = 44 :: (printItem item ++ c :: t) := by
        rw [← hhead]
        simp [printMore]
      rw [htext, parseMore]
      simp only
      rw [parseItem_printItem hname hvalue hc]
      simp only [Option.bind_eq_bind, Option.bind_some]
      rw [← hhead, List.length_cons, hrest]
      rfl

/-- **Printing and parsing**: the parser reads printed objects of strings. -/
theorem parsesStrings_parseObject : ParsesStrings parseObject := by
  intro items h
  cases items with
  | nil => rfl
  | cons item items =>
      obtain ⟨hname, hvalue⟩ := h item List.mem_cons_self
      obtain ⟨c, t, hc, hhead⟩ := printMore_head items
      have hskip : skip (printItem item ++ c :: t) = printItem item ++ c :: t :=
        skip_cons (by decide) _
      have hhead' : (printItem item ++ c :: t).head? = some 34 := rfl
      have hlen : items.length < (c :: t).length + 1 := by
        rw [← hhead, List.length_append]
        have := length_le_printMore items
        omega
      have hrest := parseMore_printMore items (fun i hi => h i (List.mem_cons_of_mem item hi)) _
        hlen
      rw [printObject, hhead, parseObject, skip_cons (by decide)]
      simp only
      rw [hskip, hhead', if_neg (by decide), parseItem_printItem hname hvalue hc]
      simp only [Option.bind_eq_bind, Option.bind_some]
      rw [← hhead] at hrest ⊢
      rw [hrest]
      rfl

/-! ## where an object ends -/

/-- The text has been read as far as this rest, strings from quote to quote. -/
def ReadTo (value rest : Str) : Prop := ∃ a, value = a ++ rest ∧ 2 ∣ a.count 34

theorem ReadTo.trans {rest' : Str} (h : ReadTo value rest) (h' : ReadTo rest rest') :
    ReadTo value rest' := by
  obtain ⟨a, rfl, ha⟩ := h
  obtain ⟨b, rfl, hb⟩ := h'
  refine ⟨a ++ b, (List.append_assoc a b rest').symm, ?_⟩
  rw [List.count_append]
  exact Nat.dvd_add ha hb

/-- A character that is nowhere in the text is not in the rest. -/
theorem ReadTo.notMem (h : ReadTo value rest) {c : UInt8} (hc : c ∉ value) : c ∉ rest := by
  obtain ⟨a, rfl, -⟩ := h
  exact fun hmem => hc (List.mem_append_right a hmem)

/-- Blanks are skipped up to a rest of the text. -/
theorem readTo_skip (value : Str) : ReadTo value (skip value) := by
  refine ⟨_, (List.takeWhile_append_dropWhile).symm, ?_⟩
  have hquote : 34 ∉ value.takeWhile fun c => c ≠ 0 && c ≤ 32 := fun hmem => by
    have hle := List.mem_takeWhile_imp hmem
    revert hle
    decide
  rw [List.count_eq_zero.mpr hquote]
  exact Nat.dvd_zero 2

/-- Without a backslash a string ends at the next quote. -/
theorem parseChars_rest {s rest : Str} (h92 : 92 ∉ s) (h : (parseChars s).2 = rest)
    (hrest : rest ≠ []) : ∃ a, s = a ++ 34 :: rest ∧ 34 ∉ a := by
  induction s with
  | nil => exact absurd h.symm hrest
  | cons c s ih =>
      obtain ⟨hc, hs⟩ := not_or.mp fun hor => h92 (List.mem_cons.mpr hor)
      by_cases h34 : c = 34
      · subst h34
        rw [parseChars_quote] at h
        exact ⟨[], by rw [← h]; rfl, List.not_mem_nil⟩
      · rw [parseChars_plain h34 (Ne.symm hc)] at h
        obtain ⟨a, rfl, ha⟩ := ih hs h
        exact ⟨c :: a, rfl, by simp [ha, Ne.symm h34]⟩

/-- A string without a backslash is parsed up to a rest of the text. -/
theorem readTo_parseString {s rest text : Str} (h92 : 92 ∉ s)
    (h : parseString s = some (text, rest)) (hrest : rest ≠ []) : ReadTo s rest := by
  match s with
  | [] => cases h
  | c :: s =>
      by_cases hc : c = 34
      · subst hc
        have hsnd : (parseChars s).2 = rest := congrArg Prod.snd (Option.some.inj h)
        obtain ⟨a, rfl, ha⟩ :=
          parseChars_rest (fun hmem => h92 (List.mem_cons_of_mem _ hmem)) hsnd hrest
        have hcount : (34 :: (a ++ [34])).count 34 = 2 := by
          rw [List.count_cons_self, List.count_append, List.count_eq_zero.mpr ha,
            List.count_singleton_self]
        exact ⟨34 :: (a ++ [34]), by simp, 1, hcount⟩
      · rw [parseString] at h
        · cases h
        · intro r heq
          exact hc (List.cons.inj heq).1

/-- The steps of an item that is read. -/
theorem parseItem_eq_some {value rest : Str} {item : Item}
    (h : parseItem value = some (item, rest)) :
    ∃ name value₁ value₂ text value₃, parseString (skip value) = some (name, value₁) ∧
      skip value₁ = 58 :: value₂ ∧ parseString (skip value₂) = some (text, value₃) ∧
      rest = skip value₃ := by
  rw [parseItem] at h
  obtain ⟨⟨name, value₁⟩, hname, h⟩ := Option.bind_eq_some_iff.mp h
  dsimp only at h
  split at h
  · next value₂ hcolon =>
      obtain ⟨⟨text, value₃⟩, htext, h⟩ := Option.bind_eq_some_iff.mp h
      exact ⟨name, value₁, value₂, text, value₃, hname, hcolon, htext,
        (congrArg Prod.snd (Option.some.inj h)).symm⟩
  · cases h

theorem skip_ne_nil {value : Str} (h : skip value ≠ []) : value ≠ [] := by
  rintro rfl
  exact h rfl

/-- A pair is parsed up to a rest of the text. -/
theorem readTo_parseItem {value rest : Str} {item : Item} (h92 : 92 ∉ value)
    (h : parseItem value = some (item, rest)) (hrest : rest ≠ []) : ReadTo value rest := by
  obtain ⟨name, value₁, value₂, text, value₃, hname, hcolon, htext, rfl⟩ := parseItem_eq_some h
  have hvalue := readTo_skip value
  have hne : value₁ ≠ [] := skip_ne_nil (by rw [hcolon]; exact List.cons_ne_nil _ _)
  have h₁ := hvalue.trans (readTo_parseString (hvalue.notMem h92) hname hne)
  have hcons : ReadTo (58 :: value₂) value₂ := ⟨[58], rfl, by decide⟩
  have h₂ := (h₁.trans (hcolon ▸ readTo_skip value₁)).trans (hcons.trans (readTo_skip value₂))
  have h₃ := h₂.trans (readTo_parseString (h₂.notMem h92) htext (skip_ne_nil hrest))
  exact h₃.trans (readTo_skip value₃)

/-- The pairs are parsed up to a closing brace of the text. -/
theorem readTo_parseMore {fuel : Nat} {value : Str} {items : List Item} (h92 : 92 ∉ value)
    (h : parseMore fuel value = some items) : ∃ rest, ReadTo value (125 :: rest) := by
  induction fuel generalizing value items with
  | zero => cases h
  | succ fuel ih =>
      rw [parseMore.eq_def] at h
      dsimp only at h
      split at h
      · next value =>
          obtain ⟨⟨item, value₁⟩, hitem, h⟩ := Option.bind_eq_some_iff.mp h
          obtain ⟨items₁, hmore, -⟩ := Option.bind_eq_some_iff.mp h
          have hne : value₁ ≠ [] := by
            rintro rfl
            cases fuel with
            | zero => cases hmore
            | succ fuel => cases hmore
          have hcomma : ReadTo (44 :: value) value := ⟨[44], rfl, by decide⟩
          have hto := hcomma.trans (readTo_parseItem (hcomma.notMem h92) hitem hne)
          obtain ⟨rest, hrest⟩ := ih (hto.notMem h92) hmore
          exact ⟨rest, hto.trans hrest⟩
      · next rest => exact ⟨rest, [], rfl, by decide⟩
      · cases h

/-- An object is read as far as a brace that is in none of its strings. -/
theorem readTo_parseObject {value : Str} {items : List Item} (h92 : 92 ∉ value)
    (h : parseObject value = some items) : ∃ rest, ReadTo value (125 :: rest) := by
  have hvalue := readTo_skip value
  rw [parseObject] at h
  split at h
  · next value₁ hbrace =>
      have hcons : ReadTo (123 :: value₁) value₁ := ⟨[123], rfl, by decide⟩
      have h₁ := ((hbrace ▸ hvalue : ReadTo value (123 :: value₁)).trans hcons).trans
        (readTo_skip value₁)
      split at h
      · next hend =>
          obtain ⟨rest, hrest⟩ := List.head?_eq_some_iff.mp hend
          exact ⟨rest, hrest ▸ h₁⟩
      · obtain ⟨⟨item, value₂⟩, hitem, h⟩ := Option.bind_eq_some_iff.mp h
        obtain ⟨items₁, hmore, -⟩ := Option.bind_eq_some_iff.mp h
        have hne : value₂ ≠ [] := by
          rintro rfl
          cases hmore
        have h₂ := h₁.trans (readTo_parseItem (h₁.notMem h92) hitem hne)
        obtain ⟨rest, hrest⟩ := readTo_parseMore (h₂.notMem h92) hmore
        exact ⟨rest, h₂.trans hrest⟩
  · cases h

/-! ## the characters of a printed object -/

theorem hexChar_ne : ∀ d < 16, hexChar d ≠ 0 ∧ hexChar d ≠ 59 := by decide +kernel

/-- A character is printed without NULs, and with a semicolon only where it is one. -/
theorem count_escapeChar {c : UInt8} (h : c ≠ 0) :
    (escapeChar c).count 0 = 0 ∧ (escapeChar c).count 59 = if c = 59 then 1 else 0 := by
  by_cases h59 : c = 59
  · subst h59
    decide
  have hhi := hexChar_ne (c.toNat / 16) (by have := c.toNat_lt; omega)
  have hlo := hexChar_ne (c.toNat % 16) (by omega)
  rw [if_neg h59, List.count_eq_zero, List.count_eq_zero]
  unfold escapeChar
  -- Only a plain character and the escape with a number depend on the character.
  split_ifs with hplain <;> try decide
  · exact ⟨mt List.mem_singleton.mp h.symm, mt List.mem_singleton.mp (Ne.symm h59)⟩
  · simp [hhi.1.symm, hlo.1.symm, hhi.2.symm, hlo.2.symm]

/-- Escaping keeps the number of semicolons, and makes no NUL. -/
theorem count_flatMap_escapeChar {s : Str} (h : 0 ∉ s) :
    (s.flatMap escapeChar).count 0 = 0 ∧ (s.flatMap escapeChar).count 59 = s.count 59 := by
  induction s with
  | nil => exact ⟨rfl, rfl⟩
  | cons c s ih =>
      obtain ⟨hc, hs⟩ := not_or.mp (fun hor => h (List.mem_cons.mpr hor))
      obtain ⟨hnul, hsemi⟩ := count_escapeChar (Ne.symm hc)
      obtain ⟨hnul', hsemi'⟩ := ih hs
      rw [List.flatMap_cons, List.count_append, List.count_append, hnul, hnul', hsemi, hsemi',
        List.count_cons]
      refine ⟨rfl, ?_⟩
      by_cases h59 : c = 59 <;> simp [h59, Nat.add_comm]

/-- A printed string has the semicolons of the string, and no NUL. -/
theorem count_printStringPtr {s : Str} (h : 0 ∉ s) :
    (printStringPtr s).count 0 = 0 ∧ (printStringPtr s).count 59 = s.count 59 := by
  obtain ⟨hnul, hsemi⟩ := count_flatMap_escapeChar h
  rw [printStringPtr, cStr_eq_self h]
  simp [hnul, hsemi]

/-- A printed pair has the semicolons of its name and its value, and no NUL. -/
theorem count_printItem {item : Str × Str} (hname : 0 ∉ item.1) (hvalue : 0 ∉ item.2) :
    (printItem item).count 0 = 0 ∧
      (printItem item).count 59 = item.1.count 59 + item.2.count 59 := by
  obtain ⟨hnul, hsemi⟩ := count_printStringPtr hname
  obtain ⟨hnul', hsemi'⟩ := count_printStringPtr hvalue
  simp [printItem, hnul, hnul', hsemi, hsemi']

/-- Printed pairs have the semicolons of the pairs, and no NUL. -/
theorem count_printMore (items : List (Str × Str))
    (h : ∀ item ∈ items, 0 ∉ item.1 ∧ 0 ∉ item.2) :
    (printMore items).count 0 = 0 ∧
      (printMore items).count 59 =
        (items.map fun item => item.1.count 59 + item.2.count 59).sum := by
  induction items with
  | nil => exact ⟨rfl, rfl⟩
  | cons item items ih =>
      obtain ⟨hname, hvalue⟩ := h item List.mem_cons_self
      obtain ⟨hnul, hsemi⟩ := count_printItem hname hvalue
      obtain ⟨hnul', hsemi'⟩ := ih fun i hi => h i (List.mem_cons_of_mem item hi)
      rw [printMore] at hnul' hsemi'
      simp [printMore, hnul, hsemi, hnul', hsemi']

/-- An object is printed without NULs, and with the semicolons of its names and strings. -/
theorem count_printObject (items : List (Str × Str))
    (h : ∀ item ∈ items, 0 ∉ item.1 ∧ 0 ∉ item.2) :
    (printObject items).count 0 = 0 ∧
      (printObject items).count 59 =
        (items.map fun item => item.1.count 59 + item.2.count 59).sum := by
  cases items with
  | nil => exact ⟨rfl, rfl⟩
  | cons item items =>
      obtain ⟨hname, hvalue⟩ := h item List.mem_cons_self
      obtain ⟨hnul, hsemi⟩ := count_printItem hname hvalue
      obtain ⟨hnul', hsemi'⟩ :=
        count_printMore items fun i hi => h i (List.mem_cons_of_mem item hi)
      simp [printObject, hnul, hsemi, hnul', hsemi']

end LogingameServer
end MySrc
