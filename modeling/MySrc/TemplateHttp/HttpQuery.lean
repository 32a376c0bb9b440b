import MySrc.TemplateHttp.HttpCursor

/-!
# MySrc.TemplateHttp.HttpQuery

Queries that are written with percent escapes, and what `ParseParam` reads out of them:
the last value of every key, and nothing else (`parseParam_recovers_iff`).  Only the
path can spoil it: it is unescaped first.
-/

namespace MySrc

open Lib SDUtility

/-! ## items -/

/-- The value that an item gives a key. -/
def paramOf (key item : Str) : Option Str :=
  match breakOn (ascii ['=']) item with
  | some (name, value) => if name = key then some (cStr (unescaped (cStr value))) else none
  | none => none

/-- The value of the last item with a key. -/
def lastParam (items : List Str) (key : Str) : Option Str := items.reverse.findSome? (paramOf key)

/-- The escapes in the value of an item are complete. -/
def ItemComplete (item : Str) : Prop :=
  ∀ name value, breakOn (ascii ['=']) item = some (name, value) → escapesComplete (cStr value)

/-- An item sets its key, when the escapes of its value are complete. -/
theorem parsePair_eq {item : Str} (h : ItemComplete item) (m : StrMap) :
    parsePair m item = .ok fun key => (paramOf key item).or (m key) := by
  rw [parsePair]
  cases hb : breakOn (ascii ['=']) item with
  | none => simp [paramOf, hb]
  | some p =>
      obtain ⟨name, value⟩ := p
      simp only [unescapeUrlStr_eq (scanned_of_complete (h name value hb)), ok_bind, pure_eq_ok]
      congr 1
      funext key
      by_cases hname : name = key
      · simp [paramOf, hb, hname, StrMap.set]
      · simp [paramOf, hb, hname, StrMap.set, Function.update_of_ne (Ne.symm hname)]

theorem lastParam_cons (item : Str) (items : List Str) (key : Str) :
    lastParam (item :: items) key = (lastParam items key).or (paramOf key item) := by
  simp [lastParam]

/-- Items set every key to the value of its last one. -/
theorem parsePairs_eq {items : List Str} (h : ∀ item ∈ items, ItemComplete item) (m : StrMap) :
    items.foldlM parsePair m = .ok fun key => (lastParam items key).or (m key) := by
  induction items generalizing m with
  | nil => rfl
  | cons item items ih =>
      rw [List.foldlM_cons, parsePair_eq (h item List.mem_cons_self), ok_bind,
        ih fun i hi => h i (List.mem_cons_of_mem item hi)]
      simp only [lastParam_cons, Option.or_assoc]

/-! ## spelling -/

/-- A text that spells a value: every byte is an escape of two upper-case hexadecimal
digits, and letters and digits may also stand for themselves. -/
inductive Spells : Str → Str → Prop
  | nil : Spells [] []
  | literal {c : UInt8} {value text : Str} : isalnum c → Spells value text →
      Spells (c :: value) (c :: text)
  | escape {c : UInt8} {value text : Str} : Spells value text →
      Spells (c :: value) (37 :: toHex (c >>> 4) :: toHex (c % 16) :: text)

section

variable {value text : Str}

theorem Spells.scanned (h : Spells value text) : Scanned text := by
  induction h with
  | nil => exact .nil
  | literal hc _ ih => exact .char (ne_of_isalnum hc).2.1 ih
  | escape _ ih => exact .percent ih

/-- What is spelled is read back. -/
theorem Spells.unescaped_eq (h : Spells value text) : unescaped text = value := by
  induction h with
  | nil => rfl
  | literal hc _ ih =>
      obtain ⟨-, h37, -, h43⟩ := ne_of_isalnum hc
      rw [unescaped_cons h37, ih, plainChar, if_neg h43]
  | escape _ ih => rw [unescaped_percent, x2c_toHex, ih]

/-- A spelling has letters, digits and `%` only. -/
theorem Spells.chars (h : Spells value text) : ∀ c ∈ text, isalnum c ∨ c = 37 := by
  induction h with
  | nil => simp
  | literal hc _ ih =>
      intro c hmem
      obtain rfl | hmem := List.mem_cons.mp hmem
      · exact .inl hc
      · exact ih c hmem
  | @escape d value text _ ih =>
      intro c hmem
      obtain ⟨hhi, hlo⟩ := isalnum_toHex d
      simp only [List.mem_cons] at hmem
      obtain rfl | rfl | rfl | hmem := hmem
      · exact .inr rfl
      · exact .inl hhi
      · exact .inl hlo
      · exact ih c hmem

theorem Spells.notMem (h : Spells value text) : 0 ∉ text ∧ 38 ∉ text := by
  refine ⟨fun hmem => ?_, fun hmem => ?_⟩
  all_goals exact absurd (h.chars _ hmem) (by decide)

end

/-! ## queries -/

/-- A key, a value without NULs, and a spelling of the value. -/
structure QueryPair where
  key : Str
  value : Str
  text : Str
  key_amp : 38 ∉ key
  key_eq : 61 ∉ key
  key_question : 63 ∉ key
  value_nul : 0 ∉ value
  spells : Spells value text

def QueryPair.item (p : QueryPair) : Str := p.key ++ ascii ['='] ++ p.text

/-- The pairs, joined with `&`. -/
def queryText (ps : List QueryPair) : Str := [38].intercalate (ps.map QueryPair.item)

/-- A path and a query. -/
def requestText (path : Str) (ps : List QueryPair) : Str := path ++ ascii ['?'] ++ queryText ps

/-- The value of the last pair with a key. -/
def lastValue (ps : List QueryPair) : StrMap := fun key =>
  (ps.reverse.find? fun p => p.key = key).map QueryPair.value

theorem QueryPair.amp_notMem (p : QueryPair) : 38 ∉ p.item := by
  have hkey := p.key_amp
  have htext := p.spells.notMem.2
  simp [QueryPair.item, ascii, hkey, htext]

/-- The key of a pair stands before its first `=`. -/
theorem QueryPair.breakOn_item (p : QueryPair) :
    breakOn (ascii ['=']) p.item = some (p.key, p.text) := by
  rw [QueryPair.item, List.append_assoc]
  exact breakOn_append_cons p.key_eq p.text

theorem QueryPair.complete (p : QueryPair) : ItemComplete p.item := by
  intro name value hb
  rw [p.breakOn_item] at hb
  cases hb
  rw [cStr_eq_self p.spells.notMem.1]
  exact p.spells.scanned.complete

/-- An item gives its key its value. -/
theorem QueryPair.paramOf_item (p : QueryPair) (key : Str) :
    paramOf key p.item = if p.key = key then some p.value else none := by
  simp only [paramOf, p.breakOn_item]
  rw [cStr_eq_self p.spells.notMem.1, p.spells.unescaped_eq, cStr_eq_self p.value_nul]

/-- The last value of a key among pairs. -/
theorem lastParam_items (ps : List QueryPair) :
    lastParam (ps.map QueryPair.item) = lastValue ps := by
  funext key
  rw [lastParam, lastValue, ← List.map_reverse]
  induction ps.reverse with
  | nil => rfl
  | cons p rs ih =>
      rw [List.map_cons, List.findSome?_cons, p.paramOf_item]
      by_cases hkey : p.key = key
      · simp [hkey]
      · rw [if_neg hkey, List.find?_cons_of_neg (by simpa using hkey), ih]

/-- The parameters of a query. -/
theorem parsePairs_queryText (ps : List QueryPair) :
    (split 38 (queryText ps)).foldlM parsePair .empty = .ok (lastValue ps) := by
  cases ps with
  | nil => rfl
  | cons p ps =>
      have hitems : ∀ item ∈ (p :: ps).map QueryPair.item, 38 ∉ item ∧ ItemComplete item := by
        rw [List.forall_mem_map]
        exact fun q _ => ⟨q.amp_notMem, q.complete⟩
      rw [queryText, split_intercalate (by simp) fun item hitem => (hitems item hitem).1,
        parsePairs_eq fun item hitem => (hitems item hitem).2, lastParam_items]
      congr 1
      funext key
      exact Option.or_none

/-! ## ParseParam -/

section

variable (utf8ToGbk : Str → Str) (packet : HttpRequestPacket) {path : Str} (hpath : 63 ∉ path)
  (ps : List QueryPair)

include hpath

/-- The path of a request stands before its first `?`. -/
theorem breakOn_requestText :
    breakOn (ascii ['?']) (requestText path ps) = some (path, queryText ps) := by
  rw [requestText, List.append_assoc]
  exact breakOn_append_cons hpath (queryText ps)

/-- What becomes of a path and a query. -/
theorem parseParam_requestText (hs : escapesComplete (cStr path)) :
    parseParam utf8ToGbk packet (requestText path ps) =
      .ok { packet with
        mapParam := lastValue ps
        m_str_cmdpath := utf8ToGbk (cStr (unescaped (cStr path))) } := by
  simp only [parseParam, breakOn_requestText hpath ps,
    unescapeUrlStr_eq (scanned_of_complete hs), parsePairs_queryText, ok_bind, pure_eq_ok]

/-- A request that is read has complete escapes in its path. -/
theorem complete_of_parseParam {packet' : HttpRequestPacket}
    (hok : parseParam utf8ToGbk packet (requestText path ps) = .ok packet') :
    escapesComplete (cStr path) := by
  simp only [parseParam, breakOn_requestText hpath ps] at hok
  obtain ⟨cmdpath, hcmd, -⟩ := bind_eq_ok.mp hok
  exact unescapeUrlStr_ok_iff.mp ⟨cmdpath, hcmd⟩

end

/-- **`ParseParam`** recovers every query, and the path whatever the query is, exactly
when two characters stand behind every `%` of the path. -/
theorem parseParam_recovers_iff (utf8ToGbk : Str → Str) (packet : HttpRequestPacket) (path : Str)
    (hpath : 63 ∉ path) (ps : List QueryPair) (hlen : (requestText path ps).length < 2 ^ 31) :
    (∃ packet', HttpRequestPacket.parseParam utf8ToGbk packet (requestText path ps) =
          .ok packet' ∧ packet'.mapParam = lastValue ps ∧
        ∀ ps' packet'', (requestText path ps').length < 2 ^ 31 →
          HttpRequestPacket.parseParam utf8ToGbk packet (requestText path ps') = .ok packet'' →
          packet''.m_str_cmdpath = packet'.m_str_cmdpath) ↔
      escapesComplete (cStr path) := by
  constructor
  · rintro ⟨packet', hok, -⟩
    exact complete_of_parseParam utf8ToGbk packet hpath ps
      ((HttpRequestPacket.parseParam_refines hlen).mp hok)
  · intro hs
    refine ⟨_, (HttpRequestPacket.parseParam_refines hlen).mpr
      (parseParam_requestText utf8ToGbk packet hpath ps hs), rfl, ?_⟩
    intro ps' packet'' hlen' hok'
    rw [HttpRequestPacket.parseParam_refines hlen',
      parseParam_requestText utf8ToGbk packet hpath ps' hs] at hok'
    cases hok'
    rfl

/-- The pair with a key `a` and the value of one blank. -/
def blankPair : QueryPair where
  key := ascii ['a']
  value := [32]
  text := ascii ['%', '2', '0']
  key_amp := by decide
  key_eq := by decide
  key_question := by decide
  value_nul := by decide
  spells := .escape .nil

/-- A repeated key behind a path with an escape. -/
theorem parseParam_recovers_blank :
    ∃ packet', HttpRequestPacket.parseParam id .init
        (requestText (ascii ['/', '%', '4', '1']) [blankPair, blankPair]) = .ok packet' ∧
      packet'.mapParam = lastValue [blankPair, blankPair] := by
  obtain ⟨packet', hok, hmap, -⟩ := (parseParam_recovers_iff id .init (ascii ['/', '%', '4', '1'])
    (by decide) [blankPair, blankPair] (by decide)).mpr (by decide)
  exact ⟨packet', hok, hmap⟩

/-- A path that ends in `%` is read behind its NUL, before any pair is. -/
theorem parseParam_leaves_path :
    (63 : UInt8) ∉ ascii ['/', '%'] ∧
      (requestText (ascii ['/', '%']) [blankPair]).length < 2 ^ 31 ∧
      ¬ ∃ packet', HttpRequestPacket.parseParam id .init
        (requestText (ascii ['/', '%']) [blankPair]) = .ok packet' := by
  have hpath : (63 : UInt8) ∉ ascii ['/', '%'] := by decide
  refine ⟨hpath, by decide, ?_⟩
  rintro ⟨packet', hok⟩
  have hs := complete_of_parseParam id .init hpath [blankPair]
    ((HttpRequestPacket.parseParam_refines (by decide)).mp hok)
  revert hs
  decide

end MySrc
