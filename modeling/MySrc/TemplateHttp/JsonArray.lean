import MySrc.TemplateHttp.HttpRequestPacket

/-!
# MySrc.TemplateHttp.JsonArray

`SDUtility::json_array_append` and `SDUtility::json_array_pop` of
`template_http/src/common/SDUtility.cpp`: ids in a text `[t1,...,tn]`, which both split at
`,`, `[`, `]` and blanks.

`json_array_append` empties its array before it looks for the new id, so that nothing of a
filled array is left.  `json_array_iff` says for every array what each of the two makes of it.
-/

namespace MySrc

open Lib

namespace SDUtility

/-! ## the model -/

/-- `boost::is_any_of(",[] ")` -/
def isDelimiter (c : UInt8) : Bool := c == 44 || c == 91 || c == 93 || c == 32

/-- `stringsplit`: `boost::split` without compression of the delimiters. -/
def stringsplit (str_src : Str) : List Str := str_src.splitOnP isDelimiter

/-- The tokens that `for(int i = 0; i < size; i++)` comes to, with an `int size`. -/
def tokensOf (ars : List Str) : List Str := ars.take (i32 ars.length).toNat

/-- `SDUtility::json_array_append`: `old_array` behind the call. -/
def jsonArrayAppend (old_array elem : Str) : Str :=
  if old_array.isEmpty || old_array == ascii ['[', ']'] then ascii ['['] ++ elem ++ ascii [']']
  else
    let ars := stringsplit old_array
    let old_array := ascii ['[']
    if (tokensOf ars).any (· == elem) then old_array
    else old_array.take (old_array.length - 1) ++ ascii [','] ++ elem ++ ascii [']']

/-- The body of the loop of `json_array_pop`. -/
def popStep (elem old_array rindex : Str) : Str :=
  if rindex != elem && !rindex.isEmpty then old_array ++ rindex ++ ascii [','] else old_array

/-- `SDUtility::json_array_pop`: `old_array` behind the call. -/
def jsonArrayPop (old_array elem : Str) : Str :=
  if old_array.isEmpty then old_array
  else
    let ars := stringsplit old_array
    let old_array := (tokensOf ars).foldl (popStep elem) (ascii ['['])
    if 1 = old_array.length then old_array ++ ascii [']']
    else old_array.take (old_array.length - 1) ++ ascii [']']

end SDUtility

open SDUtility

/-! ## arrays of ids -/

/-- A token: not empty, and without a delimiter. -/
def IsToken (t : Str) : Prop := t ≠ [] ∧ ∀ c ∈ t, isDelimiter c = false

/-- The text `[t1,...,tn]`. -/
def arrayText : List Str → Str
  | [] => [91, 93]
  | t :: ts => 91 :: (t ++ ts.flatMap (44 :: ·) ++ [93])

/-- An array of ids: distinct tokens. -/
structure IdArray where
  tokens : List Str
  isToken : ∀ t ∈ tokens, IsToken t
  nodup : tokens.Nodup

namespace IdArray

def text (x : IdArray) : Str := arrayText x.tokens

/-- The tokens with a new one at the end, unless it is there. -/
def added (x : IdArray) (e : Str) : List Str := if e ∈ x.tokens then x.tokens else x.tokens ++ [e]

/-- The tokens without one. -/
def removed (x : IdArray) (e : Str) : List Str := x.tokens.filter (· != e)

end IdArray

section

variable {ts : List Str} {e : Str}

/-! ## splitting the text -/

/-- The text of tokens is split into the tokens, and an empty piece at its end. -/
theorem splitOnP_tail {t : Str} (ht : IsToken t) (hts : ∀ t ∈ ts, IsToken t) :
    (t ++ ts.flatMap (44 :: ·) ++ [93]).splitOnP isDelimiter = t :: ts ++ [[]] := by
  induction ts generalizing t with
  | nil =>
      rw [List.flatMap_nil, List.append_nil,
        List.splitOnP_append_cons_of_forall_mem ht.2 93 rfl, List.splitOnP_nil]
      rfl
  | cons u ts ih =>
      have hcons : t ++ (u :: ts).flatMap (44 :: ·) ++ [93] =
          t ++ 44 :: (u ++ ts.flatMap (44 :: ·) ++ [93]) := by simp
      rw [hcons, List.splitOnP_append_cons_of_forall_mem ht.2 44 rfl,
        ih (hts u (by simp)) fun t ht => hts t (by simp [ht])]
      rfl

/-- The pieces of a filled array: its tokens between two empty ones. -/
theorem stringsplit_arrayText (hts : ∀ t ∈ ts, IsToken t) (hne : ts ≠ []) :
    stringsplit (arrayText ts) = [] :: (ts ++ [[]]) := by
  cases ts with
  | nil => exact absurd rfl hne
  | cons t ts =>
      have hcons : arrayText (t :: ts) = [] ++ 91 :: (t ++ ts.flatMap (44 :: ·) ++ [93]) := rfl
      rw [stringsplit, hcons, List.splitOnP_append_cons_of_forall_mem (by simp) 91 rfl,
        splitOnP_tail (hts t (by simp)) fun t ht => hts t (by simp [ht])]

/-- The tokens are the pieces that are not empty. -/
theorem filter_stringsplit (hts : ∀ t ∈ ts, IsToken t) :
    (stringsplit (arrayText ts)).filter (!·.isEmpty) = ts := by
  by_cases hne : ts = []
  · rw [hne]
    rfl
  · have hself : ts.filter (!·.isEmpty) = ts :=
      List.filter_eq_self.mpr fun t ht => by simpa using (hts t ht).1
    rw [stringsplit_arrayText hts hne]
    simp [hself]

/-- Tokens come back from their text. -/
theorem arrayText_inj {us : List Str} (hts : ∀ t ∈ ts, IsToken t) (hus : ∀ t ∈ us, IsToken t)
    (h : arrayText ts = arrayText us) : ts = us := by
  rw [← filter_stringsplit hts, h, filter_stringsplit hus]

/-! ## json_array_pop -/

/-- What the loop of `json_array_pop` keeps. -/
theorem foldl_popStep (ars : List Str) (old : Str) :
    ars.foldl (popStep e) old =
      old ++ (ars.filter fun r => r != e && !r.isEmpty).flatMap (· ++ [44]) := by
  induction ars generalizing old with
  | nil => simp
  | cons r ars ih =>
      rw [List.foldl_cons, ih, popStep, List.filter_cons]
      split
      · simp [ascii]
      · rfl

/-- The commas are behind the tokens in the loop, and between them in the end. -/
theorem flatMap_comma (t : Str) (ts : List Str) :
    (t :: ts).flatMap (· ++ [44]) = t ++ ts.flatMap (44 :: ·) ++ [44] := by
  induction ts generalizing t with
  | nil => simp
  | cons u ts ih =>
      rw [List.flatMap_cons, ih u, List.flatMap_cons]
      simp

/-- `json_array_pop` writes the tokens it keeps as an array. -/
theorem jsonArrayPop_eq {old : Str} (hold : old ≠ []) :
    jsonArrayPop old e =
      arrayText ((tokensOf (stringsplit old)).filter fun r => r != e && !r.isEmpty) := by
  rw [jsonArrayPop, if_neg (by simpa using hold)]
  simp only [foldl_popStep]
  generalize (tokensOf (stringsplit old)).filter (fun r => r != e && !r.isEmpty) = kept
  cases kept with
  | nil => rfl
  | cons t ts =>
      rw [flatMap_comma, if_neg (by simp [ascii]), arrayText]
      have hcut : ascii ['['] ++ (t ++ ts.flatMap (44 :: ·) ++ [44]) =
          91 :: (t ++ ts.flatMap (44 :: ·)) ++ [44] := by simp [ascii]
      rw [hcut, List.length_append, List.length_singleton, Nat.add_sub_cancel, List.take_left]
      simp [ascii]

theorem tokensOf_eq_self {ars : List Str} (h : ars.length < 2 ^ 31) : tokensOf ars = ars := by
  rw [tokensOf, i32_eq_self ⟨by omega, by omega⟩, Int.toNat_natCast, List.take_length]

theorem mem_of_mem_tokensOf {ars : List Str} {t : Str} (h : t ∈ tokensOf ars) : t ∈ ars :=
  List.mem_of_mem_take h

/-- Splitting gives two pieces more than an array has tokens. -/
theorem length_stringsplit (hts : ∀ t ∈ ts, IsToken t) (hne : ts ≠ []) :
    (stringsplit (arrayText ts)).length = ts.length + 2 := by
  rw [stringsplit_arrayText hts hne]
  simp

/-- The pieces of a text of tokens are the tokens and two more. -/
theorem length_stringsplit_lt_iff (hts : ∀ t ∈ ts, IsToken t) :
    (stringsplit (arrayText ts)).length < 2 ^ 31 ↔ ts.length + 2 < 2 ^ 31 := by
  by_cases hne : ts = []
  · rw [hne]
    decide
  · rw [length_stringsplit hts hne]

/-- The pieces that are kept: those that are not empty, but for the id. -/
theorem filter_keep (l : List Str) :
    (l.filter fun r => r != e && !r.isEmpty) = (l.filter (!·.isEmpty)).filter (· != e) := by
  rw [List.filter_filter]

theorem arrayText_ne_nil (ts : List Str) : arrayText ts ≠ [] := by
  cases ts <;> simp [arrayText]

/-- A distinct token less. -/
theorem length_removed (x : IdArray) (e : Str) : x.tokens.length ≤ (x.removed e).length + 1 := by
  rw [IdArray.removed, ← x.nodup.erase_eq_filter, List.length_erase]
  split <;> omega

/-- `json_array_pop` removes a token where an `int` counts the pieces. -/
theorem jsonArrayPop_iff (x : IdArray) (e : Str) :
    jsonArrayPop x.text e = arrayText (x.removed e) ↔ x.tokens.length + 2 < 2 ^ 31 := by
  rw [IdArray.text, jsonArrayPop_eq (arrayText_ne_nil _), ← length_stringsplit_lt_iff x.isToken]
  constructor
  · intro h
    have hkept : ∀ t ∈ (tokensOf (stringsplit (arrayText x.tokens))).filter
        (fun r => r != e && !r.isEmpty), IsToken t := by
      intro t ht
      rw [filter_keep, List.mem_filter, List.mem_filter] at ht
      have hmem : t ∈ (stringsplit (arrayText x.tokens)).filter (!·.isEmpty) :=
        List.mem_filter.mpr ⟨mem_of_mem_tokensOf ht.1.1, ht.1.2⟩
      rw [filter_stringsplit x.isToken] at hmem
      exact x.isToken t hmem
    have hremoved : ∀ t ∈ x.removed e, IsToken t := fun t ht =>
      x.isToken t (List.mem_filter.mp ht).1
    have heq := congrArg List.length (arrayText_inj hkept hremoved h)
    have hle := List.length_filter_le (fun r => r != e && !r.isEmpty)
      (tokensOf (stringsplit (arrayText x.tokens)))
    rw [heq] at hle
    have hless := length_removed x e
    by_contra hlong
    have hne : x.tokens ≠ [] := by
      intro hnil
      rw [hnil] at hlong
      exact hlong (by decide)
    rw [length_stringsplit x.isToken hne] at hlong
    rw [tokensOf, List.length_take, length_stringsplit x.isToken hne] at hle
    have hturn : i32 ((x.tokens.length + 2 : Nat) : Int) + 2 ^ 32 ≤ (x.tokens.length + 2 : Nat) :=
      i32_add_le (by omega)
    omega
  · intro h
    rw [tokensOf_eq_self h, filter_keep, filter_stringsplit x.isToken, IdArray.removed]

/-! ## json_array_append -/

/-- `json_array_append` forgets an array that is not empty. -/
theorem jsonArrayAppend_filled {old : Str} (hold : old ≠ []) (hold' : old ≠ [91, 93]) :
    jsonArrayAppend old e =
      if (tokensOf (stringsplit old)).any (· == e) then [91] else 44 :: (e ++ [93]) := by
  have hcond : (old.isEmpty || old == ascii ['[', ']']) = false := by
    simp [hold, ascii, hold']
  rw [jsonArrayAppend, hcond, if_neg Bool.false_ne_true]
  simp [ascii]

theorem arrayText_ne_brackets (ht : IsToken e) (ts : List Str) :
    arrayText (e :: ts) ≠ [91, 93] := by
  intro h
  have hlen := congrArg List.length h
  have hpos := List.length_pos_iff.mpr ht.1
  simp only [arrayText, List.length_cons, List.length_append, List.length_nil] at hlen
  omega

/-- What is left of a filled array to which a new token is appended. -/
theorem jsonArrayAppend_absent (hts : ∀ t ∈ ts, IsToken t) (hne : ts ≠ []) (he : IsToken e)
    (habsent : e ∉ ts) : jsonArrayAppend (arrayText ts) e = 44 :: (e ++ [93]) := by
  have hold : arrayText ts ≠ [91, 93] := by
    cases ts with
    | nil => exact absurd rfl hne
    | cons t ts => exact arrayText_ne_brackets (hts t (by simp)) ts
  have hnone : (tokensOf (stringsplit (arrayText ts))).any (· == e) = false := by
    rw [List.any_eq_false]
    intro t ht heq
    have hmem := mem_of_mem_tokensOf ht
    rw [stringsplit_arrayText hts hne, beq_iff_eq.mp heq] at hmem
    simp [he.1, habsent] at hmem
  rw [jsonArrayAppend_filled (arrayText_ne_nil ts) hold, hnone, if_neg Bool.false_ne_true]

/-- A filled array is left in one of two states, and these follow each other. -/
theorem jsonArrayAppend_cases (hts : ∀ t ∈ ts, IsToken t) (hne : ts ≠ []) (e : Str) :
    jsonArrayAppend (arrayText ts) e = [91] ∨
      jsonArrayAppend (arrayText ts) e = 44 :: (e ++ [93]) := by
  cases ts with
  | nil => exact absurd rfl hne
  | cons t ts =>
      rw [jsonArrayAppend_filled (arrayText_ne_nil _) (arrayText_ne_brackets (hts t (by simp)) ts)]
      split
      · exact .inl rfl
      · exact .inr rfl

theorem stringsplit_remains (he : IsToken e) :
    stringsplit (44 :: (e ++ [93])) = [[], e, []] := by
  have hcons : 44 :: (e ++ [93]) = [] ++ 44 :: (e ++ [93]) := rfl
  rw [stringsplit, hcons, List.splitOnP_append_cons_of_forall_mem (by simp) 44 rfl,
    List.splitOnP_append_cons_of_forall_mem he.2 93 rfl, List.splitOnP_nil]

theorem jsonArrayAppend_bracket (he : IsToken e) : jsonArrayAppend [91] e = 44 :: (e ++ [93]) := by
  have hsplit : stringsplit [91] = [[], []] := rfl
  rw [jsonArrayAppend_filled (by simp) (by simp), hsplit, tokensOf_eq_self (by decide)]
  simp [he.1]

theorem jsonArrayAppend_remains (he : IsToken e) :
    jsonArrayAppend (44 :: (e ++ [93])) e = [91] := by
  rw [jsonArrayAppend_filled (by simp) (by simp), stringsplit_remains he,
    tokensOf_eq_self (by simp)]
  simp

/-- An id is appended to the empty array. -/
theorem jsonArrayAppend_nil (e : Str) : jsonArrayAppend (arrayText []) e = arrayText [e] := by
  have hcond : ((arrayText []).isEmpty || arrayText [] == ascii ['[', ']']) = true := by decide
  rw [jsonArrayAppend, hcond, if_pos rfl]
  simp [arrayText, ascii]

/-- An id that is appended to the array of itself leaves a bracket. -/
theorem jsonArrayAppend_singleton (he : IsToken e) : jsonArrayAppend (arrayText [e]) e = [91] := by
  have htokens : ∀ t ∈ [e], IsToken t := by simpa using he
  rw [jsonArrayAppend_filled (arrayText_ne_nil _) (arrayText_ne_brackets he []),
    stringsplit_arrayText htokens (by simp), tokensOf_eq_self (by simp)]
  simp

/-- An array text starts with a bracket and is not that alone. -/
theorem arrayText_ne_remains (us : List Str) (e : Str) :
    arrayText us ≠ [91] ∧ arrayText us ≠ 44 :: (e ++ [93]) := by
  cases us <;> simp [arrayText]

/-- Appending does what it should exactly with the empty array. -/
theorem jsonArrayAppend_iff (x : IdArray) (e : Str) :
    jsonArrayAppend x.text e = arrayText (x.added e) ↔ x.tokens = [] := by
  constructor
  · intro h
    by_contra hne
    obtain ⟨hbracket, hremains⟩ := arrayText_ne_remains (x.added e) e
    obtain hstate | hstate := jsonArrayAppend_cases x.isToken hne e
    · exact hbracket (h.symm.trans hstate)
    · exact hremains (h.symm.trans hstate)
  · intro h
    rw [IdArray.text, IdArray.added, h, jsonArrayAppend_nil]
    rfl

/-- Appending twice is never appending once. -/
theorem jsonArrayAppend_twice (x : IdArray) (he : IsToken e) :
    jsonArrayAppend (jsonArrayAppend x.text e) e ≠ jsonArrayAppend x.text e := by
  by_cases hne : x.tokens = []
  · rw [IdArray.text, hne, jsonArrayAppend_nil, jsonArrayAppend_singleton he]
    exact (arrayText_ne_remains [e] e).1.symm
  · obtain hstate | hstate := jsonArrayAppend_cases x.isToken hne e
    · rw [IdArray.text, hstate, jsonArrayAppend_bracket he]
      simp
    · rw [IdArray.text, hstate, jsonArrayAppend_remains he]
      simp

/-- Appending a new token and removing it empties the array. -/
theorem jsonArrayPop_append (x : IdArray) (he : IsToken e) (habsent : e ∉ x.tokens) :
    jsonArrayPop (jsonArrayAppend x.text e) e = arrayText [] := by
  have hdrop : ([[], e, []].filter fun r => r != e && !r.isEmpty) = [] := by simp
  have hsplit : stringsplit (jsonArrayAppend x.text e) = [[], e, []] := by
    by_cases hne : x.tokens = []
    · rw [IdArray.text, hne, jsonArrayAppend_nil,
        stringsplit_arrayText (by simpa using he) (by simp)]
      rfl
    · rw [IdArray.text, jsonArrayAppend_absent x.isToken hne he habsent, stringsplit_remains he]
  have hnil : jsonArrayAppend x.text e ≠ [] := by
    intro h
    rw [h] at hsplit
    simp [stringsplit] at hsplit
  rw [jsonArrayPop_eq hnil, hsplit, tokensOf_eq_self (by simp), hdrop]

/-- **The id arrays**: what `json_array_append` and `json_array_pop` keep of the laws of a
set, for every array and every token. -/
theorem json_array_iff (x : IdArray) (e : Str) :
    (jsonArrayAppend x.text e = arrayText (x.added e) ↔ x.tokens = []) ∧
      (jsonArrayPop x.text e = arrayText (x.removed e) ↔ x.tokens.length + 2 < 2 ^ 31) ∧
      (IsToken e →
        jsonArrayAppend (jsonArrayAppend x.text e) e ≠ jsonArrayAppend x.text e ∧
          (e ∉ x.tokens →
            (jsonArrayPop (jsonArrayAppend x.text e) e = x.text ↔ x.tokens = []))) := by
  refine ⟨jsonArrayAppend_iff x e, jsonArrayPop_iff x e, fun he =>
    ⟨jsonArrayAppend_twice x he, fun habsent => ?_⟩⟩
  rw [jsonArrayPop_append x he habsent]
  constructor
  · intro h
    exact (arrayText_inj (by simp) x.isToken h).symm
  · intro h
    rw [IdArray.text, h]

/-- In the array of two ids one is removed well, and a third that is appended and removed leaves
another text. -/
theorem json_array_iff_one_two :
    ∃ x : IdArray, x.text = ascii ['[', '1', ',', '2', ']'] ∧
      jsonArrayPop x.text (ascii ['1']) = ascii ['[', '2', ']'] ∧
      jsonArrayPop (jsonArrayAppend x.text (ascii ['3'])) (ascii ['3']) ≠ x.text := by
  refine ⟨⟨[ascii ['1'], ascii ['2']], by simp [IsToken, ascii, isDelimiter], by decide⟩,
    by decide, (json_array_iff _ _).2.1.mpr (by decide), fun h => ?_⟩
  have htoken : IsToken (ascii ['3']) := by simp [IsToken, ascii, isDelimiter]
  have hnil := (((json_array_iff _ _).2.2 htoken).2 (by decide)).mp h
  simp at hnil

/-- `2` appended to `[1]`, and `1` appended to it. -/
theorem jsonArrayAppend_forgets :
    jsonArrayAppend (arrayText [ascii ['1']]) (ascii ['2']) = ascii [',', '2', ']'] ∧
      jsonArrayAppend (arrayText [ascii ['1']]) (ascii ['1']) = ascii ['['] ∧
      jsonArrayAppend (arrayText [ascii ['1']]) (ascii ['2']) ≠
        arrayText [ascii ['1'], ascii ['2']] ∧
      jsonArrayAppend (arrayText [ascii ['1']]) (ascii ['1']) ≠ arrayText [ascii ['1']] := by
  decide +kernel

end

end MySrc
