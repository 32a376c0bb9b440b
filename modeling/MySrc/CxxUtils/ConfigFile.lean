import MySrc.Lib.LowerBound
import Mathlib.Data.List.AList
import Mathlib.Data.List.TakeWhile

/-!
# MySrc.CxxUtils.ConfigFile

The two storage engines of `cxx_utils/config_file.{h,cpp}`.  The default build
keeps the items in a `boost::unordered_map`, the `_ENGINE_VEC` build in a
vector that is kept sorted by key and searched with `lower_bound`.

`boost::unordered_map` is a parameter, with the two laws the code relies on;
`engines_agree` compares the builds on every history of `insert_item` calls,
through the list of items itself: both answer with the first item of a key.
-/

namespace MySrc

open Lib

/-- `std::string`: any bytes, compared as `char_traits<char>` does, which is
lexicographic order of unsigned bytes. -/
abbrev Str := List UInt8

/-- The characters before the terminating NUL of a C string. -/
def cStr (s : List UInt8) : Str := s.takeWhile (· ≠ 0)

theorem cStr_eq_self {s : Str} (h : 0 ∉ s) : cStr s = s := by
  rw [cStr, List.takeWhile_eq_self_iff]
  intro c hc
  exact decide_eq_true fun (e : c = 0) => h (e ▸ hc)

theorem nul_notMem_cStr (s : Str) : 0 ∉ cStr s := by
  intro hmem
  simpa using List.mem_takeWhile_imp hmem

theorem cStr_eq_self_iff {s : Str} : cStr s = s ↔ 0 ∉ s :=
  ⟨fun h => h ▸ nul_notMem_cStr s, cStr_eq_self⟩

/-- `ConfigItem` -/
structure ConfigItem where
  m_key : Str
  m_value : Str
  deriving Repr, DecidableEq

/-- `operator<` on `ConfigItem` -/
def ConfigItem.lt (s1 s2 : ConfigItem) : Bool := s1.m_key < s2.m_key

/-! ## atoi -/

/-- `isspace` in the C locale. -/
def isspace (c : UInt8) : Bool := c = 32 ∨ (9 ≤ c ∧ c ≤ 13)

def isdigit (c : UInt8) : Bool := 48 ≤ c ∧ c ≤ 57

/-- The value of a string of decimal digits. -/
def digitsValue (s : Str) : Nat := s.foldl (fun n c => 10 * n + (c.toNat - 48)) 0

/-- `strtol(s, NULL, 10)` on a 64-bit `long`: white space, a sign and digits,
with the value clamped to the range of the type. -/
def strtol (s : Str) : Int :=
  match s.dropWhile isspace with
  | 45 :: t => max (-(digitsValue (t.takeWhile isdigit) : Int)) (-(2 ^ 63))
  | 43 :: t => min (digitsValue (t.takeWhile isdigit)) (2 ^ 63 - 1)
  | t => min (digitsValue (t.takeWhile isdigit)) (2 ^ 63 - 1)

/-- `atoi`: `strtol`, cut to an `int`. -/
def atoi (s : Str) : Int := (strtol s).bmod (2 ^ 32)

example : atoi [32, 45, 49, 50, 120] = -12 := by decide

/-! ## the unordered_map engine -/

/-- What the code relies on of `boost::unordered_map`: it is a map, and
`insert` keeps an entry that is there already. -/
structure UnorderedMap (κ υ : Type) [DecidableEq κ] where
  Map : Type
  empty : Map
  insert : Map → κ → υ → Map
  find : Map → κ → Option υ
  find_empty : ∀ q, find empty q = none
  find_insert : ∀ m k v q, find (insert m k v) q = (find m q).or (if q = k then some v else none)

section MapEngine

variable (E : UnorderedMap Str Str)

/-- `ConfigFile::insert_item` -/
def insertItemMap (m_content : E.Map) (item : ConfigItem) : E.Map :=
  E.insert m_content item.m_key item.m_value

/-- `ConfigFile::get_string` -/
def getStringMap (m_content : E.Map) (key : List UInt8) (default_value : Str) : Str :=
  match E.find m_content (cStr key) with
  | none => default_value
  | some second => second

/-- `ConfigFile::get_int` -/
def getIntMap (m_content : E.Map) (key : List UInt8) (default_value : Int) : Int :=
  match E.find m_content (cStr key) with
  | none => default_value
  | some second => atoi (cStr second)

end MapEngine

/-! ## the vector engine -/

/-- `vector::insert` before the iterator `it`. -/
def vectorInsert (v : List α) (it : Nat) (x : α) : List α := v.take it ++ x :: v.drop it

/-- `ConfigFile::insert_item` under `_ENGINE_VEC` -/
def insertItemVec (m_content : List ConfigItem) (item : ConfigItem) : List ConfigItem :=
  let it_find := lowerBound (·.lt item) m_content
  match m_content[it_find]? with
  | none => vectorInsert m_content it_find item
  | some found =>
      if found.m_key ≠ item.m_key then vectorInsert m_content it_find item else m_content

/-- `ConfigFile::get_string` under `_ENGINE_VEC` -/
def getStringVec (m_content : List ConfigItem) (key : List UInt8) (default_value : Str) : Str :=
  match m_content[lowerBound (·.lt ⟨cStr key, []⟩) m_content]? with
  | none => default_value
  | some found => if found.m_key = cStr key then found.m_value else default_value

/-- `ConfigFile::get_int` under `_ENGINE_VEC` -/
def getIntVec (m_content : List ConfigItem) (key : List UInt8) (default_value : Int) : Int :=
  match m_content[lowerBound (·.lt ⟨cStr key, []⟩) m_content]? with
  | none => default_value
  | some found => if found.m_key = cStr key then atoi (cStr found.m_value) else default_value

/-! ## the sorted vector -/

/-- The first item of a key. -/
def firstItem (items : List ConfigItem) (q : Str) : Option ConfigItem :=
  items.find? (·.m_key = q)

/-- `m_content` is strictly sorted by key. -/
def SortedByKey (v : List ConfigItem) : Prop := v.Pairwise (·.m_key < ·.m_key)

theorem str_lt_of_not_lt {a b : Str} (h : ¬ a < b) (hne : a ≠ b) : b < a :=
  Std.lt_of_le_of_ne h (Ne.symm hne)

section

variable {v : List ConfigItem} {item : ConfigItem}

/-- The items with a smaller key come first. -/
theorem SortedByKey.partitioned (hv : SortedByKey v) (item : ConfigItem) :
    Partitioned (·.lt item) v := by
  refine List.Pairwise.imp (fun {a b} hab hb => ?_) hv
  simp only [ConfigItem.lt, decide_eq_true_eq] at hb ⊢
  exact List.lt_trans hab hb

/-- Exactly the items before the iterator have a smaller key. -/
theorem SortedByKey.lt_iff (hv : SortedByKey v) (item : ConfigItem) {i : Nat} (hi : i < v.length) :
    v[i].m_key < item.m_key ↔ i < lowerBound (·.lt item) v := by
  have h := (lowerBound_spec (hv.partitioned item)).2 i hi
  simpa only [ConfigItem.lt, decide_eq_true_eq] using h

theorem firstItem_eq_none {items : List ConfigItem} {q : Str} :
    firstItem items q = none ↔ ∀ it ∈ items, it.m_key ≠ q := by
  simp [firstItem]

theorem firstItem_append (items items' : List ConfigItem) (q : Str) :
    firstItem (items ++ items') q = (firstItem items q).or (firstItem items' q) :=
  List.find?_append

theorem firstItem_singleton (it : ConfigItem) (q : Str) :
    firstItem [it] q = if it.m_key = q then some it else none := by
  by_cases h : it.m_key = q <;> simp [firstItem, h]

/-- The iterator of a key points to the first, and only, item of that key. -/
theorem SortedByKey.getElem?_lowerBound (hv : SortedByKey v) (item : ConfigItem) :
    (v[lowerBound (·.lt item) v]?).filter (·.m_key = item.m_key) = firstItem v item.m_key := by
  cases hf : firstItem v item.m_key with
  | none =>
      rw [Option.filter_eq_none_iff]
      intro found hfound hkey
      exact firstItem_eq_none.mp hf found (List.mem_of_getElem? hfound) (of_decide_eq_true hkey)
  | some it =>
      have hkey : it.m_key = item.m_key := by
        have hfound := List.find?_some hf
        exact of_decide_eq_true hfound
      obtain ⟨i, hi, rfl⟩ := List.mem_iff_getElem.mp (List.mem_of_find?_eq_some hf)
      -- the item is not before the iterator, and not behind it
      have hge : ¬ i < lowerBound (·.lt item) v := by
        rw [← hv.lt_iff item hi, hkey]
        exact List.lt_irrefl _
      have hle : ¬ lowerBound (·.lt item) v < i := by
        intro hlt
        have hbelow := List.pairwise_iff_getElem.mp hv _ i (by omega) hi hlt
        rw [hkey, hv.lt_iff item (by omega)] at hbelow
        omega
      have heq : lowerBound (·.lt item) v = i := by omega
      rw [heq, List.getElem?_eq_getElem hi, Option.filter_some, if_pos (decide_eq_true hkey)]

/-- `insert_item` leaves a key that is there alone, and puts a new one at the
iterator. -/
theorem insertItemVec_eq (hv : SortedByKey v) (item : ConfigItem) :
    insertItemVec v item =
      if (firstItem v item.m_key).isSome then v
      else vectorInsert v (lowerBound (·.lt item) v) item := by
  rw [← hv.getElem?_lowerBound item]
  unfold insertItemVec
  dsimp only
  cases v[lowerBound (·.lt item) v]? with
  | none => simp
  | some found => by_cases hkey : found.m_key = item.m_key <;> simp [hkey]

/-- A key that is not in the vector lies between the items before the iterator
and those from it on. -/
theorem SortedByKey.between (hv : SortedByKey v) (hnew : firstItem v item.m_key = none) :
    (∀ it ∈ v.take (lowerBound (·.lt item) v), it.m_key < item.m_key) ∧
      ∀ it ∈ v.drop (lowerBound (·.lt item) v), item.m_key < it.m_key := by
  constructor
  · intro it hit
    obtain ⟨i, hi, rfl⟩ := List.mem_iff_getElem.mp hit
    rw [List.length_take] at hi
    rw [List.getElem_take]
    exact (hv.lt_iff item (by omega)).mpr (by omega)
  · intro it hit
    obtain ⟨i, hi, rfl⟩ := List.mem_iff_getElem.mp hit
    rw [List.length_drop] at hi
    rw [List.getElem_drop]
    apply str_lt_of_not_lt
    · rw [hv.lt_iff item (by omega)]
      omega
    · exact firstItem_eq_none.mp hnew _ (List.getElem_mem _)

/-- `insert_item` keeps the vector sorted. -/
theorem SortedByKey.insertItemVec (hv : SortedByKey v) (item : ConfigItem) :
    SortedByKey (insertItemVec v item) := by
  rw [insertItemVec_eq hv]
  split
  · exact hv
  · next hnew =>
      obtain ⟨hlo, hhi⟩ := hv.between (Option.not_isSome_iff_eq_none.mp hnew)
      rw [SortedByKey, vectorInsert, List.pairwise_append, List.pairwise_cons]
      refine ⟨hv.take, ⟨hhi, hv.drop⟩, fun a ha b hb => ?_⟩
      rcases List.mem_cons.mp hb with rfl | hb
      · exact hlo a ha
      · exact List.lt_trans (hlo a ha) (hhi b hb)

/-- After `insert_item` a key has the item it had before, and the new item
only when there was none. -/
theorem firstItem_insertItemVec (hv : SortedByKey v) (item : ConfigItem) (q : Str) :
    firstItem (insertItemVec v item) q = firstItem (v ++ [item]) q := by
  have hsplit : firstItem v q = (firstItem (v.take (lowerBound (·.lt item) v)) q).or
      (firstItem (v.drop (lowerBound (·.lt item) v)) q) := by
    rw [← firstItem_append, List.take_append_drop]
  rw [insertItemVec_eq hv, firstItem_append, firstItem_singleton]
  split
  · next hold =>
      by_cases hq : item.m_key = q
      · subst hq
        rw [Option.or_of_isSome hold]
      · rw [if_neg hq, Option.or_none]
  · next hnew =>
      rw [vectorInsert, firstItem_append, ← List.singleton_append, firstItem_append,
        firstItem_singleton]
      by_cases hq : item.m_key = q
      · subst hq
        rw [Option.not_isSome_iff_eq_none.mp hnew] at hsplit
        obtain ⟨h1, h2⟩ := Option.or_eq_none_iff.mp hsplit.symm
        rw [h1, h2, Option.not_isSome_iff_eq_none.mp hnew, Option.or_none]
      · rw [if_neg hq, Option.none_or, Option.or_none, hsplit]

end

/-! ## the two builds on any history -/

/-- The vector after a history of `insert_item` calls. -/
def contentVec (items : List ConfigItem) : List ConfigItem := items.foldl insertItemVec []

/-- The map after a history of `insert_item` calls. -/
def contentMap (E : UnorderedMap Str Str) (items : List ConfigItem) : E.Map :=
  items.foldl (insertItemMap E) E.empty

/-- A history of `insert_item` keeps the vector sorted. -/
theorem sortedByKey_foldl (items : List ConfigItem) {v : List ConfigItem} (hv : SortedByKey v) :
    SortedByKey (items.foldl insertItemVec v) := by
  induction items generalizing v with
  | nil => exact hv
  | cons item items ih => exact ih (hv.insertItemVec item)

/-- After a history the first item of a key is the one that was inserted first. -/
theorem firstItem_foldl (items : List ConfigItem) {v : List ConfigItem} (hv : SortedByKey v)
    (q : Str) : firstItem (items.foldl insertItemVec v) q = firstItem (v ++ items) q := by
  induction items generalizing v with
  | nil => rw [List.foldl_nil, List.append_nil]
  | cons item items ih =>
      rw [List.foldl_cons, ih (hv.insertItemVec item), firstItem_append,
        firstItem_insertItemVec hv item, ← firstItem_append, List.append_assoc,
        List.singleton_append]

/-- The vector is sorted after every history. -/
theorem sortedByKey_contentVec (items : List ConfigItem) : SortedByKey (contentVec items) :=
  sortedByKey_foldl items List.Pairwise.nil

/-- The iterator of a key finds the first insertion of that key. -/
theorem contentVec_find (items : List ConfigItem) (q : Str) :
    ((contentVec items)[lowerBound (·.lt ⟨q, []⟩) (contentVec items)]?).filter (·.m_key = q) =
      firstItem items q := by
  have h := (sortedByKey_contentVec items).getElem?_lowerBound ⟨q, []⟩
  rw [h, contentVec, firstItem_foldl items List.Pairwise.nil, List.nil_append]

/-- After a history the map finds the value that was inserted first. -/
theorem find_foldl (E : UnorderedMap Str Str) (items : List ConfigItem) (m : E.Map) (q : Str) :
    E.find (items.foldl (insertItemMap E) m) q =
      (E.find m q).or ((firstItem items q).map (·.m_value)) := by
  induction items generalizing m with
  | nil => rw [List.foldl_nil, firstItem, List.find?_nil, Option.map_none, Option.or_none]
  | cons item items ih =>
      rw [List.foldl_cons, ih, insertItemMap, E.find_insert, ← List.singleton_append,
        firstItem_append, firstItem_singleton]
      by_cases hq : item.m_key = q
      · rw [if_pos hq, if_pos hq.symm, Option.some_or, Option.map_some, Option.or_assoc,
          Option.some_or]
      · rw [if_neg hq, if_neg (Ne.symm hq), Option.or_none, Option.none_or]

/-- The map holds the value of the first insertion of each key. -/
theorem contentMap_find (E : UnorderedMap Str Str) (items : List ConfigItem) (q : Str) :
    E.find (contentMap E items) q = (firstItem items q).map (·.m_value) := by
  rw [contentMap, find_foldl, E.find_empty, Option.none_or]

/-- `get_string` of the vector answers with the first value, or the default. -/
theorem getStringVec_eq (items : List ConfigItem) (key : List UInt8) (d : Str) :
    getStringVec (contentVec items) key d =
      ((firstItem items (cStr key)).map (·.m_value)).getD d := by
  unfold getStringVec
  rw [← contentVec_find]
  cases (contentVec items)[lowerBound (·.lt ⟨cStr key, []⟩) (contentVec items)]? with
  | none => simp
  | some found => by_cases hkey : found.m_key = cStr key <;> simp [hkey, Option.filter_some]

/-- `get_int` of the vector answers with the first value, or the default. -/
theorem getIntVec_eq (items : List ConfigItem) (key : List UInt8) (d : Int) :
    getIntVec (contentVec items) key d =
      ((firstItem items (cStr key)).map fun it => atoi (cStr it.m_value)).getD d := by
  unfold getIntVec
  rw [← contentVec_find]
  cases (contentVec items)[lowerBound (·.lt ⟨cStr key, []⟩) (contentVec items)]? with
  | none => simp
  | some found => by_cases hkey : found.m_key = cStr key <;> simp [hkey, Option.filter_some]

/-- `get_string` of the map answers with the first value, or the default. -/
theorem getStringMap_eq (E : UnorderedMap Str Str) (items : List ConfigItem) (key : List UInt8)
    (d : Str) :
    getStringMap E (contentMap E items) key d =
      ((firstItem items (cStr key)).map (·.m_value)).getD d := by
  rw [getStringMap, contentMap_find]
  cases firstItem items (cStr key) <;> rfl

/-- `get_int` of the map answers with the first value, or the default. -/
theorem getIntMap_eq (E : UnorderedMap Str Str) (items : List ConfigItem) (key : List UInt8)
    (d : Int) :
    getIntMap E (contentMap E items) key d =
      ((firstItem items (cStr key)).map fun it => atoi (cStr it.m_value)).getD d := by
  rw [getIntMap, contentMap_find]
  cases firstItem items (cStr key) <;> rfl

/-- **The engines agree**: after any history of `insert_item` calls both builds
answer every query with the first value inserted for the key, or else with the
default, and the vector is strictly sorted by key. -/
theorem engines_agree (E : UnorderedMap Str Str) (items : List ConfigItem) :
    SortedByKey (contentVec items) ∧
      (∀ (key : List UInt8) (default_value : Str),
        getStringMap E (contentMap E items) key default_value =
            getStringVec (contentVec items) key default_value ∧
          getStringVec (contentVec items) key default_value =
            ((firstItem items (cStr key)).map (·.m_value)).getD default_value) ∧
      ∀ (key : List UInt8) (default_value : Int),
        getIntMap E (contentMap E items) key default_value =
            getIntVec (contentVec items) key default_value ∧
          getIntVec (contentVec items) key default_value =
            ((firstItem items (cStr key)).map fun it => atoi (cStr it.m_value)).getD
              default_value := by
  refine ⟨sortedByKey_contentVec items, fun key d => ⟨?_, getStringVec_eq items key d⟩,
    fun key d => ⟨?_, getIntVec_eq items key d⟩⟩
  · rw [getStringMap_eq, getStringVec_eq]
  · rw [getIntMap_eq, getIntVec_eq]

/-- A map engine as an association list. -/
def alistEngine : UnorderedMap Str Str where
  Map := AList fun _ : Str => Str
  empty := ∅
  insert m k v := if k ∈ m then m else m.insert k v
  find m q := m.lookup q
  find_empty q := AList.lookup_empty q
  find_insert m k v q := by
    by_cases hk : k ∈ m
    · rw [if_pos hk]
      by_cases hq : q = k
      · subst hq
        rw [Option.or_of_isSome (AList.lookup_isSome.mpr hk)]
      · rw [if_neg hq, Option.or_none]
    · rw [if_neg hk]
      by_cases hq : q = k
      · subst hq
        rw [AList.lookup_insert, AList.lookup_eq_none.mpr hk, if_pos rfl, Option.none_or]
      · rw [AList.lookup_insert_ne hq, if_neg hq, Option.or_none]

/-- Three items of two keys. -/
def threeItems : List ConfigItem := [⟨[98], [49]⟩, ⟨[97], [50, 120]⟩, ⟨[98], [51]⟩]

/-- The first value of a key that is inserted twice, a number, and a default, in both
builds. -/
theorem engines_agree_three :
    contentVec threeItems = [⟨[97], [50, 120]⟩, ⟨[98], [49]⟩] ∧
      getStringMap alistEngine (contentMap alistEngine threeItems) [98, 0] [] = [49] ∧
      getIntMap alistEngine (contentMap alistEngine threeItems) [97] 7 = 2 ∧
      getIntMap alistEngine (contentMap alistEngine threeItems) [99] 7 = 7 := by
  obtain ⟨-, hstring, hint⟩ := engines_agree alistEngine threeItems
  refine ⟨by decide, ?_, ?_, ?_⟩
  · rw [(hstring _ _).1, (hstring _ _).2]
    decide
  · rw [(hint _ _).1, (hint _ _).2]
    decide
  · rw [(hint _ _).1, (hint _ _).2]
    decide

end MySrc
