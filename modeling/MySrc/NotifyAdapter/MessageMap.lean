import MySrc.NotifyAdapter.MessageCodec
import MySrc.Lib.OrdMap

/-!
# MySrc.NotifyAdapter.MessageMap

`map2string` and `string2map` of `notify_adapter_v2/src/common/mycommon.cpp`, on maps that have
an order.  `map2string` writes the items from the last key to the first, with a `&` behind
each, and takes the last `&` away.

Items of `Plain` texts are read back as they are (`string2map_map2string`), and what
`string2map` has read is plain; so a message that was read once is read again as the same
map (`messageMap_round_trip`).
-/

namespace MySrc
namespace NotifyAdapter
namespace MessageMap

open Lib

/-! ## the functions -/

/-- `std::map<std::string, std::string>` -/
abbrev Map := OrdMap Str Str

/-- An item of a message. -/
def item (e : Str × Str) : Str := e.1 ++ 61 :: e.2

/-- `map2string` -/
def map2string (str_rtn : Str) (map_src : Map) : Str :=
  let str_rtn := map_src.entries.reverse.foldl (fun str_rtn e => str_rtn ++ item e ++ [38]) str_rtn
  if str_rtn.isEmpty then str_rtn else str_rtn.take (str_rtn.length - 1)

/-- The body of the loop of `string2map`. -/
def insertItem (map_rtn : Map) (str_item : Str) : Map :=
  match split 61 str_item with
  | [key, value] => map_rtn.insertNew (boostTrim key) (boostTrim value)
  | _ => map_rtn

/-- `string2map` -/
def string2map (str_src : Str) (map_rtn : Map) : Map := (split 38 str_src).foldl insertItem map_rtn

/-! ## texts -/

/-- A text that is read back as it is. -/
structure Plain (s : Str) : Prop where
  amp : 38 ∉ s
  eq : 61 ∉ s
  trimmed : Trimmed s

def PlainMap (m : Map) : Prop := ∀ e ∈ m.entries, Plain e.1 ∧ Plain e.2

section

variable {s : Str} {e : Str × Str} {m : Map}

theorem boostTrim_subset (s : Str) : boostTrim s ⊆ s := by
  intro c hc
  rw [boostTrim, List.mem_reverse] at hc
  have hback := (List.dropWhile_suffix isspace).subset hc
  rw [List.mem_reverse] at hback
  exact (List.dropWhile_suffix isspace).subset hback

theorem head?_dropWhile {c : UInt8} (h : c ∈ (s.dropWhile isspace).head?) : isspace c = false := by
  have hnot := List.head?_dropWhile_not isspace s
  rw [Option.mem_def.mp h] at hnot
  exact hnot

/-- `boost::trim` leaves no blank at either end. -/
theorem trimmed_boostTrim (s : Str) : Trimmed (boostTrim s) := by
  constructor
  · intro c hc
    obtain ⟨t, ht⟩ : boostTrim s <+: s.dropWhile isspace := by
      rw [boostTrim, ← List.reverse_suffix, List.reverse_reverse]
      exact List.dropWhile_suffix isspace
    have hhead : (s.dropWhile isspace).head? = some c := by
      rw [← ht, List.head?_append, Option.mem_def.mp hc]
      rfl
    exact head?_dropWhile hhead
  · intro c hc
    rw [boostTrim, List.getLast?_reverse] at hc
    exact head?_dropWhile hc

/-! ## one item -/

theorem insertItem_item (he : Plain e.1 ∧ Plain e.2) (m : Map) :
    insertItem m (item e) = m.insertNew e.1 e.2 := by
  rw [insertItem, item, split_append, split_of_notMem he.1.eq, split_of_notMem he.2.eq,
    List.singleton_append]
  simp only [boostTrim_of_trimmed he.1.trimmed, boostTrim_of_trimmed he.2.trimmed]

theorem amp_notMem_item (he : Plain e.1 ∧ Plain e.2) : 38 ∉ item e := by
  rw [item, List.mem_append, List.mem_cons, not_or, not_or]
  exact ⟨he.1.amp, by decide, he.2.amp⟩

/-- A piece of an item is plain once it is trimmed. -/
theorem plain_boostTrim {p : Str} (hs : 38 ∉ s) (hp : p ∈ split 61 s) : Plain (boostTrim p) where
  amp := fun h => hs (subset_of_mem_split hp (boostTrim_subset p h))
  eq := fun h => notMem_of_mem_split hp (boostTrim_subset p h)
  trimmed := trimmed_boostTrim p

theorem plainMap_insertItem (hm : PlainMap m) (hs : 38 ∉ s) : PlainMap (insertItem m s) := by
  rw [insertItem]
  split
  · next key value hsplit =>
    intro e he
    rcases OrdMap.mem_insertSorted he with rfl | he
    · exact ⟨plain_boostTrim hs (by simp [hsplit]), plain_boostTrim hs (by simp [hsplit])⟩
    · exact hm e he
  · exact hm

/-- What is read is plain. -/
theorem plainMap_string2map (str_src : Str) : PlainMap (string2map str_src .empty) := by
  have hempty : PlainMap .empty := by
    intro e he
    cases he
  exact List.foldlRecOn _ insertItem hempty fun _ hm _ hitem =>
    plainMap_insertItem hm (notMem_of_mem_split hitem)

theorem find_insertNew_eq (m : Map) (key value : Str) :
    (m.insertNew key value).find = StrMap.insertNew m.find key value := by
  funext q
  rw [OrdMap.find_insertNew]
  by_cases hq : q = key
  · cases hkey : m.find key <;> simp [StrMap.insertNew, StrMap.set, hq, hkey]
  · cases hkey : m.find key <;> simp [StrMap.insertNew, StrMap.set, hq, hkey]

/-- What the map of a message finds is what `string2map` of
`MySrc.TemplateHttp.HttpRequestPacket` finds, which forgets the order. -/
theorem find_string2map (str_src : Str) (map_rtn : Map) :
    (string2map str_src map_rtn).find = MySrc.string2map str_src map_rtn.find := by
  rw [string2map, MySrc.string2map]
  induction split 38 str_src generalizing map_rtn with
  | nil => rfl
  | cons str_item items ih =>
      rw [List.foldl_cons, List.foldl_cons, ih, insertItem]
      congr 1
      rcases split 61 str_item with _ | ⟨key, _ | ⟨value, _ | ⟨third, more⟩⟩⟩
      · rfl
      · rfl
      · exact find_insertNew_eq map_rtn (boostTrim key) (boostTrim value)
      · rfl

end

/-! ## messages -/

theorem foldl_item (l : List (Str × Str)) (str_rtn : Str) :
    l.foldl (fun str_rtn e => str_rtn ++ item e ++ [38]) str_rtn =
      str_rtn ++ (l.map item).flatMap (· ++ [38]) := by
  induction l generalizing str_rtn with
  | nil => simp
  | cons e l ih =>
      rw [List.foldl_cons, ih, List.map_cons, List.flatMap_cons]
      simp

/-- A separator behind each item is one between them and one behind the last. -/
theorem flatMap_amp {l : List Str} (hl : l ≠ []) :
    l.flatMap (· ++ [38]) = [38].intercalate l ++ [38] := by
  induction l with
  | nil => exact absurd rfl hl
  | cons s l ih =>
      cases l with
      | nil => simp
      | cons t l =>
          rw [List.flatMap_cons, ih (List.cons_ne_nil t l), List.intercalate_cons_cons]
          simp

/-- Writing puts the items behind each other, the last key first. -/
theorem map2string_eq (m : Map) :
    map2string [] m = [38].intercalate (m.entries.reverse.map item) := by
  rw [map2string, foldl_item, List.nil_append]
  by_cases hitems : m.entries.reverse.map item = []
  · rw [hitems]
    rfl
  · rw [flatMap_amp hitems]
    simp

/-- **Reading what was written** gives the map back. -/
theorem string2map_map2string {m : Map} (hm : PlainMap m) :
    string2map (map2string [] m) .empty = m := by
  have hplain : ∀ e ∈ m.entries.reverse, Plain e.1 ∧ Plain e.2 := fun e he =>
    hm e (List.mem_reverse.mp he)
  rw [map2string_eq, string2map]
  by_cases hitems : m.entries.reverse.map item = []
  · have hentries : m.entries = [] := by simpa using hitems
    have hempty : m = .empty := by
      cases m
      cases hentries
      rfl
    rw [hempty]
    decide
  · have hamp : ∀ str_item ∈ m.entries.reverse.map item, 38 ∉ str_item := by
      intro str_item hitem
      obtain ⟨e, he, rfl⟩ := List.mem_map.mp hitem
      exact amp_notMem_item (hplain e he)
    have hinsert : ∀ (map_rtn : Map), ∀ e ∈ m.entries.reverse,
        insertItem map_rtn (item e) = map_rtn.insertNew e.1 e.2 :=
      fun map_rtn e he => insertItem_item (hplain e he) map_rtn
    rw [split_intercalate hitems hamp, List.foldl_map, List.foldl_ext _ _ _ hinsert]
    exact m.foldl_insertNew_entries fun e => List.mem_reverse

/-- **Round trips.**  A map of plain keys and values is read as it was written, and a message
that was read and written again is read as the same map. -/
theorem messageMap_round_trip :
    (∀ m : Map, PlainMap m → string2map (map2string [] m) .empty = m) ∧
      ∀ s : Str, string2map (map2string [] (string2map s .empty)) .empty = string2map s .empty :=
  ⟨fun _ hm => string2map_map2string hm,
    fun s => string2map_map2string (plainMap_string2map s)⟩

/-- `b = 2&a=1&b=3&x`, with blanks, a key that comes twice and an item that is none. -/
def looseMessage : Str :=
  ascii ['b', ' ', '=', ' ', '2', '&', 'a', '=', '1', '&', 'b', '=', '3', '&', 'x']

/-- The map of two keys that is read, its text, and the same map again. -/
theorem messageMap_round_trip_twoKeys :
    (string2map looseMessage .empty).entries = [([97], [49]), ([98], [50])] ∧
      map2string [] (string2map looseMessage .empty) =
        ascii ['b', '=', '2', '&', 'a', '=', '1'] ∧
      string2map (ascii ['b', '=', '2', '&', 'a', '=', '1']) .empty =
        string2map looseMessage .empty := by
  have htext : map2string [] (string2map looseMessage .empty) =
      ascii ['b', '=', '2', '&', 'a', '=', '1'] := by
    decide +kernel
  refine ⟨by decide +kernel, htext, ?_⟩
  rw [← htext]
  exact messageMap_round_trip.2 looseMessage

end MessageMap
end NotifyAdapter
end MySrc
