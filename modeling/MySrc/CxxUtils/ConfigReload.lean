import MySrc.CxxUtils.ConfigLoad
import Mathlib.Data.Fintype.BigOperators
import Mathlib.Data.List.OfFn

/-!
# MySrc.CxxUtils.ConfigReload

Whether loading a file depends on the file alone.  It does not in two places:
an assignment before the first section head goes to the section the object was
left in, and a last line without a newline is dropped.

`function_of_file` says for which files neither shows.  That no other file is
safe takes a section name that no key of the file starts with.
-/

namespace MySrc.ConfigFile

open Lib

variable {E : UnorderedMap Str Str}

/-! ## loading again, and the last line -/

/-- An object that has loaded files with these contents, one after the other. -/
def loaded (E : UnorderedMap Str Str) (fps : List Str) : ConfigFile E :=
  fps.foldl (fun file fp => (file.load (some fp)).1) (new E)

/-- There is an assignment before the first section head. -/
def AssignsFirst : List Line → Bool
  | [] => false
  | .head _ :: _ => false
  | .assign _ _ :: _ => true
  | _ :: lines => AssignsFirst lines

/-- The last line adds no binding: its item, if it has one, is for a key that
is bound by the lines before it. -/
def LastAddsNothing (pre : Str) (lines : List Line) (last : Line) : Prop :=
  ∀ item, last.item (prefixOf pre lines) = some item →
    (firstItem (itemsOf pre lines) item.m_key).isSome

/-- The items of lines in a row: the sections go on. -/
theorem itemsOf_append (pre : Str) (ls ls' : List Line) :
    itemsOf pre (ls ++ ls') = itemsOf pre ls ++ itemsOf (prefixOf pre ls) ls' := by
  induction ls generalizing pre with
  | nil => rfl
  | cons l ls ih => rw [List.cons_append, itemsOf, itemsOf, ih, List.append_assoc]; rfl

/-- Without such an assignment, the section at the start does not matter. -/
theorem itemsOf_congr {ls : List Line} (h : AssignsFirst ls = false) (p p' : Str) :
    itemsOf p ls = itemsOf p' ls := by
  induction ls with
  | nil => rfl
  | cons l ls ih =>
      cases l with
      | head name => rfl
      | assign key value => simp [AssignsFirst] at h
      | skip => simpa [itemsOf, Line.item, Line.nextPrefix] using ih h
      | pair key value => simpa [itemsOf, Line.item, Line.nextPrefix] using ih h
      | bad => simpa [itemsOf, Line.item, Line.nextPrefix] using ih h

/-- The front of lines without an early assignment has none either. -/
theorem assignsFirst_of_append {ls ls' : List Line} (h : AssignsFirst (ls ++ ls') = false) :
    AssignsFirst ls = false := by
  induction ls with
  | nil => rfl
  | cons l ls ih =>
      cases l with
      | head name => rfl
      | assign key value => simp [AssignsFirst] at h
      | skip => exact ih h
      | pair key value => exact ih h
      | bad => exact ih h

/-- One more line changes no binding exactly when it adds nothing. -/
theorem bindings_append_iff (p : Str) (ls : List Line) (l : Line) :
    (∀ q, (firstItem (itemsOf p ls) q).map (·.m_value) =
        (firstItem (itemsOf p (ls ++ [l])) q).map (·.m_value)) ↔ LastAddsNothing p ls l := by
  have hitems : itemsOf p (ls ++ [l]) = itemsOf p ls ++ (l.item (prefixOf p ls)).toList := by
    rw [itemsOf_append, itemsOf, itemsOf, List.append_nil]
  rw [hitems, LastAddsNothing]
  cases hitem : l.item (prefixOf p ls) with
  | none => simp
  | some item =>
      simp only [Option.toList_some, firstItem_append, firstItem_singleton, Option.some.injEq,
        forall_eq']
      constructor
      · intro h
        have hkey := h item.m_key
        cases hf : firstItem (itemsOf p ls) item.m_key with
        | none => simp [hf] at hkey
        | some it => rfl
      · intro hsome q
        by_cases hq : item.m_key = q
        · subst hq
          rw [Option.or_of_isSome hsome]
        · rw [if_neg hq, Option.or_none]

/-- Without an early assignment the section before the file does not matter. -/
theorem lastAddsNothing_congr {ls : List Line} {l : Line} (h : AssignsFirst (ls ++ [l]) = false)
    (p p' : Str) : LastAddsNothing p ls l ↔ LastAddsNothing p' ls l := by
  rw [← bindings_append_iff, ← bindings_append_iff, itemsOf_congr h p p',
    itemsOf_congr (assignsFirst_of_append h) p p']

/-- The last newline ends the last line. -/
theorem pieces_append_newline (fp : Str) :
    lines (fp ++ [10]) = lines fp ++ [lastLine fp] ∧ lastLine (fp ++ [10]) = [] := by
  induction fp using line_induction with
  | last l hl =>
      rw [lines_line hl, lastLine_line hl, lines_of_notMem hl, lastLine_of_notMem hl]
      exact ⟨rfl, rfl⟩
  | line l rest hl ih =>
      rw [List.append_assoc, List.cons_append, lines_line hl, lastLine_line hl, lines_line hl,
        lastLine_line hl, ih.1, ih.2]
      exact ⟨rfl, rfl⟩

/-- Loading is a function of the file: what was loaded before makes no
difference, and neither does the newline at the end. -/
def FunctionOfFile (E : UnorderedMap Str Str) (fps : List Str) (fp : Str) : Prop :=
  (∀ q, ((loaded E fps).load (some fp)).1.bound q = ((new E).load (some fp)).1.bound q) ∧
    ∀ fp', fp = fp' ++ [10] →
      ∀ q, ((loaded E fps).load (some fp')).1.bound q = ((loaded E fps).load (some fp)).1.bound q

/-- The last line of a file is not missed without its newline. -/
def LastNotMissed (fp : Str) : Prop :=
  ∀ fp', fp = fp' ++ [10] → (lastLine fp').length = kMaxLineLength - 1 ∨
    LastAddsNothing [] ((lines fp').map lineOf) (lineOf (lastLine fp'))

/-- With a line break at its end a file is read to its last line. -/
theorem linesRead_append_newline (fp : Str) :
    linesRead (fp ++ [10]) = lines fp ++ [lastLine fp] := by
  obtain ⟨hlines, hlast⟩ := pieces_append_newline fp
  rw [linesRead, hlines, hlast]
  simp [kMaxLineLength]

/-- A file has short lines when it has them with a line break behind it. -/
theorem ShortLines.of_append_newline {fp : Str} (h : ShortLines (fp ++ [10])) : ShortLines fp := by
  obtain ⟨hlines, hlast⟩ := pieces_append_newline fp
  intro l hl
  rw [ShortLines, hlines] at h
  exact h l (List.mem_append_left _ hl)

/-- Without its newline the file leaves the same bindings exactly when the last
line fills the buffer or adds nothing. -/
theorem load_append_newline_iff (file : ConfigFile E) {fp : Str}
    (hshort : ShortLines (fp ++ [10])) :
    (∀ q, (file.load (some fp)).1.bound q = (file.load (some (fp ++ [10]))).1.bound q) ↔
      (lastLine fp).length = kMaxLineLength - 1 ∨
        LastAddsNothing file.m_prefix ((lines fp).map lineOf) (lineOf (lastLine fp)) := by
  have hwith := (load_eq file hshort).2
  have hwithout := (load_eq file hshort.of_append_newline).2
  rw [linesRead_append_newline, List.map_append] at hwith
  simp only [hwith, hwithout]
  rw [linesRead]
  by_cases hfull : (lastLine fp).length = kMaxLineLength - 1
  · simp [hfull]
  · rw [if_neg hfull, List.append_nil]
    simp only [hfull, false_or]
    exact bindings_append_iff _ _ _

/-- The section that a file with one section head leaves. -/
theorem loaded_headLine {name : Str} (h : Plain name) (hlen : name.length < 1022) :
    ConfigFile.m_prefix (loaded E [headLine name ++ [10]]) = name ++ [46] := by
  have hnl : 10 ∉ headLine name := by simp [headLine, h.2.1]
  have hshort : ShortLines (headLine name ++ 10 :: []) := by
    refine .line hnl ?_ shortLines_nil
    rw [headLine, kMaxLineLength, List.length_append, List.length_cons, List.length_singleton]
    omega
  have hpre := (load_eq (new E) hshort).1
  rw [linesRead_line hnl, List.map_cons, lineOf_headLine h] at hpre
  rw [loaded, List.foldl_cons, List.foldl_nil, hpre]
  rfl

/-- A name of letters `a` and `b`. -/
def Letters (name : Str) : Prop := ∀ c ∈ name, c = 97 ∨ c = 98

theorem Letters.plain {name : Str} (h : Letters name) : Plain name := by
  refine ⟨fun hc => ?_, fun hc => ?_, fun hc => ?_⟩ <;> simpa using h _ hc

theorem Letters.noBlankEnds {name : Str} (h : Letters name) : NoBlankEnds name := by
  have hblank : ∀ c : UInt8, c = 32 ∨ c = 9 → c ∉ name := by
    rintro c (rfl | rfl) hc <;> simpa using h _ hc
  intro c hc
  exact ⟨fun hhead => hblank c hc (List.mem_of_head? hhead),
    fun hlast => hblank c hc (List.mem_of_getLast? hlast)⟩

/-- The names of `n` letters. -/
def nameOf (n : Nat) (f : Fin n → Bool) : Str := List.ofFn fun i => if f i then 97 else 98

theorem letters_nameOf {n : Nat} (f : Fin n → Bool) : Letters (nameOf n f) := by
  intro c hc
  obtain ⟨i, rfl⟩ := List.mem_ofFn.mp hc
  cases f i <;> simp

/-- Different choices have different names. -/
theorem nameOf_injective (n : Nat) : Function.Injective (nameOf n) := by
  intro f g h
  have hfun := List.ofFn_injective h
  funext i
  have hi := congrFun hfun i
  revert hi
  cases f i <;> cases g i <;> simp

/-- There are more names than lines in a file. -/
theorem exists_letters_notMem {n : Nat} {l : List Str} (h : l.length < 2 ^ n) :
    ∃ name, name.length = n ∧ Letters name ∧ name ∉ l := by
  by_contra hall
  have hsub : Finset.univ.image (nameOf n) ⊆ l.toFinset := by
    intro s hs
    obtain ⟨f, -, rfl⟩ := Finset.mem_image.mp hs
    by_contra hf
    exact hall ⟨nameOf n f, List.length_ofFn, letters_nameOf f, mt List.mem_toFinset.mpr hf⟩
  have hcard := Finset.card_le_card hsub
  rw [Finset.card_image_of_injective _ (nameOf_injective n), Finset.card_univ, Fintype.card_fun,
    Fintype.card_bool, Fintype.card_fin] at hcard
  have hlen := l.toFinset_card_le
  omega

/-- The first assignment takes the section at the start. -/
theorem itemsOf_of_assignsFirst {ls : List Line} (h : AssignsFirst ls = true) :
    ∃ key value, ∀ p, ∀ item ∈ trimmedItem (p ++ key) value, item ∈ itemsOf p ls := by
  induction ls with
  | nil => simp [AssignsFirst] at h
  | cons l ls ih =>
      cases l with
      | head name => simp [AssignsFirst] at h
      | assign key value =>
          refine ⟨key, value, fun p item hitem => List.mem_append_left _ ?_⟩
          exact Option.mem_toList.mpr hitem
      | skip =>
          obtain ⟨key, value, hmem⟩ := ih h
          exact ⟨key, value, fun p item hitem => List.mem_append_right _ (hmem p item hitem)⟩
      | pair k v =>
          obtain ⟨key, value, hmem⟩ := ih h
          exact ⟨key, value, fun p item hitem => List.mem_append_right _ (hmem p item hitem)⟩
      | bad =>
          obtain ⟨key, value, hmem⟩ := ih h
          exact ⟨key, value, fun p item hitem => List.mem_append_right _ (hmem p item hitem)⟩

theorem length_itemsOf_le (p : Str) (ls : List Line) : (itemsOf p ls).length ≤ ls.length := by
  induction ls generalizing p with
  | nil => rfl
  | cons l ls ih =>
      have hrest := ih (l.nextPrefix p)
      rw [itemsOf, List.length_append, List.length_cons]
      have hitem : (l.item p).toList.length ≤ 1 := by cases l.item p <;> simp
      omega

theorem length_linesRead_le (fp : Str) : (linesRead fp).length ≤ fp.length := by
  induction fp using line_induction with
  | last l hl =>
      rw [linesRead, lines_of_notMem hl, lastLine_of_notMem hl, List.nil_append]
      split
      · next hfull => simp [hfull, kMaxLineLength]
      · simp
  | line l rest hl ih =>
      rw [linesRead_line hl, List.length_cons, List.length_append, List.length_cons]
      omega

/-- Behind a file with a section head that no key starts with, an assignment
before the first section head is bound to another key. -/
theorem exists_loaded_ne {fp : Str} (hshort : ShortLines fp) (hsize : fp.length < 2 ^ 63)
    (hassign : AssignsFirst ((linesRead fp).map lineOf) = true) :
    ∃ fps q, ((loaded E fps).load (some fp)).1.bound q ≠ ((new E).load (some fp)).1.bound q := by
  obtain ⟨key, value, hitem⟩ := itemsOf_of_assignsFirst hassign
  have hcount : (itemsOf [] ((linesRead fp).map lineOf)).length < 2 ^ 63 := by
    have hitems := length_itemsOf_le [] ((linesRead fp).map lineOf)
    have hlines := length_linesRead_le fp
    rw [List.length_map] at hitems
    omega
  obtain ⟨name, hlen, hletters, hnew⟩ := exists_letters_notMem
    (l := (itemsOf [] ((linesRead fp).map lineOf)).map (·.m_key.take 63)) (n := 63)
    (by rwa [List.length_map])
  have hne : name ≠ [] := by
    rintro rfl
    simp at hlen
  -- the key of the assignment starts with the name
  obtain ⟨rest, hkey⟩ := prefix_trim hne hletters.noBlankEnds (46 :: key)
  have hmem : ⟨name ++ rest, trim value⟩ ∈ itemsOf (name ++ [46]) ((linesRead fp).map lineOf) := by
    refine hitem (name ++ [46]) _ ?_
    rw [trimmedItem, List.append_assoc, List.singleton_append, ← hkey]
    simp [hne]
  refine ⟨[headLine name ++ [10]], name ++ rest, ?_⟩
  rw [(load_eq _ hshort).2, (load_eq _ hshort).2, loaded_headLine hletters.plain (by omega)]
  have hfresh : firstItem (itemsOf [] ((linesRead fp).map lineOf)) (name ++ rest) = none := by
    rw [firstItem_eq_none]
    rintro it hit hkey
    refine hnew (List.mem_map.mpr ⟨it, hit, ?_⟩)
    rw [hkey, ← hlen, List.take_left]
  intro heq
  rw [show ConfigFile.m_prefix (new E) = [] from rfl, hfresh, Option.map_none,
    Option.map_eq_none_iff, firstItem_eq_none] at heq
  exact heq _ hmem rfl

/-- **Loading is a function of the file**, after any loads, when the object was
left in no section or no assignment of the file stands before its first section
head, and the last line is not missed.  No other file is safe: behind some
loads, or without its newline, it leaves other bindings. -/
theorem function_of_file (E : UnorderedMap Str Str) {fp : Str} (hshort : ShortLines fp) :
    (∀ fps,
        (ConfigFile.m_prefix (loaded E fps) = [] ∨
          AssignsFirst ((linesRead fp).map lineOf) = false) →
        LastNotMissed fp → FunctionOfFile E fps fp) ∧
      (fp.length < 2 ^ 63 → (∀ fps, FunctionOfFile E fps fp) →
        AssignsFirst ((linesRead fp).map lineOf) = false ∧ LastNotMissed fp) := by
  constructor
  · intro fps hpre hlast
    constructor
    · intro q
      rw [(load_eq _ hshort).2, (load_eq _ hshort).2]
      rcases hpre with hnil | hassign
      · rw [hnil]
        rfl
      · rw [itemsOf_congr hassign]
    · rintro fp' rfl
      rw [load_append_newline_iff _ hshort]
      refine (hlast fp' rfl).imp_right fun hnothing => ?_
      rcases hpre with hnil | hassign
      · rwa [hnil]
      · rw [linesRead_append_newline, List.map_append] at hassign
        exact (lastAddsNothing_congr hassign _ _).mp hnothing
  · intro hsize hall
    constructor
    · rw [← Bool.not_eq_true]
      intro hassign
      obtain ⟨fps, q, hne⟩ := exists_loaded_ne (E := E) hshort hsize hassign
      exact hne ((hall fps).1 q)
    · rintro fp' rfl
      exact (load_append_newline_iff (new E) hshort).mp ((hall []).2 fp' rfl)

/-- The lines `[a]`, `k=v` and `k=w`, behind a file with the section `[b]`. -/
theorem function_of_file_abc :
    FunctionOfFile alistEngine [[91, 98, 93, 10]]
      [91, 97, 93, 10, 107, 61, 118, 10, 107, 61, 119, 10] := by
  have hshort : ShortLines [91, 97, 93, 10, 107, 61, 118, 10, 107, 61, 119, 10] := by
    unfold ShortLines
    decide
  refine (function_of_file alistEngine hshort).1 _ (.inr (by decide)) ?_
  intro fp' hfp'
  obtain rfl : fp' = [91, 97, 93, 10, 107, 61, 118, 10, 107, 61, 119] :=
    List.append_cancel_right (hfp'.symm.trans rfl)
  refine .inr fun item hitem => ?_
  obtain rfl : (⟨[97, 46, 107], [119]⟩ : ConfigItem) = item := by
    refine Option.some.inj (Eq.trans ?_ hitem)
    decide
  decide

/-- The line `k=v` is bound to `b.k` behind a file with the section `[b]`, and
not bound at all without its newline. -/
theorem load_depends_on_more :
    ¬ ∀ (fps : List Str) (fp : Str), ShortLines fp → FunctionOfFile alistEngine fps fp := by
  intro h
  have hshort : ShortLines [107, 61, 118, 10] := by
    unfold ShortLines
    decide
  have hbound := (h [[91, 98, 93, 10]] _ hshort).1 [107]
  revert hbound
  decide

end MySrc.ConfigFile
