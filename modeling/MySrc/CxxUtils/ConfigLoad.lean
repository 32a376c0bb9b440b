import MySrc.CxxUtils.ConfigFile
import MySrc.Lib.Text
import Mathlib.Data.List.DropRight

/-!
# MySrc.CxxUtils.ConfigLoad

Reading a configuration file: `load`, `loadline` and `trim` of
`cxx_utils/config_file.cpp`, in the default build.

`loadline` sorts a line by its whole text (`classify`): a section head, an
assignment, a pair with a blank in between, or nothing of these.  The section
is a member of the object, and `load` does not clear it; `load` also stops as
soon as `feof` holds, which for a last line without a newline is before the
line was looked at.
-/

namespace MySrc

open Lib

/-- `ConfigFile`, with the container as in `insertItemMap`. -/
structure ConfigFile (E : UnorderedMap Str Str) where
  m_content : E.Map
  m_prefix : Str

namespace ConfigFile

variable {E : UnorderedMap Str Str}

/-- `kMaxLineLength` -/
def kMaxLineLength : Nat := 1024

/-- `ConfigFile::ConfigFile` -/
def new (E : UnorderedMap Str Str) : ConfigFile E := ⟨E.empty, []⟩

/-- The characters from `find_first_not_of(c)` to `find_last_not_of(c)`, none
when there is no such character. -/
def strip (c : UInt8) (s : Str) : Str := (s.dropWhile (· = c)).rdropWhile (· = c)

/-- `ConfigFile::trim`: first the blanks at both ends, then the tabs. -/
def trim (s : Str) : Str := strip 9 (strip 32 s)

/-- The text of the line in `buffer`: up to `\r`, or if there is none up to
`\n`. -/
def strline (buffer : Str) : Str :=
  match ((cStr buffer).idxOf? 13).or ((cStr buffer).idxOf? 10) with
  | some pos => (cStr buffer).take pos
  | none => cStr buffer

/-- The item of a key and a value as they stand in the line, if the key is not
empty. -/
def trimmedItem (key value : Str) : Option ConfigItem :=
  if trim key ≠ [] then some ⟨trim key, trim value⟩ else none

/-- `insert_item`, for a line that has an item. -/
def insert (file : ConfigFile E) : Option ConfigItem → ConfigFile E
  | some item => { file with m_content := insertItemMap E file.m_content item }
  | none => file

/-- `ConfigFile::loadline` -/
def loadline (file : ConfigFile E) (buffer : Str) : ConfigFile E × Bool :=
  let s := trim (strline buffer)
  if s = [] then (file, true)
  else if s.idxOf? 35 = some 0 then (file, true)
  else if s.head? = some 91 ∧ s.getLast? = some 93 then
    ({ file with m_prefix := (s.drop 1).take (s.length - 2) ++ [46] }, true)
  else
    match s.idxOf? 61 with
    | some pos =>
        let key := file.m_prefix ++ s.take pos
        (file.insert (trimmedItem key (s.drop (pos + 1))), true)
    | none =>
        match (s.idxOf? 9).or (s.idxOf? 32) with
        | some pos => (file.insert (trimmedItem (s.take pos) (s.drop (pos + 1))), true)
        | none => (file, false)

/-- `fgets` with room for `n` characters: the characters read, the rest of the
file, and `feof` after the call.  The pointer returned is null when nothing was
read. -/
def fgets : Nat → Str → Str × Str × Bool
  | 0, rest => ([], rest, false)
  | _ + 1, [] => ([], [], true)
  | n + 1, c :: rest =>
      if c = 10 then ([c], rest, false)
      else (c :: (fgets n rest).1, (fgets n rest).2.1, (fgets n rest).2.2)

/-- The loop of `load`, for at most `fuel` calls of `fgets`. -/
def loadLoop : Nat → ConfigFile E → Str → ConfigFile E
  | 0, file, _ => file
  | fuel + 1, file, fp =>
      let (buffer, rest, feof) := fgets (kMaxLineLength - 1) fp
      if buffer = [] ∨ feof then file else loadLoop fuel (file.loadline buffer).1 rest

/-- `ConfigFile::load`, with what is in the file that `fopen` opens. -/
def load (file : ConfigFile E) (fopen : Option Str) : ConfigFile E × Bool :=
  match fopen with
  | none => (file, false)
  | some fp => (loadLoop (fp.length + 1) { file with m_content := E.empty } fp, true)

/-- The value a key is bound to. -/
def bound (file : ConfigFile E) (q : Str) : Option Str := E.find file.m_content q

/-! ## trim -/

/-- Neither end is a blank or a tab. -/
def NoBlankEnds (s : Str) : Prop :=
  ∀ c : UInt8, c = 32 ∨ c = 9 → s.head? ≠ some c ∧ s.getLast? ≠ some c

theorem dropWhile_of_head {c : UInt8} {s : Str} (h : s.head? ≠ some c) :
    s.dropWhile (· = c) = s := by
  cases s with
  | nil => rfl
  | cons d s =>
      rw [List.dropWhile_cons_of_neg]
      simpa using h

/-- A part that starts and ends in other characters stays. -/
theorem prefix_strip {c : UInt8} {a : Str} (hne : a ≠ []) (hhead : a.head? ≠ some c)
    (hlast : a.getLast? ≠ some c) (b : Str) : a <+: strip c (a ++ b) := by
  have hhead' : (a ++ b).head? ≠ some c := by
    rwa [List.head?_append_of_ne_nil _ hne]
  have hrev : a.reverse.dropWhile (· = c) = a.reverse :=
    dropWhile_of_head (by rwa [List.head?_reverse])
  rw [strip, dropWhile_of_head hhead', List.rdropWhile, List.reverse_append,
    List.dropWhile_append, hrev]
  split
  · simp
  · rw [List.reverse_append, List.reverse_reverse]
    exact List.prefix_append _ _

theorem infix_strip (c : UInt8) (s : Str) : strip c s <:+: s :=
  (List.rdropWhile_prefix _ _).isInfix.trans (List.dropWhile_suffix _).isInfix

theorem infix_trim (s : Str) : trim s <:+: s := (infix_strip 9 _).trans (infix_strip 32 s)

/-- Trimming keeps a front that has no blank at its ends. -/
theorem prefix_trim {a : Str} (hne : a ≠ []) (hends : NoBlankEnds a) (b : Str) :
    a <+: trim (a ++ b) := by
  obtain ⟨b', hb'⟩ := prefix_strip hne (hends 32 (.inl rfl)).1 (hends 32 (.inl rfl)).2 b
  rw [trim, ← hb']
  exact prefix_strip hne (hends 9 (.inr rfl)).1 (hends 9 (.inr rfl)).2 b'

theorem trim_eq_self {s : Str} (hends : NoBlankEnds s) : trim s = s := by
  by_cases hne : s = []
  · subst hne
    rfl
  · have hpre := prefix_trim hne hends []
    rw [List.append_nil] at hpre
    exact (hpre.eq_of_length_le (infix_trim s).length_le).symm

/-! ## lines -/

/-- What `loadline` takes a line for. -/
inductive Line where
  | skip
  | head (name : Str)
  | assign (key value : Str)
  | pair (key value : Str)
  | bad
  deriving DecidableEq

/-- The kind of a line, from its trimmed text. -/
def classify (s : Str) : Line :=
  if s = [] ∨ s.idxOf? 35 = some 0 then .skip
  else if s.head? = some 91 ∧ s.getLast? = some 93 then .head ((s.drop 1).take (s.length - 2))
  else
    match s.idxOf? 61 with
    | some pos => .assign (s.take pos) (s.drop (pos + 1))
    | none =>
        match (s.idxOf? 9).or (s.idxOf? 32) with
        | some pos => .pair (s.take pos) (s.drop (pos + 1))
        | none => .bad

/-- The line in a buffer. -/
def lineOf (buffer : Str) : Line := classify (trim (strline buffer))

/-- The item a line adds in a section. -/
def Line.item (pre : Str) : Line → Option ConfigItem
  | .assign key value => trimmedItem (pre ++ key) value
  | .pair key value => trimmedItem key value
  | _ => none

/-- The section behind a line. -/
def Line.nextPrefix (pre : Str) : Line → Str
  | .head name => name ++ [46]
  | _ => pre

/-- The items that lines add, one after the other. -/
def itemsOf (pre : Str) : List Line → List ConfigItem
  | [] => []
  | line :: lines => (line.item pre).toList ++ itemsOf (line.nextPrefix pre) lines

/-- The section behind lines. -/
def prefixOf (pre : Str) (lines : List Line) : Str := lines.foldl Line.nextPrefix pre

/-- Adding an item leaves the section. -/
theorem insert_eta (file : ConfigFile E) (item : Option ConfigItem) :
    file.insert item = { file.insert item with m_prefix := file.m_prefix } := by
  cases item <;> rfl

/-- `loadline` adds the item of the line, and goes to its section. -/
theorem loadline_eq (file : ConfigFile E) (buffer : Str) :
    (file.loadline buffer).1 =
      { file.insert ((lineOf buffer).item file.m_prefix) with
        m_prefix := (lineOf buffer).nextPrefix file.m_prefix } := by
  unfold loadline lineOf classify
  dsimp only
  generalize trim (strline buffer) = s
  by_cases hnil : s = []
  · simp [hnil, Line.item, Line.nextPrefix, insert]
  by_cases hcomment : s.idxOf? 35 = some 0
  · simp [hnil, hcomment, Line.item, Line.nextPrefix, insert]
  rw [if_neg hnil, if_neg hcomment, if_neg (not_or.mpr ⟨hnil, hcomment⟩)]
  by_cases hhead : s.head? = some 91 ∧ s.getLast? = some 93
  · rw [if_pos hhead, if_pos hhead]
    rfl
  rw [if_neg hhead, if_neg hhead]
  cases s.idxOf? 61 with
  | some pos => exact insert_eta file _
  | none =>
      cases (s.idxOf? 9).or (s.idxOf? 32) with
      | some pos => exact insert_eta file _
      | none => rfl

/-- A key is bound as before, and to the new item only when it was not. -/
theorem bound_insert (file : ConfigFile E) (item : Option ConfigItem) (q : Str) :
    (file.insert item).bound q =
      (file.bound q).or ((firstItem item.toList q).map (·.m_value)) := by
  cases item with
  | none => simp [insert, firstItem]
  | some item =>
      rw [Option.toList_some, firstItem_singleton, bound, insert, insertItemMap, E.find_insert]
      by_cases hq : item.m_key = q
      · simp [bound, hq]
      · simp [bound, hq, Ne.symm hq]

/-- The lines of a loop of `loadline` calls leave their items and their
section. -/
theorem foldl_loadline (file : ConfigFile E) (buffers : List Str) :
    let file' := buffers.foldl (fun file buffer => (file.loadline buffer).1) file
    file'.m_prefix = prefixOf file.m_prefix (buffers.map lineOf) ∧
      ∀ q, file'.bound q =
        (file.bound q).or
          ((firstItem (itemsOf file.m_prefix (buffers.map lineOf)) q).map (·.m_value)) := by
  induction buffers generalizing file with
  | nil => simp [prefixOf, itemsOf, firstItem]
  | cons buffer buffers ih =>
      obtain ⟨hpre, hbound⟩ := ih (file.loadline buffer).1
      rw [loadline_eq] at hpre hbound
      refine ⟨?_, fun q => ?_⟩
      · rw [List.foldl_cons, loadline_eq, hpre]
        rfl
      · have hinsert := bound_insert file ((lineOf buffer).item file.m_prefix) q
        rw [List.foldl_cons, loadline_eq, hbound q, List.map_cons, itemsOf, firstItem_append,
          Option.map_or, ← Option.or_assoc, ← hinsert]
        rfl

/-! ## the lines of a file -/

/-- The text of a line: its characters up to a NUL or `\r`. -/
def text (l : Str) : Str := (cStr l).takeWhile (· ≠ 13)

theorem take_of_idxOf? {c : UInt8} {s : Str} {pos : Nat} (h : s.idxOf? c = some pos) :
    s.take pos = s.takeWhile (· ≠ c) := by
  obtain ⟨hpos, hc, hbefore⟩ := List.idxOf?_eq_some_iff.mp h
  rw [List.takeWhile_eq_take_findIdx_not]
  congr 1
  refine ((List.findIdx_eq hpos).mpr ⟨by simp [hc], fun j hj => ?_⟩).symm
  simpa using hbefore j hj

/-- A line that ends in a newline is cut before it. -/
theorem strline_eq (buffer : Str) :
    strline buffer =
      if 13 ∈ cStr buffer then text buffer else (cStr buffer).takeWhile (· ≠ 10) := by
  unfold strline
  cases h13 : (cStr buffer).idxOf? 13 with
  | some pos =>
      have hmem : 13 ∈ cStr buffer := List.isSome_idxOf?.mp (by rw [h13]; rfl)
      rw [if_pos hmem, Option.some_or, text]
      exact take_of_idxOf? h13
  | none =>
      rw [if_neg (List.idxOf?_eq_none_iff.mp h13), Option.none_or]
      cases h10 : (cStr buffer).idxOf? 10 with
      | some pos => exact take_of_idxOf? h10
      | none => exact (takeWhile_ne_self (List.idxOf?_eq_none_iff.mp h10)).symm

theorem cStr_subset (s : Str) : cStr s ⊆ s := (List.takeWhile_prefix _).subset

/-- The text of a line does not need its line break. -/
theorem strline_of_notMem {l : Str} (h : 10 ∉ l) : strline l = text l := by
  rw [strline_eq]
  split
  · rfl
  · next h13 =>
      rw [takeWhile_ne_self fun hmem => h (cStr_subset l hmem), text,
        takeWhile_ne_self h13]

/-- The newline behind a line is not part of its text. -/
theorem strline_append_newline {l : Str} (h : 10 ∉ l) : strline (l ++ [10]) = text l := by
  by_cases hnul : 0 ∈ l
  · have hc : cStr (l ++ [10]) = cStr l := takeWhile_ne_append_of_mem hnul _
    rw [← strline_of_notMem h, strline, strline, hc]
  · have hc : cStr (l ++ [10]) = l ++ [10] := cStr_eq_self (by simp [hnul])
    rw [strline_eq, text, text, hc, cStr_eq_self hnul]
    by_cases h13 : 13 ∈ l
    · rw [if_pos (List.mem_append_left _ h13), takeWhile_ne_append_of_mem h13]
    · rw [if_neg (by simp [h13]), takeWhile_ne_self h13, List.takeWhile_append,
        takeWhile_ne_self h, if_pos rfl]
      simp

/-- A line is sorted as it is without its line break. -/
theorem lineOf_append_newline {l : Str} (h : 10 ∉ l) : lineOf (l ++ [10]) = lineOf l := by
  rw [lineOf, lineOf, strline_append_newline h, strline_of_notMem h]

theorem loadline_newline (file : ConfigFile E) : (file.loadline [10]).1 = file := rfl

section

variable {n : Nat} {l rest : Str}

/-- `fgets` reads a line with its newline, if there is room for it, -/
theorem fgets_line (h : 10 ∉ l) (hn : l.length < n) :
    fgets n (l ++ 10 :: rest) = (l ++ [10], rest, false) := by
  induction l generalizing n with
  | nil =>
      obtain ⟨n, rfl⟩ := Nat.exists_eq_succ_of_ne_zero (by omega : n ≠ 0)
      simp [fgets]
  | cons c l ih =>
      obtain ⟨n, rfl⟩ := Nat.exists_eq_succ_of_ne_zero (by omega : n ≠ 0)
      simp only [List.mem_cons, not_or, List.length_cons] at h hn
      rw [List.cons_append, fgets, if_neg (Ne.symm h.1), ih h.2 (by omega)]
      rfl

/-- and otherwise as much as there is room for; -/
theorem fgets_full (h : 10 ∉ l) : fgets l.length (l ++ rest) = (l, rest, false) := by
  induction l with
  | nil => simp [fgets]
  | cons c l ih =>
      simp only [List.mem_cons, not_or] at h
      rw [List.cons_append, List.length_cons, fgets, if_neg (Ne.symm h.1), ih h.2]

/-- at the end of the file it has seen the end. -/
theorem fgets_tail (h : 10 ∉ l) (hn : l.length < n) : fgets n l = (l, [], true) := by
  induction l generalizing n with
  | nil =>
      obtain ⟨n, rfl⟩ := Nat.exists_eq_succ_of_ne_zero (by omega : n ≠ 0)
      simp [fgets]
  | cons c l ih =>
      obtain ⟨n, rfl⟩ := Nat.exists_eq_succ_of_ne_zero (by omega : n ≠ 0)
      simp only [List.mem_cons, not_or, List.length_cons] at h hn
      rw [fgets, if_neg (Ne.symm h.1), ih h.2 (by omega)]

end

/-- The lines of a file that a newline ends. -/
def lines (fp : Str) : List Str := (pieces [10] fp).1

/-- What stands behind the last newline. -/
def lastLine (fp : Str) : Str := (pieces [10] fp).2

/-- No line of the file is as long as the buffer. -/
def ShortLines (fp : Str) : Prop := ∀ l ∈ lines fp ++ [lastLine fp], l.length < kMaxLineLength

/-- The lines `load` looks at.  A last line without a newline is dropped,
unless it fills the buffer: then `fgets` has not met the end of the file. -/
def linesRead (fp : Str) : List Str :=
  lines fp ++ if (lastLine fp).length = kMaxLineLength - 1 then [lastLine fp] else []

section

variable {l : Str} (h : 10 ∉ l)
include h

theorem lines_of_notMem : lines l = [] := by rw [lines, pieces_of_none (breakOn_of_notMem h)]

theorem lastLine_of_notMem : lastLine l = l := by
  rw [lastLine, pieces_of_none (breakOn_of_notMem h)]

theorem pieces_line (rest : Str) :
    pieces [10] (l ++ 10 :: rest) = (l :: lines rest, lastLine rest) :=
  pieces_of_some (by simp) (breakOn_append_cons h rest)

theorem lines_line (rest : Str) : lines (l ++ 10 :: rest) = l :: lines rest := by
  rw [lines, pieces_line h]

theorem lastLine_line (rest : Str) : lastLine (l ++ 10 :: rest) = lastLine rest := by
  rw [lastLine, pieces_line h]

theorem linesRead_line (rest : Str) : linesRead (l ++ 10 :: rest) = l :: linesRead rest := by
  rw [linesRead, lines_line h, lastLine_line h]
  rfl

/-- A short line in front of short lines. -/
theorem ShortLines.line {rest : Str} (hlen : l.length < kMaxLineLength) (hrest : ShortLines rest) :
    ShortLines (l ++ 10 :: rest) := by
  rw [ShortLines, lines_line h, lastLine_line h, List.cons_append, List.forall_mem_cons]
  exact ⟨hlen, hrest⟩

end

theorem shortLines_nil : ShortLines [] := by
  unfold ShortLines
  decide

/-- Texts line by line. -/
theorem line_induction {P : Str → Prop} (last : ∀ l, 10 ∉ l → P l)
    (line : ∀ l rest, 10 ∉ l → P rest → P (l ++ 10 :: rest)) (fp : Str) : P fp := by
  induction hn : fp.length using Nat.strongRecOn generalizing fp with
  | ind n ih =>
      by_cases h : 10 ∈ fp
      · obtain ⟨l, rest, rfl, hl⟩ := List.eq_append_cons_of_mem h
        simp only [List.length_append, List.length_cons] at hn
        exact line l rest hl (ih rest.length (by omega) rest rfl)
      · exact last fp h

/-- A call of `fgets` that reads something is followed by `loadline`. -/
theorem loadLoop_succ (fuel : Nat) (file : ConfigFile E) {fp buffer rest : Str} {feof : Bool}
    (h : fgets (kMaxLineLength - 1) fp = (buffer, rest, feof)) :
    loadLoop (fuel + 1) file fp =
      if buffer = [] ∨ feof then file else loadLoop fuel (file.loadline buffer).1 rest := by
  rw [loadLoop, h]

/-- The line break at the end of a line does not matter. -/
theorem loadline_append_newline (file : ConfigFile E) {l : Str} (h : 10 ∉ l) :
    (file.loadline (l ++ [10])).1 = (file.loadline l).1 := by
  rw [loadline_eq, loadline_eq, lineOf_append_newline h]

theorem loadLoop_nil (fuel : Nat) (file : ConfigFile E) : loadLoop fuel file [] = file := by
  cases fuel with
  | zero => rfl
  | succ fuel => rw [loadLoop_succ fuel file (fgets_tail (n := 1023) (by simp) (by simp))]; simp

section

variable {l : Str} (hl : 10 ∉ l) (file : ConfigFile E) (fuel : Nat)
include hl

/-- A line that fills the buffer is handed over without its newline. -/
theorem loadLoop_full (hfull : l.length = kMaxLineLength - 1) (rest : Str) :
    loadLoop (fuel + 1) file (l ++ rest) = loadLoop fuel (file.loadline l).1 rest := by
  have hne : l ≠ [] := by
    rintro rfl
    simp [kMaxLineLength] at hfull
  have hread : fgets (kMaxLineLength - 1) (l ++ rest) = (l, rest, false) := by
    rw [← hfull]
    exact fgets_full hl
  rw [loadLoop_succ fuel file hread]
  simp [hne]

/-- A line in the file takes one call of `fgets`, or two. -/
theorem loadLoop_line (hlen : l.length < kMaxLineLength) {rest : Str}
    (hfuel : (l ++ 10 :: rest).length < fuel) :
    ∃ fuel', rest.length < fuel' ∧ loadLoop fuel file (l ++ 10 :: rest) =
      loadLoop fuel' (file.loadline l).1 rest := by
  rw [List.length_append, List.length_cons] at hfuel
  obtain ⟨fuel, rfl⟩ : ∃ k, fuel = k + 2 := ⟨fuel - 2, by omega⟩
  by_cases hfull : l.length = kMaxLineLength - 1
  · -- the newline comes with the second call, as an empty line
    have hread : fgets (kMaxLineLength - 1) (10 :: rest) = ([10], rest, false) :=
      fgets_line (l := []) (by simp) (by simp [kMaxLineLength])
    refine ⟨fuel, by rw [hfull, kMaxLineLength] at hfuel; omega, ?_⟩
    rw [loadLoop_full hl file _ hfull, loadLoop_succ fuel _ hread, loadline_newline]
    simp
  · refine ⟨fuel + 1, by omega, ?_⟩
    rw [loadLoop_succ _ file (fgets_line hl (by omega)), loadline_append_newline file hl]
    simp

end

/-- The loop of `load` hands the lines of the file to `loadline`. -/
theorem loadLoop_eq {fp : Str} (hshort : ShortLines fp) {fuel : Nat} (hfuel : fp.length < fuel)
    (file : ConfigFile E) :
    loadLoop fuel file fp =
      (linesRead fp).foldl (fun file l => (file.loadline l).1) file := by
  induction fp using line_induction generalizing fuel file with
  | last l hl =>
      obtain ⟨fuel, rfl⟩ := Nat.exists_eq_succ_of_ne_zero (by omega : fuel ≠ 0)
      have hlen : l.length < kMaxLineLength := hshort l (by simp [lastLine_of_notMem hl])
      rw [linesRead, lines_of_notMem hl, lastLine_of_notMem hl, List.nil_append]
      by_cases hfull : l.length = kMaxLineLength - 1
      · have hstep := loadLoop_full hl file fuel hfull []
        rw [List.append_nil] at hstep
        rw [Nat.succ_eq_add_one, hstep, loadLoop_nil, if_pos hfull, List.foldl_cons,
          List.foldl_nil]
      · rw [loadLoop_succ fuel file (fgets_tail hl (by omega)), if_neg hfull]
        simp
  | line l rest hl ih =>
      rw [ShortLines, lines_line hl, lastLine_line hl, List.cons_append,
        List.forall_mem_cons] at hshort
      obtain ⟨fuel', hfuel', hstep⟩ := loadLoop_line hl file fuel hshort.1 hfuel
      rw [linesRead_line hl, List.foldl_cons, hstep]
      exact ih hshort.2 hfuel' _

/-- **What `load` leaves**: the section and the items of the lines it looks at,
starting in the section the object is in. -/
theorem load_eq (file : ConfigFile E) {fp : Str} (hshort : ShortLines fp) :
    ConfigFile.m_prefix (file.load (some fp)).1 =
        prefixOf file.m_prefix ((linesRead fp).map lineOf) ∧
      ∀ q, (file.load (some fp)).1.bound q =
        (firstItem (itemsOf file.m_prefix ((linesRead fp).map lineOf)) q).map (·.m_value) := by
  obtain ⟨hpre, hbound⟩ :=
    foldl_loadline { file with m_content := E.empty } (linesRead fp)
  have hload : (file.load (some fp)).1 = (linesRead fp).foldl
      (fun file buffer => (file.loadline buffer).1) { file with m_content := E.empty } :=
    loadLoop_eq hshort (Nat.lt_succ_self _) _
  rw [hload]
  refine ⟨hpre, fun q => ?_⟩
  rw [hbound q, bound, E.find_empty, Option.none_or]

/-! ## section heads -/

/-- Plain text: no NUL, newline or `\r`. -/
def Plain (s : Str) : Prop := 0 ∉ s ∧ 10 ∉ s ∧ 13 ∉ s

/-- A plain line without blanks at its ends is sorted as it stands. -/
theorem lineOf_of_plain {l : Str} (hplain : Plain l) (hends : NoBlankEnds l) :
    lineOf l = classify l := by
  obtain ⟨h0, h10, h13⟩ := hplain
  rw [lineOf, strline_of_notMem h10, text, cStr_eq_self h0, takeWhile_ne_self h13,
    trim_eq_self hends]

/-- A line with a section head. -/
def headLine (name : Str) : Str := 91 :: name ++ [93]

/-- A name in brackets is the head of its section. -/
theorem lineOf_headLine {name : Str} (h : Plain name) : lineOf (headLine name) = .head name := by
  have hlast : (headLine name).getLast? = some 93 := List.getLast?_concat
  have hends : NoBlankEnds (headLine name) := by
    intro c hc
    rw [hlast]
    rcases hc with rfl | rfl <;> simp [headLine]
  have hplain : Plain (headLine name) := by
    obtain ⟨h0, h10, h13⟩ := h
    simp [Plain, headLine, h0, h10, h13]
  rw [lineOf_of_plain hplain hends, classify, hlast]
  simp [headLine, List.idxOf?_cons]

end ConfigFile

end MySrc
