import MySrc.TemplateHttp.UrlCode
import MySrc.TemplateHttp.Split

/-!
# MySrc.TemplateHttp.HttpCursor

`ParseHead` and `ParseParam` of `HttpRequestPacket` as the source has them: positions in
the text, `find` and `substr`, a loop for the separated items and a second copy of its
body for the last one, and `TrimLeft` and `TrimRight` on `int` indexes.

`HttpRequestPacket.lean` says what these loops do to the lines and items of a text;
here they are shown to do it (`parseHead_refines`, `parseParam_refines`) for texts whose
length is an `int`, as the length of a packet is that `http_callback` is given.
-/

namespace MySrc

open Lib

namespace HttpRequestPacket

/-! ## positions -/

/-- `str.substr(pos, n)`, which throws when `pos` is behind the end. -/
def substr (str : Str) (pos n : Nat) : Except Fault Str :=
  if pos ≤ str.length then .ok ((str.drop pos).take n) else .error .outOfBounds

/-- `str.substr(pos)` -/
def substrFrom (str : Str) (pos : Nat) : Except Fault Str :=
  if pos ≤ str.length then .ok (str.drop pos) else .error .outOfBounds

/-- `str[pos]`: behind the last character there is a NUL. -/
def at_ (str : Str) (pos : Int) : Except Fault UInt8 :=
  if 0 ≤ pos then getCell (str ++ [0]) pos.toNat else .error .outOfBounds

/-! ## trimming -/

/-- The loop of `TrimLeft`. -/
def trimLeftLoop (str : Str) : Nat → Nat → Except Fault Nat
  | 0, _ => .error .diverge
  | fuel + 1, pos => do
      let c ← at_ str pos
      if isBlank c then do
        let pos ← addInt pos 1
        trimLeftLoop str fuel pos
      else return pos

/-- `HttpRequestPacket::TrimLeft` -/
def trimLeft (str : Str) : Except Fault Str := do
  let pos ← trimLeftLoop str (str.length + 1) 0
  substrFrom str pos

/-- The loop of `TrimRight`. -/
def trimRightLoop (str : Str) : Nat → Int → Except Fault Int
  | 0, _ => .error .diverge
  | fuel + 1, pos => do
      let c ← at_ str pos
      if isBlank c then trimRightLoop str fuel (pos - 1) else return pos

/-- `HttpRequestPacket::TrimRight` -/
def trimRight (str : Str) : Except Fault Str := do
  let pos ← trimRightLoop str (str.length + 1) (i32 (str.length - 1 : Int))
  substr str 0 (pos + 1).toNat

/-- `HttpRequestPacket::Trim` -/
def trim (str : Str) : Except Fault Str := do
  let str ← trimLeft str
  trimRight str

/-! ## ParseHead -/

/-- The loop of `ParseHead`. -/
def parseHeadLoop (sHttpHead : Str) :
    Nat → StrMap → Nat → Option Nat → Except Fault StrMap
  | _, mapHead, _, none => .ok mapHead
  | 0, _, _, some _ => .error .diverge
  | fuel + 1, mapHead, lineBegin, some lineEnd => do
      let sLine ← substr sHttpHead lineBegin (lineEnd - lineBegin)
      match findFrom (ascii [':']) sLine 0 with
      | none =>
          parseHeadLoop sHttpHead fuel mapHead (lineEnd + 2)
            (findFrom lineBreak sHttpHead (lineEnd + 2))
      | some diffPos => do
          let sDomain ← substr sLine 0 diffPos
          let sValue ← substrFrom sLine (diffPos + 1)
          let sDomain ← trim sDomain
          parseHeadLoop sHttpHead fuel (mapHead.set (upperCase sDomain) sValue) (lineEnd + 2)
            (findFrom lineBreak sHttpHead (lineEnd + 2))

/-- `HttpRequestPacket::ParseHead` -/
def parseHead (mapHead : StrMap) (sHttpHead : Str) : Except Fault StrMap :=
  parseHeadLoop sHttpHead sHttpHead.length mapHead 0 (findFrom lineBreak sHttpHead 0)

/-! ## ParseParam -/

/-- `HttpRequestPacket::Unescape_url` -/
def unescapeUrlStr (url : Str) : Except Fault Str := do
  let pszUrl ← unescapeUrl (cStr url ++ [0])
  return cStr pszUrl

/-- What `ParseParam` does with an item, in its loop and behind it. -/
def parseItem (mapParam : StrMap) (sParam : Str) : Except Fault StrMap :=
  match findFrom (ascii ['=']) sParam 0 with
  | none => .ok mapParam
  | some valuePos => do
      let sValue ← substrFrom sParam (valuePos + 1)
      let sValue ← unescapeUrlStr sValue
      let name ← substr sParam 0 valuePos
      return mapParam.set name sValue

/-- The loop of `ParseParam`: the parameters, and where the last item begins. -/
def parseParamLoop (sHttpRequest : Str) : Nat → StrMap → Nat → Except Fault (StrMap × Nat)
  | 0, _, _ => .error .diverge
  | fuel + 1, mapParam, paramStartPos =>
      match findFrom (ascii ['&']) sHttpRequest paramStartPos with
      | none => .ok (mapParam, paramStartPos)
      | some paramEndPos => do
          let sParam ← substr sHttpRequest paramStartPos (paramEndPos - paramStartPos)
          let mapParam ← parseItem mapParam sParam
          parseParamLoop sHttpRequest fuel mapParam (paramEndPos + 1)

/-- The loop of `ParseParam`, and the code behind it for the last item. -/
def parseItems (sHttpRequest : Str) (fuel : Nat) (mapParam : StrMap) (paramStartPos : Nat) :
    Except Fault StrMap := do
  let (mapParam, paramStartPos) ← parseParamLoop sHttpRequest fuel mapParam paramStartPos
  let sParam ← substrFrom sHttpRequest paramStartPos
  parseItem mapParam sParam

/-- `HttpRequestPacket::ParseParam` -/
def parseParam (utf8ToGbk : Str → Str) (packet : HttpRequestPacket) (sHttpRequest : Str) :
    Except Fault HttpRequestPacket :=
  match findFrom (ascii ['?']) sHttpRequest 0 with
  | none => .ok { packet with mapParam := .empty, m_str_cmdpath := sHttpRequest }
  | some cmdPos => do
      let cmdpath ← substr sHttpRequest 0 cmdPos
      let cmdpath ← unescapeUrlStr cmdpath
      let mapParam ← parseItems sHttpRequest (sHttpRequest.length + 1) .empty (cmdPos + 1)
      return { packet with mapParam, m_str_cmdpath := utf8ToGbk cmdpath }

/-! ## trimming refines -/

section

variable {str t : Str} {pos fuel : Nat}

/-- The character at a cursor. -/
theorem at_of_drop {c : UInt8} (h : str.drop pos = c :: t) : at_ str (pos : Int) = .ok c := by
  have hlt : pos < str.length := by
    by_contra hge
    rw [List.drop_eq_nil_of_le (by omega)] at h
    cases h
  have hget : (str ++ [0])[pos]? = some c := by
    rw [List.getElem?_append_left hlt]
    have hhead : (str.drop pos)[0]? = str[pos + 0]? := List.getElem?_drop
    rw [← Nat.add_zero pos, ← hhead, h]
    rfl
  rw [at_, if_pos (by omega), Int.toNat_natCast, getCell, hget]

theorem at_length (str : Str) : at_ str (str.length : Int) = .ok 0 := by
  rw [at_, if_pos (by omega), Int.toNat_natCast, getCell_at rfl]

/-- The loop from the left stops at the first character that is not a blank. -/
theorem trimLeftLoop_eq (hlen : str.length < 2 ^ 31) (hdrop : str.drop pos = t)
    (hpos : pos ≤ str.length) (hfuel : t.length < fuel) :
    trimLeftLoop str fuel pos = .ok (pos + (t.takeWhile isBlank).length) := by
  induction t generalizing pos fuel with
  | nil =>
      obtain ⟨fuel, rfl⟩ := Nat.exists_eq_add_one.mpr hfuel
      obtain rfl : pos = str.length := by
        have := List.drop_eq_nil_iff.mp hdrop
        omega
      rw [trimLeftLoop, at_length, ok_bind, if_neg (by decide)]
      rfl
  | cons c t ih =>
      obtain ⟨fuel, rfl⟩ := Nat.exists_eq_add_one.mpr (Nat.zero_lt_of_lt hfuel)
      have hdrop' : str.drop (pos + 1) = t := by rw [← List.drop_drop, hdrop]; rfl
      have hlt : pos + 1 ≤ str.length := by
        have := congrArg List.length hdrop
        rw [List.length_drop, List.length_cons] at this
        omega
      rw [trimLeftLoop, at_of_drop hdrop, ok_bind]
      by_cases hc : isBlank c
      · rw [if_pos hc, addInt_eq_ok.mpr ⟨by omega, rfl⟩, ok_bind,
          ih hdrop' hlt (by simpa using hfuel), List.takeWhile_cons_of_pos hc, List.length_cons]
        congr 1
        omega
      · rw [if_neg hc, List.takeWhile_cons_of_neg hc]
        rfl

/-- `TrimLeft` drops the blanks in front; the NUL stops it. -/
theorem trimLeft_refines (hlen : str.length < 2 ^ 31) :
    trimLeft str = .ok (MySrc.trimLeft str) := by
  have hle : (str.takeWhile isBlank).length ≤ str.length := (List.takeWhile_sublist _).length_le
  have hdrop : str.drop (str.takeWhile isBlank).length = str.dropWhile isBlank := by
    have hleft : (str.takeWhile isBlank ++ str.dropWhile isBlank).drop
        (str.takeWhile isBlank).length = str.dropWhile isBlank := List.drop_left
    rwa [List.takeWhile_append_dropWhile] at hleft
  rw [trimLeft, trimLeftLoop_eq hlen List.drop_zero (Nat.zero_le _) (Nat.lt_succ_self _), ok_bind,
    Nat.zero_add, substrFrom, if_pos hle, hdrop]
  rfl

/-- The loop of `TrimRight` goes back over `u`, the characters up to its index in reverse. -/
theorem trimRightLoop_eq (u : Str) (hstr : str = u.reverse ++ t) (hfuel : u.length < fuel) :
    trimRightLoop str fuel (u.length - 1 : Int) =
      match u.dropWhile isBlank with
      | [] => .error .outOfBounds
      | _ :: front => .ok (front.length : Int) := by
  induction u generalizing t fuel with
  | nil =>
      obtain ⟨fuel, rfl⟩ := Nat.exists_eq_add_one.mpr hfuel
      rw [trimRightLoop, at_, if_neg (by simp)]
      rfl
  | cons c u ih =>
      obtain ⟨fuel, rfl⟩ := Nat.exists_eq_add_one.mpr (Nat.zero_lt_of_lt hfuel)
      have hstr' : str = u.reverse ++ c :: t := by simp [hstr]
      have hpos : ((c :: u).length - 1 : Int) = u.length := by simp
      have hat : at_ str (u.length : Int) = .ok c := by
        refine at_of_drop (t := t) ?_
        have hleft : (u.reverse ++ c :: t).drop u.reverse.length = c :: t := List.drop_left
        rwa [List.length_reverse, ← hstr'] at hleft
      rw [hpos, trimRightLoop, hat, ok_bind]
      by_cases hc : isBlank c
      · rw [if_pos hc, ih hstr' (by simpa using hfuel), List.dropWhile_cons_of_pos hc]
      · rw [if_neg hc, List.dropWhile_cons_of_neg hc]
        rfl

/-- `TrimRight` drops the blanks behind; nothing stops it in front. -/
theorem trimRight_refines (hlen : str.length < 2 ^ 31) :
    trimRight str = MySrc.trimRight str := by
  have hint : i32 (str.length - 1 : Int) = str.length - 1 := i32_eq_self ⟨by omega, by omega⟩
  have hstr : str = str.reverse.reverse ++ [] := by simp
  have hloop := trimRightLoop_eq str.reverse hstr (Nat.lt_succ_self _)
  rw [List.length_reverse] at hloop
  rw [trimRight, hint, hloop, MySrc.trimRight]
  cases hdrop : str.reverse.dropWhile isBlank with
  | nil => rfl
  | cons last front =>
      have hstr : str = (last :: front).reverse ++ (str.reverse.takeWhile isBlank).reverse := by
        rw [← List.reverse_append, ← hdrop, List.takeWhile_append_dropWhile, List.reverse_reverse]
      have htake : str.take (front.length + 1) = (last :: front).reverse := by
        conv_lhs => rw [hstr]
        exact List.take_left' (by simp)
      simp only [ok_bind]
      rw [substr, if_pos (Nat.zero_le _), List.drop_zero]
      exact congrArg Except.ok htake

/-- **`Trim`** -/
theorem trim_refines (hlen : str.length < 2 ^ 31) : trim str = MySrc.trim str := by
  have hle : (MySrc.trimLeft str).length ≤ str.length := (List.dropWhile_sublist _).length_le
  rw [trim, trimLeft_refines hlen, ok_bind, trimRight_refines (by omega)]
  rfl

end

/-! ## ParseHead refines -/

theorem substr_eq {str a : Str} {pos n : Nat} (hpos : pos ≤ str.length)
    (h : (str.drop pos).take n = a) : substr str pos n = .ok a := by
  rw [substr, if_pos hpos, h]

theorem substrFrom_eq {str a : Str} {pos : Nat} (hpos : pos ≤ str.length)
    (h : str.drop pos = a) : substrFrom str pos = .ok a := by
  rw [substrFrom, if_pos hpos, h]

/-- Where a text breaks, in positions. -/
theorem positions_of_breakOn {sep str a b : Str} {pos : Nat} (hpos : pos ≤ str.length)
    (h : breakOn sep (str.drop pos) = some (a, b)) :
    substr str pos (pos + a.length - pos) = .ok a ∧
      substrFrom str (pos + a.length + sep.length) = .ok b ∧
      pos + a.length + sep.length ≤ str.length := by
  obtain ⟨ha, hb⟩ := cut_of_breakOn h
  have hlen := congrArg List.length (breakOn_eq h)
  simp only [List.length_drop, List.length_append] at hlen
  refine ⟨substr_eq hpos ?_, substrFrom_eq (by omega) hb, by omega⟩
  rwa [Nat.add_sub_cancel_left]

theorem parseHeadLoop_none (sHttpHead : Str) (fuel : Nat) (mapHead : StrMap) (lineBegin : Nat) :
    parseHeadLoop sHttpHead fuel mapHead lineBegin none = .ok mapHead := by
  cases fuel <;> rfl

/-- A turn of the loop does one line. -/
theorem parseHeadLoop_some {sHttpHead sLine : Str} {fuel lineBegin lineEnd : Nat}
    {mapHead : StrMap} (hlen : sLine.length < 2 ^ 31)
    (hline : substr sHttpHead lineBegin (lineEnd - lineBegin) = .ok sLine) :
    parseHeadLoop sHttpHead (fuel + 1) mapHead lineBegin (some lineEnd) =
      parseHeadLine mapHead sLine >>= fun mapHead =>
        parseHeadLoop sHttpHead fuel mapHead (lineEnd + 2)
          (findFrom lineBreak sHttpHead (lineEnd + 2)) := by
  rw [parseHeadLoop, hline, ok_bind, parseHeadLine]
  cases hb : breakOn (ascii [':']) sLine with
  | none =>
      rw [findFrom_of_none hb]
      rfl
  | some p =>
      obtain ⟨sDomain, sValue⟩ := p
      obtain ⟨hdomain, hvalue, hend⟩ := positions_of_breakOn (Nat.zero_le _) hb
      rw [Nat.zero_add] at hdomain hvalue hend
      have hvalue' : substrFrom sLine (sDomain.length + 1) = .ok sValue := hvalue
      rw [findFrom_of_some hb, Nat.zero_add]
      simp only
      rw [← Nat.sub_zero sDomain.length, hdomain, ok_bind, Nat.sub_zero, hvalue', ok_bind,
        trim_refines (by omega)]
      cases MySrc.trim sDomain <;> rfl

/-- The loop goes through the lines from `lineBegin` on. -/
theorem parseHeadLoop_eq {sHttpHead : Str} {fuel lineBegin : Nat} {mapHead : StrMap}
    (hlen : sHttpHead.length < 2 ^ 31) (hbegin : lineBegin ≤ sHttpHead.length)
    (hfuel : (sHttpHead.drop lineBegin).length ≤ fuel) :
    parseHeadLoop sHttpHead fuel mapHead lineBegin (findFrom lineBreak sHttpHead lineBegin) =
      (pieces lineBreak (sHttpHead.drop lineBegin)).1.foldlM parseHeadLine mapHead := by
  induction fuel generalizing lineBegin mapHead with
  | zero =>
      have hnil : sHttpHead.drop lineBegin = [] := List.length_eq_zero_iff.mp (by omega)
      have hb : breakOn lineBreak (sHttpHead.drop lineBegin) = none := by rw [hnil]; rfl
      rw [findFrom_of_none hb, pieces_of_none hb, parseHeadLoop_none]
      rfl
  | succ fuel ih =>
      cases hb : breakOn lineBreak (sHttpHead.drop lineBegin) with
      | none =>
          rw [findFrom_of_none hb, pieces_of_none hb, parseHeadLoop_none]
          rfl
      | some p =>
          obtain ⟨sLine, rest⟩ := p
          obtain ⟨hline, -, hend⟩ := positions_of_breakOn hbegin hb
          have hend' : lineBegin + sLine.length + 2 ≤ sHttpHead.length := hend
          have hrest : sHttpHead.drop (lineBegin + sLine.length + 2) = rest := (cut_of_breakOn hb).2
          have hlt := length_lt_of_breakOn (by decide) hb
          rw [findFrom_of_some hb, pieces_of_some (by decide) hb,
            parseHeadLoop_some (by omega) hline, List.foldlM_cons]
          refine bind_congr fun mapHead => ?_
          rw [ih hend' (by rw [hrest]; omega), hrest]

/-- **`ParseHead`** does to the lines of a text what `parseHead` says. -/
theorem parseHead_refines {sHttpHead : Str} (hlen : sHttpHead.length < 2 ^ 31)
    (mapHead : StrMap) : parseHead mapHead sHttpHead = MySrc.parseHead mapHead sHttpHead :=
  parseHeadLoop_eq hlen (Nat.zero_le _) (Nat.le_refl _)

/-! ## header lines -/

/-- The text of some header lines. -/
def headText (hs : List (Str × Str)) : Str :=
  (hs.map fun h => h.1 ++ ascii [':'] ++ h.2).flatMap (· ++ lineBreak)

/-- A name without a colon and the text behind the colon are one line. -/
def HeaderLine (h : Str × Str) : Prop :=
  58 ∉ h.1 ∧ breakOn lineBreak (h.1 ++ ascii [':'] ++ h.2) = none

/-- The text of the last line whose name is `name`, trimmed and in upper case. -/
def lastNamed (hs : List (Str × Str)) (name : Str) : Option Str :=
  (hs.reverse.find? fun h => upperCase (trimBlanks h.1) = name).map Prod.snd

/-- The name of a header line stands before its first colon. -/
theorem HeaderLine.breakOn_colon {h : Str × Str} (hh : HeaderLine h) :
    breakOn (ascii [':']) (h.1 ++ ascii [':'] ++ h.2) = some h := by
  rw [List.append_assoc]
  exact breakOn_append_cons hh.1 h.2

/-- A header line has a name when not all of it is blank. -/
theorem HeaderLine.named_iff {h : Str × Str} (hh : HeaderLine h) :
    Named (h.1 ++ ascii [':'] ++ h.2) ↔ ¬ h.1.all isBlank := by
  rw [Named, hh.breakOn_colon]
  constructor
  · intro hnamed
    exact hnamed h.1 h.2 rfl
  · rintro hblank name value ⟨rfl⟩
    exact hblank

/-- The lines of a head are its headers. -/
theorem lines_headText {hs : List (Str × Str)} (hhs : ∀ h ∈ hs, HeaderLine h) :
    lines (headText hs) = hs.map fun h => h.1 ++ ascii [':'] ++ h.2 := by
  have hls : ∀ l ∈ hs.map fun h => h.1 ++ ascii [':'] ++ h.2, breakOn lineBreak l = none := by
    intro l hl
    obtain ⟨h, hh, rfl⟩ := List.mem_map.mp hl
    exact (hhs h hh).2
  have hlines := lines_flatMap hls []
  rwa [List.append_nil, show lines [] = [] from rfl, List.append_nil] at hlines

/-- The value of a header line, for its name. -/
theorem HeaderLine.valueIn_eq {h : Str × Str} (hh : HeaderLine h) (name : Str) :
    valueIn name (h.1 ++ ascii [':'] ++ h.2) =
      if upperCase (trimBlanks h.1) = name then some h.2 else none := by
  simp only [valueIn, headerOf, hh.breakOn_colon, Option.map_some]

/-- The last header with a name. -/
theorem lastHeader_headText {hs : List (Str × Str)} (hhs : ∀ h ∈ hs, HeaderLine h) (name : Str) :
    lastHeader (hs.map fun h => h.1 ++ ascii [':'] ++ h.2) name = lastNamed hs name := by
  have hhs' : ∀ h ∈ hs.reverse, HeaderLine h := fun h hh => hhs h (List.mem_reverse.mp hh)
  rw [lastHeader, lastNamed, ← List.map_reverse]
  generalize hs.reverse = rs at hhs' ⊢
  induction rs with
  | nil => rfl
  | cons h rs ih =>
      have hh := hhs' h List.mem_cons_self
      rw [List.map_cons, List.findSome?_cons, hh.valueIn_eq]
      by_cases hname : upperCase (trimBlanks h.1) = name
      · simp [hname]
      · rw [if_neg hname, List.find?_cons_of_neg (by simpa using hname),
          ih fun h' hh' => hhs' h' (List.mem_cons_of_mem h hh')]

/-- **`ParseHead`** returns exactly when every line with a colon has more than blanks in
front of it; and of a text of header lines it then gives every name, trimmed and in upper
case, the text behind the colon of its last line. -/
theorem parseHead_total_iff (mapHead : StrMap) :
    (∀ sHttpHead : Str, sHttpHead.length < 2 ^ 31 →
      ((∃ m, parseHead mapHead sHttpHead = .ok m) ↔ ∀ line ∈ lines sHttpHead, Named line)) ∧
    (∀ hs : List (Str × Str), (∀ h ∈ hs, HeaderLine h) → (headText hs).length < 2 ^ 31 →
      ((∃ m, parseHead mapHead (headText hs) = .ok m ∧
          ∀ name, m name = (lastNamed hs name).or (mapHead name)) ↔
        ∀ h ∈ hs, ¬ h.1.all isBlank)) := by
  refine ⟨fun s hlen => ?_, fun hs hhs hlen => ?_⟩
  · rw [parseHead_refines hlen, parseHead_eq]
    by_cases hnamed : ∀ line ∈ lines s, Named line
    · simp only [if_pos hnamed]
      exact iff_of_true ⟨_, rfl⟩ hnamed
    · simp only [if_neg hnamed]
      exact iff_of_false (by simp) hnamed
  · have hiff : (∀ line ∈ lines (headText hs), Named line) ↔ ∀ h ∈ hs, ¬ h.1.all isBlank := by
      rw [lines_headText hhs, List.forall_mem_map]
      exact forall₂_congr fun h hh => (hhs h hh).named_iff
    rw [← hiff, parseHead_refines hlen, parseHead_eq]
    by_cases hnamed : ∀ line ∈ lines (headText hs), Named line
    · simp only [if_pos hnamed]
      refine iff_of_true ⟨_, rfl, fun name => ?_⟩ hnamed
      rw [lines_headText hhs, lastHeader_headText hhs]
    · simp only [if_neg hnamed]
      exact iff_of_false (by simp) hnamed

/-- Two lines for one name: the last one counts. -/
theorem parseHead_total_twice :
    ∃ m, parseHead .empty (headText [(ascii [' ', 'a'], [49]), (ascii ['A'], [50])]) = .ok m ∧
      ∀ name, m name =
        (lastNamed [(ascii [' ', 'a'], [49]), (ascii ['A'], [50])] name).or (StrMap.empty name) :=
  ((parseHead_total_iff .empty).2 _ (by
      intro h hh
      simp only [List.mem_cons, List.not_mem_nil, or_false] at hh
      obtain rfl | rfl := hh <;> exact ⟨by decide, by decide⟩) (by decide)).mpr
    (by decide)

/-- `TrimRight` reads in front of the string for a line that begins with a colon, and for
one whose name is only blanks. -/
theorem parseHead_unnamed :
    parseHead .empty (ascii [':', 'x'] ++ lineBreak) = .error .outOfBounds ∧
      parseHead .empty (ascii [' ', ':', 'x'] ++ lineBreak) = .error .outOfBounds ∧
      ¬ ∃ m, parseHead .empty (ascii [':', 'x'] ++ lineBreak) = .ok m := by
  have hcolon : parseHead .empty (ascii [':', 'x'] ++ lineBreak) = .error .outOfBounds := by
    rw [parseHead_refines (by decide), parseHead_eq, if_neg (by decide)]
  have hblank : parseHead .empty (ascii [' ', ':', 'x'] ++ lineBreak) = .error .outOfBounds := by
    rw [parseHead_refines (by decide), parseHead_eq, if_neg (by decide)]
  refine ⟨hcolon, hblank, ?_⟩
  rintro ⟨m, hm⟩
  rw [hcolon] at hm
  cases hm

/-! ## ParseParam refines -/

/-- Unescaping with cursors is unescaping on the list. -/
theorem unescapeUrlStr_refines {url r : Str} (hlen : url.length < 2 ^ 31) :
    unescapeUrlStr url = .ok r ↔ MySrc.unescapeUrlStr url = .ok r := by
  have hle : (cStr url).length ≤ url.length := (List.takeWhile_sublist _).length_le
  have hnul := nul_notMem_cStr url
  by_cases hs : escapesComplete (cStr url)
  · have hscan := scanned_of_complete hs
    obtain ⟨p, hp, hvalue⟩ := unescapeInPlace_scanned hscan hnul (by omega)
    rw [unescapeUrlStr, unescapeUrl, hp, ok_bind, hvalue, unescapeUrlStr_eq hscan, pure_eq_ok]
  · refine iff_of_false (fun hok => hs ?_) fun hok => hs (unescapeUrlStr_ok_iff.mp ⟨r, hok⟩)
    obtain ⟨p, hp, -⟩ := bind_eq_ok.mp hok
    exact ((unescapeInPlace_ok_iff hnul).mp ⟨p, hp⟩).1

/-- Reading a pair with cursors is reading it on the list. -/
theorem parseItem_refines {mapParam m : StrMap} {sParam : Str} (hlen : sParam.length < 2 ^ 31) :
    parseItem mapParam sParam = .ok m ↔ parsePair mapParam sParam = .ok m := by
  rw [parseItem, parsePair]
  cases hb : breakOn (ascii ['=']) sParam with
  | none =>
      rw [findFrom_of_none hb]
  | some p =>
      obtain ⟨name, sValue⟩ := p
      obtain ⟨hname, hvalue, hend⟩ := positions_of_breakOn (Nat.zero_le _) hb
      rw [Nat.zero_add] at hname hvalue hend
      have hvalue' : substrFrom sParam (name.length + 1) = .ok sValue := hvalue
      have hlength := congrArg List.length (breakOn_eq hb)
      simp only [List.length_append] at hlength
      rw [Nat.sub_zero] at hname
      rw [findFrom_of_some hb, Nat.zero_add]
      simp only
      rw [hvalue', ok_bind, bind_eq_ok, bind_eq_ok, hname]
      refine exists_congr fun v => and_congr_left fun _ => ?_
      exact unescapeUrlStr_refines (by omega)

/-- The items from `paramStartPos` on are taken one by one. -/
theorem parseItems_refines {sHttpRequest : Str} {fuel paramStartPos : Nat} {mapParam m : StrMap}
    (hlen : sHttpRequest.length < 2 ^ 31) (hstart : paramStartPos ≤ sHttpRequest.length)
    (hfuel : (sHttpRequest.drop paramStartPos).length < fuel) :
    parseItems sHttpRequest fuel mapParam paramStartPos = .ok m ↔
      (split 38 (sHttpRequest.drop paramStartPos)).foldlM parsePair mapParam = .ok m := by
  induction fuel generalizing paramStartPos mapParam with
  | zero => omega
  | succ fuel ih =>
      rw [parseItems, parseParamLoop]
      cases hb : breakOn (ascii ['&']) (sHttpRequest.drop paramStartPos) with
      | none =>
          rw [findFrom_of_none hb, split_of_none (c := 38) hb, List.foldlM_cons]
          simp only [ok_bind, substrFrom_eq hstart rfl]
          rw [parseItem_refines (by rw [List.length_drop]; omega)]
          cases parsePair mapParam (sHttpRequest.drop paramStartPos) <;> simp
      | some p =>
          obtain ⟨sParam, rest⟩ := p
          obtain ⟨hparam, -, hend⟩ := positions_of_breakOn hstart hb
          have hend' : paramStartPos + sParam.length + 1 ≤ sHttpRequest.length := hend
          have hrest : sHttpRequest.drop (paramStartPos + sParam.length + 1) = rest :=
            (cut_of_breakOn hb).2
          have hlt := length_lt_of_breakOn (by decide) hb
          rw [findFrom_of_some hb, split_of_some (c := 38) hb, List.foldlM_cons]
          simp only [hparam, ok_bind, bind_assoc]
          rw [bind_eq_ok, bind_eq_ok]
          refine exists_congr fun m₁ => ?_
          rw [parseItem_refines (by omega), ← hrest]
          refine and_congr_right fun _ => ?_
          exact ih hend' (by rw [hrest]; omega)

/-- **`ParseParam`** does to the path and the items of a request what `parseParam` says. -/
theorem parseParam_refines {utf8ToGbk : Str → Str} {packet packet' : HttpRequestPacket}
    {sHttpRequest : Str} (hlen : sHttpRequest.length < 2 ^ 31) :
    parseParam utf8ToGbk packet sHttpRequest = .ok packet' ↔
      MySrc.parseParam utf8ToGbk packet sHttpRequest = .ok packet' := by
  rw [parseParam, MySrc.parseParam]
  cases hb : breakOn (ascii ['?']) sHttpRequest with
  | none =>
      rw [findFrom_of_none hb]
  | some p =>
      obtain ⟨cmdpath, params⟩ := p
      have hb₀ : breakOn (ascii ['?']) (sHttpRequest.drop 0) = some (cmdpath, params) := hb
      obtain ⟨hpath, -, hend⟩ := positions_of_breakOn (Nat.zero_le _) hb₀
      have hrest : sHttpRequest.drop (0 + cmdpath.length + 1) = params := (cut_of_breakOn hb₀).2
      have hend' : 0 + cmdpath.length + 1 ≤ sHttpRequest.length := hend
      have hlt := length_lt_of_breakOn (by decide) hb
      rw [Nat.sub_zero] at hpath
      rw [findFrom_of_some hb]
      simp only
      rw [hpath, ok_bind, bind_eq_ok, bind_eq_ok]
      refine exists_congr fun path => and_congr ?_ ?_
      · exact unescapeUrlStr_refines (by omega)
      · rw [bind_eq_ok, bind_eq_ok, ← hrest]
        refine exists_congr fun m => and_congr_left fun _ => ?_
        exact parseItems_refines hlen hend' (by rw [hrest]; omega)

end HttpRequestPacket

end MySrc
