import MySrc.TemplateHttp.HttpHead
import MySrc.Lib.Cells

/-!
# MySrc.TemplateHttp.UrlCode

Percent escapes: `unescape_url`, which `HttpRequestPacket` and `SDUtility` each have
a copy of, and `URLEncode` and `URLDecode` of `template_http/src/common/SDUtility.cpp`.

`unescape_url` works in place with two `int` indexes.  It takes the two characters
behind every `%`, whatever they are, so it stays inside the string exactly when they
are there (`unescapeUrl_inside_iff`), and then it leaves the text `unescaped`.
`HttpRequestPacket.lean` has the same loop on indexes without a bound; both make the same
turns (`Unescapes`), and so the same text of a string whose length is an `int`.
-/

namespace MySrc

open Lib

/-! ## in place -/

/-- `i + n` on `int`s. -/
def addInt (i n : Nat) : Except Fault Nat :=
  if i + n < 2 ^ 31 then .ok (i + n) else .error .overflow

/-- The loop of `unescape_url`: `y` reads, `x` writes. -/
def inPlaceLoop : Nat → List UInt8 → Nat → Nat → Except Fault (List UInt8)
  | 0, _, _, _ => .error .diverge
  | fuel + 1, url, x, y => do
      let c ← getCell url y
      if c = 0 then
        setCell url x 0
      else if c = 37 then do
        let url ← setCell url x c
        -- `x2c(&url[y+1])` reads two characters, `y+=2` steps over them
        let what ← addInt y 1
        let hi ← getCell url what
        let lo ← getCell url (what + 1)
        let url ← setCell url x (x2c hi lo)
        let y ← addInt y 2
        let x ← addInt x 1
        let y ← addInt y 1
        inPlaceLoop fuel url x y
      else do
        let url ← setCell url x (if c = 43 then 32 else c)
        let x ← addInt x 1
        let y ← addInt y 1
        inPlaceLoop fuel url x y

/-- The text of both functions `unescape_url`. -/
def unescapeInPlace (url : List UInt8) : Except Fault (List UInt8) :=
  inPlaceLoop (url.length + 1) url 0 0

/-- `HttpRequestPacket::unescape_url` -/
def HttpRequestPacket.unescapeUrl : List UInt8 → Except Fault (List UInt8) := unescapeInPlace

/-- `SDUtility::unescape_url` -/
def SDUtility.unescapeUrl : List UInt8 → Except Fault (List UInt8) := unescapeInPlace

section

variable {s url r : List UInt8} {x y fuel : Nat}

theorem addInt_eq_ok {i n j : Nat} : addInt i n = .ok j ↔ i + n < 2 ^ 31 ∧ j = i + n := by
  rw [addInt]
  split <;> simp_all [eq_comm]

theorem getCell_eq_ok {c : UInt8} : getCell url y = .ok c ↔ url[y]? = some c := by
  cases h : url[y]? <;> simp [getCell, h]

/-- A text of characters and of escapes that have their two characters. -/
inductive Scanned : Str → Prop
  | nil : Scanned []
  | char {c : UInt8} {s : Str} : c ≠ 37 → Scanned s → Scanned (c :: s)
  | percent {hi lo : UInt8} {s : Str} : Scanned s → Scanned (37 :: hi :: lo :: s)

/-- A text with complete escapes is scanned to its end. -/
theorem scanned_of_complete (h : escapesComplete s) : Scanned s := by
  induction s using escapesComplete.induct with
  | case1 => exact .nil
  | case2 c =>
      have hc : c ≠ 37 := by simpa [escapesComplete] using h
      exact .char hc .nil
  | case3 c d =>
      have hcd : c ≠ 37 ∧ d ≠ 37 := by simpa [escapesComplete] using h
      exact .char hcd.1 (.char hcd.2 .nil)
  | case4 d e s ih =>
      rw [escapesComplete, if_pos rfl] at h
      exact .percent (ih h)
  | case5 c d e s hc ih =>
      rw [escapesComplete, if_neg hc] at h
      exact .char hc (ih h)

theorem Scanned.complete (h : Scanned s) : escapesComplete s := by
  induction h with
  | nil => rfl
  | char hc _ ih => rwa [escapesComplete_cons hc]
  | percent _ ih => rwa [escapesComplete, if_pos rfl]

/-- A character that stands for itself, or a `+` for a blank. -/
def plainChar (c : UInt8) : UInt8 := if c = 43 then 32 else c

/-- A text with its escapes replaced. -/
def unescaped : Str → Str
  | [] => []
  | [c] => [plainChar c]
  | [c, d] => [plainChar c, plainChar d]
  | c :: d :: e :: s =>
      if c = 37 then x2c d e :: unescaped s else plainChar c :: unescaped (d :: e :: s)

theorem unescaped_cons {c : UInt8} (hc : c ≠ 37) (s : Str) :
    unescaped (c :: s) = plainChar c :: unescaped s := by
  match s with
  | [] => rfl
  | [d] => rfl
  | d :: e :: s => rw [unescaped, if_neg hc]

theorem unescaped_percent (hi lo : UInt8) (s : Str) :
    unescaped (37 :: hi :: lo :: s) = x2c hi lo :: unescaped s := by
  rw [unescaped, if_pos rfl]

/-- What is left of a block behind the index that reads, when the one that writes, which
is not ahead of it, has written. -/
theorem drop_set_of_le {n : Nat} (hurl : url.drop y = s) (hxy : x ≤ y) (hn : 0 < n) (v : UInt8) :
    (url.set x v).drop (y + n) = s.drop n := by
  rw [List.drop_set_of_lt (by omega), ← List.drop_drop, hurl]

/-- The block between the index that writes and the next one keeps what was written. -/
theorem take_succ_set (hx : x < url.length) (v : UInt8) :
    (url.set x v).take (x + 1) = url.take x ++ [v] := by
  rw [List.take_succ_eq_append_getElem (by rw [List.length_set]; exact hx),
    List.take_set_of_le (by omega)]
  simp

/-- The turns of the loop of `unescape_url`, as long as the index that reads is at most
`limit`. -/
structure Unescapes (L : Nat → List UInt8 → Nat → Nat → Except Fault (List UInt8))
    (limit : Nat) : Prop where
  nul : ∀ {fuel url x y}, url[y]? = some 0 → x ≤ y → L (fuel + 1) url x y = .ok (url.set x 0)
  char : ∀ {fuel url x y c}, url[y]? = some c → c ≠ 0 → c ≠ 37 → x ≤ y → y + 1 ≤ limit →
    L (fuel + 1) url x y = L fuel (url.set x (plainChar c)) (x + 1) (y + 1)
  percent : ∀ {fuel url x y hi lo}, url[y]? = some 37 → url[y + 1]? = some hi →
    url[y + 2]? = some lo → x ≤ y → y + 3 ≤ limit →
    L (fuel + 1) url x y = L fuel (url.set x (x2c hi lo)) (x + 1) (y + 3)

/-- The loop replaces complete escapes. -/
theorem Unescapes.scanned {L : Nat → List UInt8 → Nat → Nat → Except Fault (List UInt8)}
    {limit : Nat} (hL : Unescapes L limit) (hs : Scanned s) (hnul : 0 ∉ s)
    (hurl : url.drop y = s ++ [0]) (hxy : x ≤ y) (hlimit : y + s.length ≤ limit)
    (hfuel : s.length < fuel) :
    ∃ r, L fuel url x y = .ok r ∧ url.take x ++ unescaped s ++ [0] <+: r := by
  induction hs generalizing url x y fuel with
  | nil =>
      obtain ⟨fuel, rfl⟩ := Nat.exists_eq_add_one.mpr hfuel
      have hy : url[y]? = some 0 := getElem?_of_drop hurl 0
      have hlt := (List.getElem?_eq_some_iff.mp hy).1
      refine ⟨_, hL.nul hy hxy, ?_⟩
      rw [unescaped, List.append_nil, ← take_succ_set (by omega)]
      exact List.take_prefix _ _
  | @char c s hc hs ih =>
      obtain ⟨fuel, rfl⟩ := Nat.exists_eq_add_one.mpr (Nat.zero_lt_of_lt hfuel)
      have hy : url[y]? = some c := getElem?_of_drop hurl 0
      have hlt := (List.getElem?_eq_some_iff.mp hy).1
      simp only [List.length_cons] at hlimit hfuel
      obtain ⟨r, hr, hpre⟩ := @ih (url.set x (plainChar c)) (x + 1) (y + 1) fuel (by grind)
        (drop_set_of_le hurl hxy (by omega) _) (by omega) (by omega) (by omega)
      refine ⟨r, (hL.char hy (by grind) hc hxy (by omega)).trans hr, ?_⟩
      rw [take_succ_set (by omega)] at hpre
      simpa [unescaped_cons hc] using hpre
  | @percent hi lo s hs ih =>
      obtain ⟨fuel, rfl⟩ := Nat.exists_eq_add_one.mpr (Nat.zero_lt_of_lt hfuel)
      have hy : url[y]? = some 37 := getElem?_of_drop hurl 0
      have hhi : url[y + 1]? = some hi := getElem?_of_drop hurl 1
      have hlo : url[y + 2]? = some lo := getElem?_of_drop hurl 2
      have hlt := (List.getElem?_eq_some_iff.mp hy).1
      simp only [List.length_cons] at hlimit hfuel
      obtain ⟨r, hr, hpre⟩ := @ih (url.set x (x2c hi lo)) (x + 1) (y + 3) fuel (by grind)
        (drop_set_of_le hurl hxy (by omega) _) (by omega) (by omega) (by omega)
      refine ⟨r, (hL.percent hy hhi hlo hxy (by omega)).trans hr, ?_⟩
      rw [take_succ_set (by omega)] at hpre
      simpa [unescaped_percent] using hpre

/-- The loop on `int`s. -/
theorem unescapes_inPlaceLoop : Unescapes inPlaceLoop (2 ^ 31 - 1) where
  nul {fuel url x y} hy hxy := by
    have hlt := (List.getElem?_eq_some_iff.mp hy).1
    rw [inPlaceLoop, getCell_eq_ok.mpr hy, ok_bind, if_pos rfl, setCell_ok (by omega)]
  char {fuel url x y c} hy h0 h37 hxy hint := by
    have hlt := (List.getElem?_eq_some_iff.mp hy).1
    rw [inPlaceLoop, getCell_eq_ok.mpr hy, ok_bind, if_neg h0, if_neg h37,
      setCell_ok (by omega), ok_bind, addInt_eq_ok.mpr ⟨by omega, rfl⟩, ok_bind,
      addInt_eq_ok.mpr ⟨by omega, rfl⟩, ok_bind]
    rfl
  percent {fuel url x y hi lo} hy hhi hlo hxy hint := by
    have hlt := (List.getElem?_eq_some_iff.mp hy).1
    have hset : ∀ v i, y < i → (url.set x v)[i]? = url[i]? := fun v i hi =>
      List.getElem?_set_ne (by omega)
    have hstep : addInt (y + 2) 1 = .ok (y + 3) := addInt_eq_ok.mpr ⟨by omega, rfl⟩
    rw [inPlaceLoop, getCell_eq_ok.mpr hy, ok_bind, if_neg (by decide), if_pos rfl,
      setCell_ok (by omega), ok_bind, addInt_eq_ok.mpr ⟨by omega, rfl⟩, ok_bind,
      getCell_eq_ok.mpr ((hset 37 (y + 1) (by omega)).trans hhi), ok_bind,
      getCell_eq_ok.mpr ((hset 37 (y + 2) (by omega)).trans hlo), ok_bind,
      setCell_ok (by rw [List.length_set]; omega), ok_bind, addInt_eq_ok.mpr ⟨by omega, rfl⟩,
      ok_bind, addInt_eq_ok.mpr ⟨by omega, rfl⟩, ok_bind, hstep, ok_bind, List.set_set]

/-- The loop on indexes without a bound. -/
theorem unescapes_unescapeLoop (limit : Nat) : Unescapes unescapeLoop limit where
  nul hy _ := by simp [unescapeLoop, charAt, hy]
  char {fuel url x y c} hy h0 h37 _ _ := by
    by_cases h43 : c = 43
    all_goals simp [unescapeLoop, charAt, hy, h0, h37, h43, plainChar]
  percent hy hhi hlo _ _ := by simp [unescapeLoop, charAt, hy, hhi, hlo]

/-- The fuel of `unescape_url` is enough for the string and its NUL. -/
theorem length_lt_fuel (s : Str) : s.length < (s ++ [0]).length + 1 := by
  rw [List.length_append]
  omega

theorem lt_of_inPlaceLoop (hok : inPlaceLoop fuel url x y = .ok r) : y < url.length := by
  cases fuel with
  | zero => cases hok
  | succ fuel =>
      obtain ⟨c, hc, -⟩ := bind_eq_ok.mp hok
      exact (List.getElem?_eq_some_iff.mp (getCell_eq_ok.mp hc)).1

/-- A turn over an escape that returns goes on behind it. -/
theorem inPlaceLoop_percent_ok (hy : url[y]? = some 37) (hxy : x ≤ y)
    (hok : inPlaceLoop (fuel + 1) url x y = .ok r) :
    ∃ hi lo, y + 3 < 2 ^ 31 ∧
      inPlaceLoop fuel (url.set x (x2c hi lo)) (x + 1) (y + 3) = .ok r := by
  have hlt := (List.getElem?_eq_some_iff.mp hy).1
  have hx : x < url.length := by omega
  rw [inPlaceLoop, getCell_eq_ok.mpr hy, ok_bind, if_neg (by decide), if_pos rfl] at hok
  obtain ⟨url₁, hset₁, hok⟩ := bind_eq_ok.mp hok
  obtain ⟨what, hwhat, hok⟩ := bind_eq_ok.mp hok
  obtain ⟨hi, -, hok⟩ := bind_eq_ok.mp hok
  obtain ⟨lo, -, hok⟩ := bind_eq_ok.mp hok
  obtain ⟨url₂, hset₂, hok⟩ := bind_eq_ok.mp hok
  obtain ⟨y₁, hy₁, hok⟩ := bind_eq_ok.mp hok
  obtain ⟨x₁, hx₁, hok⟩ := bind_eq_ok.mp hok
  obtain ⟨y₂, hy₂, hok⟩ := bind_eq_ok.mp hok
  rw [setCell_ok hx] at hset₁
  cases hset₁
  rw [setCell_ok (by rwa [List.length_set]), List.set_set] at hset₂
  cases hset₂
  obtain ⟨-, rfl⟩ := addInt_eq_ok.mp hwhat
  obtain ⟨-, rfl⟩ := addInt_eq_ok.mp hy₁
  obtain ⟨-, rfl⟩ := addInt_eq_ok.mp hx₁
  obtain ⟨hint, rfl⟩ := addInt_eq_ok.mp hy₂
  exact ⟨hi, lo, hint, hok⟩

/-- A turn on a plain character that does not fault. -/
theorem inPlaceLoop_char_ok {c : UInt8} (hy : url[y]? = some c) (h0 : c ≠ 0) (h37 : c ≠ 37)
    (hxy : x ≤ y) (hok : inPlaceLoop (fuel + 1) url x y = .ok r) :
    y + 1 < 2 ^ 31 ∧ inPlaceLoop fuel (url.set x (plainChar c)) (x + 1) (y + 1) = .ok r := by
  have hlt := (List.getElem?_eq_some_iff.mp hy).1
  rw [inPlaceLoop, getCell_eq_ok.mpr hy, ok_bind, if_neg h0, if_neg h37] at hok
  obtain ⟨url', hset, hok⟩ := bind_eq_ok.mp hok
  obtain ⟨x', hx', hok⟩ := bind_eq_ok.mp hok
  obtain ⟨y', hy', hok⟩ := bind_eq_ok.mp hok
  rw [setCell_ok (by omega)] at hset
  cases hset
  obtain ⟨-, rfl⟩ := addInt_eq_ok.mp hx'
  obtain ⟨hint, rfl⟩ := addInt_eq_ok.mp hy'
  exact ⟨hint, hok⟩

/-- A loop that returns has found the characters of its escapes, and its indexes were
`int`s. -/
theorem complete_of_inPlaceLoop (hnul : 0 ∉ s) (hurl : url.drop y = s ++ [0]) (hxy : x ≤ y)
    (hint : y < 2 ^ 31) (hok : inPlaceLoop fuel url x y = .ok r) :
    escapesComplete s ∧ y + s.length < 2 ^ 31 := by
  induction fuel generalizing s url x y with
  | zero => cases hok
  | succ fuel ih =>
      cases s with
      | nil => exact ⟨rfl, hint⟩
      | cons c s =>
          have hy : url[y]? = some c := getElem?_of_drop hurl 0
          have hlen := congrArg List.length hurl
          have hlt := (List.getElem?_eq_some_iff.mp hy).1
          simp only [List.length_drop, List.length_append, List.length_cons,
            List.length_nil] at hlen
          by_cases hc : c = 37
          · subst hc
            obtain ⟨hi, lo, hint', hok'⟩ := inPlaceLoop_percent_ok hy hxy hok
            have hrest : (url.set x (x2c hi lo)).drop (y + 3) = (37 :: s ++ [0]).drop 3 :=
              drop_set_of_le (n := 3) hurl hxy (by omega) _
            -- the loop goes on at a character, so that more than the NUL follows the `%`
            have hlt₃ := lt_of_inPlaceLoop hok'
            rw [List.length_set] at hlt₃
            match s with
            | [] => simp only [List.length_nil] at hlen; omega
            | [d] => simp only [List.length_cons, List.length_nil] at hlen; omega
            | hi' :: lo' :: s =>
                obtain ⟨hs, hlen'⟩ := ih (by grind) hrest (by omega) hint' hok'
                rw [escapesComplete, if_pos rfl]
                simp only [List.length_cons]
                exact ⟨hs, by omega⟩
          · obtain ⟨hint', hok'⟩ := inPlaceLoop_char_ok hy (by grind) hc hxy hok
            obtain ⟨hs, hlen'⟩ := ih (by grind) (drop_set_of_le hurl hxy (by omega) _) (by omega)
              hint' hok'
            rw [escapesComplete_cons hc, List.length_cons]
            exact ⟨hs, by omega⟩

/-- The text before the NUL is what was written in front of it. -/
theorem cStr_of_starts {t : List UInt8} (h : t ++ [0] <+: r) : cStr r = cStr t := by
  obtain ⟨u, rfl⟩ := h
  rw [cStr, cStr, List.append_assoc]
  induction t with
  | nil => simp
  | cons c t ih =>
      by_cases hc : c = 0
      · simp [hc]
      · simp only [List.cons_append, List.takeWhile_cons, hc, ne_eq, not_false_eq_true,
          decide_true, if_true, List.cons.injEq, true_and]
        exact ih

/-- `Unescape_url` replaces complete escapes. -/
theorem unescapeUrlStr_eq (hs : Scanned (cStr s)) :
    unescapeUrlStr s = .ok (cStr (unescaped (cStr s))) := by
  obtain ⟨r, hr, hpre⟩ := (unescapes_unescapeLoop (0 + (cStr s).length)).scanned hs
    (nul_notMem_cStr s) List.drop_zero (Nat.le_refl 0) (Nat.le_refl _) (length_lt_fuel _)
  rw [unescapeUrlStr, unescapeUrl, hr, ok_bind, pure_eq_ok, cStr_of_starts hpre, List.take_zero,
    List.nil_append]

/-- Complete escapes are replaced. -/
theorem unescapeInPlace_scanned (hs : Scanned s) (hnul : 0 ∉ s) (hlen : s.length < 2 ^ 31) :
    ∃ r, unescapeInPlace (s ++ [0]) = .ok r ∧ cStr r = cStr (unescaped s) := by
  obtain ⟨r, hr, hpre⟩ := unescapes_inPlaceLoop.scanned hs hnul List.drop_zero (Nat.le_refl 0)
    (by omega) (length_lt_fuel s)
  refine ⟨r, hr, ?_⟩
  rw [cStr_of_starts hpre, List.take_zero, List.nil_append]

/-- The copy in place stays inside the string exactly when the escapes are complete. -/
theorem unescapeInPlace_ok_iff (hnul : 0 ∉ s) :
    (∃ r, unescapeInPlace (s ++ [0]) = .ok r) ↔ escapesComplete s ∧ s.length < 2 ^ 31 := by
  constructor
  · rintro ⟨r, hr⟩
    simpa using complete_of_inPlaceLoop hnul List.drop_zero (Nat.le_refl 0) (by omega) hr
  · rintro ⟨hs, hlen⟩
    obtain ⟨r, hr, -⟩ := unescapeInPlace_scanned (scanned_of_complete hs) hnul hlen
    exact ⟨r, hr⟩

end

/-- **`unescape_url`** stays inside the string it is given, and so ends, exactly when two
characters stand behind every `%` that it meets and the length is an `int`. -/
theorem unescapeUrl_inside_iff (s : Str) (hnul : 0 ∉ s) :
    ((∃ r, HttpRequestPacket.unescapeUrl (s ++ [0]) = .ok r) ↔
        escapesComplete s ∧ s.length < 2 ^ 31) ∧
      ((∃ r, SDUtility.unescapeUrl (s ++ [0]) = .ok r) ↔
        escapesComplete s ∧ s.length < 2 ^ 31) :=
  ⟨unescapeInPlace_ok_iff hnul, unescapeInPlace_ok_iff hnul⟩

/-- An escape in the middle of a string is taken. -/
theorem unescapeUrl_inside_escape :
    (0 : UInt8) ∉ ascii ['a', '%', '4', '1'] ∧
      (∃ r, HttpRequestPacket.unescapeUrl (ascii ['a', '%', '4', '1'] ++ [0]) = .ok r) ∧
      ∃ r, SDUtility.unescapeUrl (ascii ['a', '%', '4', '1'] ++ [0]) = .ok r := by
  have h := unescapeUrl_inside_iff (ascii ['a', '%', '4', '1']) (by decide)
  exact ⟨by decide, h.1.mpr (by decide), h.2.mpr (by decide)⟩

/-- A `%` at the end makes both functions read behind the NUL. -/
theorem unescapeUrl_leaves_string :
    (0 : UInt8) ∉ ascii ['%'] ∧
      HttpRequestPacket.unescapeUrl (ascii ['%'] ++ [0]) = .error .outOfBounds ∧
      SDUtility.unescapeUrl (ascii ['%'] ++ [0]) = .error .outOfBounds ∧
      (¬ ∃ r, HttpRequestPacket.unescapeUrl (ascii ['%'] ++ [0]) = .ok r) ∧
      ¬ ∃ r, SDUtility.unescapeUrl (ascii ['%'] ++ [0]) = .ok r := by
  have hleaves : unescapeInPlace (ascii ['%'] ++ [0]) = .error .outOfBounds := by decide
  have hnone : ¬ ∃ r, unescapeInPlace (ascii ['%'] ++ [0]) = .ok r := by
    rintro ⟨r, hr⟩
    rw [hleaves] at hr
    cases hr
  exact ⟨by decide, hleaves, hleaves, hnone, hnone⟩

/-! ## decoding and encoding -/

namespace SDUtility

/-- `SDUtility::URLDecode`: unescape the `strdup` of a string. -/
def urlDecode (url : Str) : Except Fault Str := do
  let pszUrl ← unescapeUrl (cStr url ++ [0])
  return cStr pszUrl

def isalnum (c : UInt8) : Bool :=
  (48 ≤ c ∧ c ≤ 57) ∨ (65 ≤ c ∧ c ≤ 90) ∨ (97 ≤ c ∧ c ≤ 122)

/-- `SDUtility::toHex` -/
def toHex (x : UInt8) : UInt8 := if x > 9 then x + 55 else x + 48

/-- The body of the loop of `URLEncode`: what is appended for a character. -/
def urlEncodeChar (c : UInt8) : Str :=
  if isalnum c then [c]
  else if isspace c then [43]
  else [37, toHex (c >>> 4), toHex (c % 16)]

/-- `SDUtility::URLEncode` -/
def urlEncode (sIn : Str) : Str := sIn.flatMap urlEncodeChar

end SDUtility

section

open SDUtility

/-- **`URLDecode`** replaces the escapes of a text whose escapes are complete. -/
theorem urlDecode_eq {s : Str} (hs : Scanned s) (hnul : 0 ∉ s) (hlen : s.length < 2 ^ 31) :
    urlDecode s = .ok (cStr (unescaped s)) := by
  obtain ⟨r, hr, hvalue⟩ := unescapeInPlace_scanned hs hnul hlen
  rw [urlDecode, cStr_eq_self hnul, SDUtility.unescapeUrl, hr, ok_bind, pure_eq_ok, hvalue]

/-- The digits of `toHex` are read back by `x2c`. -/
theorem x2c_toHex (c : UInt8) : x2c (toHex (c >>> 4)) (toHex (c % 16)) = c := by
  have h : ∀ n < 256, x2c (toHex (UInt8.ofNat n >>> 4)) (toHex (UInt8.ofNat n % 16)) =
      UInt8.ofNat n := by decide +kernel
  simpa using h c.toNat c.toNat_lt

/-- The hexadecimal digits of a byte are digits and letters. -/
theorem isalnum_toHex (c : UInt8) : isalnum (toHex (c >>> 4)) ∧ isalnum (toHex (c % 16)) := by
  have h : ∀ n < 256, isalnum (toHex (UInt8.ofNat n >>> 4)) ∧
      isalnum (toHex (UInt8.ofNat n % 16)) := by decide +kernel
  simpa using h c.toNat c.toNat_lt

/-- What `URLDecode` makes of an encoded character. -/
def decodedChar (c : UInt8) : UInt8 := if isspace c then 32 else c

/-- The number of characters that `URLEncode` writes as escapes. -/
def escapeCount (s : Str) : Nat := s.countP fun c => !isalnum c && !isspace c

theorem ne_of_isalnum {c : UInt8} (h : isalnum c) : c ≠ 0 ∧ c ≠ 37 ∧ c ≠ 38 ∧ c ≠ 43 := by
  refine ⟨?_, ?_, ?_, ?_⟩
  all_goals
    rintro rfl
    revert h
    decide

theorem isspace_of_isalnum {c : UInt8} (h : isalnum c) : isspace c = false := by
  have hall : ∀ n < 256, isalnum (UInt8.ofNat n) → isspace (UInt8.ofNat n) = false := by
    decide +kernel
  simpa [h] using hall c.toNat c.toNat_lt

/-- What is written for a character is read back in front of any text. -/
theorem urlEncodeChar_decoded (c : UInt8) {t : Str} (ht : Scanned t) :
    Scanned (urlEncodeChar c ++ t) ∧
      unescaped (urlEncodeChar c ++ t) = decodedChar c :: unescaped t := by
  rw [urlEncodeChar]
  by_cases halnum : isalnum c
  · obtain ⟨-, h37, -, h43⟩ := ne_of_isalnum halnum
    have hspace : isspace c = false := isspace_of_isalnum halnum
    rw [if_pos halnum, List.singleton_append, unescaped_cons h37]
    exact ⟨.char h37 ht, by simp [plainChar, decodedChar, h43, hspace]⟩
  · by_cases hspace : isspace c
    · rw [if_neg halnum, if_pos hspace, List.singleton_append, unescaped_cons (by decide)]
      exact ⟨.char (by decide) ht, by simp [plainChar, decodedChar, hspace]⟩
    · rw [if_neg halnum, if_neg hspace, List.cons_append, List.cons_append, List.cons_append,
        List.nil_append, unescaped_percent, x2c_toHex]
      exact ⟨.percent ht, by simp [decodedChar, hspace]⟩

theorem nul_notMem_urlEncodeChar (c : UInt8) : 0 ∉ urlEncodeChar c := by
  have h : ∀ n < 256, 0 ∉ urlEncodeChar (UInt8.ofNat n) := by decide +kernel
  simpa using h c.toNat c.toNat_lt

theorem length_urlEncodeChar (c : UInt8) :
    (urlEncodeChar c).length = 1 + 2 * escapeCount [c] := by
  rw [urlEncodeChar, escapeCount, List.countP_singleton]
  by_cases halnum : isalnum c
  · simp [halnum]
  · by_cases hspace : isspace c <;> simp [halnum, hspace]

/-- An encoded string has complete escapes and stands for the string with every white
space a blank. -/
theorem urlEncode_decoded (s : Str) :
    Scanned (urlEncode s) ∧ unescaped (urlEncode s) = s.map decodedChar := by
  induction s with
  | nil => exact ⟨.nil, rfl⟩
  | cons c s ih =>
      obtain ⟨hs, hdec⟩ := ih
      rw [urlEncode, List.flatMap_cons, List.map_cons, ← hdec]
      exact urlEncodeChar_decoded c hs

theorem nul_notMem_urlEncode (s : Str) : 0 ∉ urlEncode s := by
  rw [urlEncode, List.mem_flatMap]
  rintro ⟨c, -, hc⟩
  exact nul_notMem_urlEncodeChar c hc

/-- Every escape is two characters longer. -/
theorem length_urlEncode (s : Str) : (urlEncode s).length = s.length + 2 * escapeCount s := by
  induction s with
  | nil => rfl
  | cons c s ih =>
      have hcount : escapeCount ([c] ++ s) = escapeCount [c] + escapeCount s :=
        List.countP_append
      rw [List.singleton_append] at hcount
      rw [urlEncode, List.flatMap_cons, List.length_append, ← urlEncode, ih,
        length_urlEncodeChar, hcount, List.length_cons]
      omega

/-- Characters that are decoded to others are lost. -/
theorem map_decodedChar_eq_iff (s : Str) :
    s.map decodedChar = s ↔ ∀ c ∈ s, isspace c → c = 32 := by
  have hself : s.map decodedChar = s ↔ ∀ c ∈ s, decodedChar c = id c := by
    rw [← List.map_inj_left, List.map_id]
  rw [hself]
  refine forall₂_congr fun c _ => ?_
  by_cases hspace : isspace c <;> simp [decodedChar, hspace, eq_comm]

/-- **`URLDecode` of `URLEncode`** gives a string back exactly when its only white space
is the blank and the encoded length is an `int`. -/
theorem urlDecode_urlEncode_iff (s : Str) (hnul : 0 ∉ s) :
    urlDecode (urlEncode s) = .ok s ↔
      (∀ c ∈ s, isspace c → c = 32) ∧ s.length + 2 * escapeCount s < 2 ^ 31 := by
  obtain ⟨hscan, hdec⟩ := urlEncode_decoded s
  have hnul' := nul_notMem_urlEncode s
  have hvalue : cStr (unescaped (urlEncode s)) = s.map decodedChar := by
    rw [hdec]
    refine cStr_eq_self fun hmem => ?_
    obtain ⟨c, hc, h0⟩ := List.mem_map.mp hmem
    rw [decodedChar] at h0
    split at h0
    · cases h0
    · exact hnul (h0 ▸ hc)
  have hint : urlDecode (urlEncode s) = .ok s → (urlEncode s).length < 2 ^ 31 := by
    intro hok
    obtain ⟨r, hr, -⟩ := bind_eq_ok.mp hok
    rw [cStr_eq_self hnul'] at hr
    exact ((unescapeInPlace_ok_iff hnul').mp ⟨r, hr⟩).2
  rw [← length_urlEncode, ← map_decodedChar_eq_iff]
  constructor
  · intro hok
    have hlen := hint hok
    rw [urlDecode_eq hscan hnul' hlen, hvalue] at hok
    exact ⟨Except.ok.inj hok, hlen⟩
  · rintro ⟨hmap, hlen⟩
    rw [urlDecode_eq hscan hnul' hlen, hvalue, hmap]

/-- A blank and a byte above 127 come back. -/
theorem urlDecode_urlEncode_blank :
    (0 : UInt8) ∉ [97, 32, 228, 37] ∧ urlDecode (urlEncode [97, 32, 228, 37]) =
      .ok [97, 32, 228, 37] := by
  refine ⟨by decide, (urlDecode_urlEncode_iff _ (by decide)).mpr ⟨by simp [isspace], ?_⟩⟩
  decide

/-- A tab comes back as a blank. -/
theorem urlDecode_urlEncode_tab :
    (0 : UInt8) ∉ [9] ∧ urlDecode (urlEncode [9]) = .ok [32] ∧
      urlDecode (urlEncode [9]) ≠ .ok [9] := by
  decide

end

end MySrc
