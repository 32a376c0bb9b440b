import MySrc.TemplateHttp.HttpHead
import MySrc.TemplateHttp.Split

/-!
# MySrc.TemplateHttp.HttpGrammar

Well-formed requests: a request line, headers, a blank line and a body.  The
decoder of `HttpRequestPacket.lean` takes every one of them
(`decode_render`).
-/

namespace MySrc

open Lib

/-! ## escaped text -/

def isxdigit (c : UInt8) : Bool :=
  (48 ≤ c ∧ c ≤ 57) ∨ (65 ≤ c ∧ c ≤ 70) ∨ (97 ≤ c ∧ c ≤ 102)

/-- Two hexadecimal digits stand behind every `%`. -/
inductive Escaped : Str → Prop
  | nil : Escaped []
  | char {c : UInt8} {s : Str} : c ≠ 37 → Escaped s → Escaped (c :: s)
  | percent {hi lo : UInt8} {s : Str} :
      isxdigit hi → isxdigit lo → Escaped s → Escaped (37 :: hi :: lo :: s)

section

variable {s a b : Str} {c : UInt8}

theorem escaped_of_notMem (h : 37 ∉ s) : Escaped s := by
  induction s with
  | nil => exact .nil
  | cons c s ih => exact .char (by grind) (ih (by grind))

/-- A character that is no part of an escape cuts an escaped text into two. -/
theorem Escaped.cut (h : Escaped s) (hs : s = a ++ c :: b) (hc : isxdigit c = false)
    (hc' : c ≠ 37) : Escaped a ∧ Escaped b := by
  induction h generalizing a with
  | nil => simp at hs
  | char hne htail ih =>
      cases a with
      | nil =>
          obtain ⟨-, rfl⟩ := List.cons.inj hs
          exact ⟨.nil, htail⟩
      | cons d a =>
          obtain ⟨rfl, htl⟩ := List.cons.inj hs
          obtain ⟨ha, hb⟩ := ih htl
          exact ⟨.char hne ha, hb⟩
  | percent hhi hlo htail ih =>
      match a with
      | [] => grind
      | [_] => grind
      | [_, _] => grind
      | x :: y :: z :: a =>
          simp only [List.cons_append, List.cons.injEq] at hs
          obtain ⟨rfl, rfl, rfl, htl⟩ := hs
          obtain ⟨ha, hb⟩ := ih htl
          exact ⟨.percent hhi hlo ha, hb⟩

theorem ne_of_isxdigit (hc : isxdigit c) : c ≠ 0 ∧ c ≠ 32 := by
  constructor
  all_goals
    rintro rfl
    revert hc
    decide

theorem Escaped.cStr (h : Escaped s) : Escaped (cStr s) := by
  induction h with
  | nil => exact .nil
  | @char c s hne _ ih =>
      by_cases hc : c = 0
      · simpa [MySrc.cStr, hc] using Escaped.nil
      · simpa [MySrc.cStr, hc] using Escaped.char hne ih
  | percent hhi hlo _ ih =>
      have hhi' := (ne_of_isxdigit hhi).1
      have hlo' := (ne_of_isxdigit hlo).1
      simpa [MySrc.cStr, hhi', hlo'] using Escaped.percent hhi hlo ih

theorem Escaped.removeBlanks (h : Escaped s) : Escaped (s.filter (· ≠ 32)) := by
  induction h with
  | nil => exact .nil
  | @char c s hne _ ih =>
      by_cases hc : c = 32
      · simpa [hc] using ih
      · simpa [hc] using Escaped.char hne ih
  | percent hhi hlo _ ih =>
      have hhi' := (ne_of_isxdigit hhi).2
      have hlo' := (ne_of_isxdigit hlo).2
      simpa [hhi', hlo'] using Escaped.percent hhi hlo ih

theorem Escaped.complete (h : Escaped s) : escapesComplete s := by
  induction h with
  | nil => rfl
  | char hne _ ih => rwa [escapesComplete_cons hne]
  | percent _ _ _ ih => rwa [escapesComplete, if_pos rfl]

/-- The values of escaped pairs are complete. -/
theorem Escaped.pairsComplete (h : Escaped s) (hc : isxdigit c = false) (hc' : c ≠ 37) :
    PairsComplete c s := by
  have hsplit : ∀ p ∈ split c s, Escaped p := by
    refine forall_pieces (List.cons_ne_nil c []) (fun a b hab => ?_) h
    exact hab.cut (List.append_assoc a [c] b) hc hc'
  intro p hp name value hb
  have hp' := hsplit p hp
  rw [breakOn_eq hb, List.append_assoc] at hp'
  exact (hp'.cut rfl (by decide) (by decide)).2.cStr.complete

/-- A target whose escapes are well formed is read. -/
theorem Escaped.targetComplete (h : Escaped s) : TargetComplete s := by
  intro path params hb
  rw [breakOn_eq hb, List.append_assoc] at h
  obtain ⟨hpath, hparams⟩ := h.cut rfl (by decide) (by decide)
  exact ⟨hpath.cStr.complete, hparams.pairsComplete (by decide) (by decide)⟩

/-- Cookies whose escapes are well formed are read. -/
theorem Escaped.cookieComplete (h : Escaped s) : CookieComplete s :=
  h.removeBlanks.pairsComplete (by decide) (by decide)

end

/-! ## requests -/

inductive Method
  | get
  | post
  deriving DecidableEq

def Method.text : Method → Str
  | .get => ascii ['G', 'E', 'T']
  | .post => ascii ['P', 'O', 'S', 'T']

structure HttpRequest where
  method : Method
  target : Str
  version : Str
  headers : List (Str × Str)
  body : Str

namespace HttpRequest

/-- The request line. -/
def line (r : HttpRequest) : Str :=
  r.method.text ++ ascii [' '] ++ r.target ++ ascii [' '] ++ r.version

def headerLines (r : HttpRequest) : List Str := r.headers.map fun h => h.1 ++ ascii [':'] ++ h.2

/-- The bytes of a request. -/
def render (r : HttpRequest) : Str :=
  r.line ++ lineBreak ++ r.headerLines.flatMap (· ++ lineBreak) ++ lineBreak ++ r.body

/-- A well-formed request.  Its target has complete escapes, and so have its cookies;
its headers have names; and the body of a POST is as long as the last `Content-Length`
says, and has no header line in it. -/
structure WellFormed (r : HttpRequest) : Prop where
  slash : ∃ path, r.target = ascii ['/'] ++ path
  target : 32 ∉ r.target ∧ 13 ∉ r.target
  escaped : Escaped r.target
  version : 13 ∉ r.version
  names : ∀ h ∈ r.headers, 58 ∉ h.1 ∧ 13 ∉ h.1 ∧ ¬ h.1.all isBlank
  values : ∀ h ∈ r.headers, 13 ∉ h.2
  cookies : ∀ h ∈ r.headers, upperCase (trimBlanks h.1) = cookieName → Escaped h.2
  body : ∀ l ∈ lines r.body, 58 ∉ l
  length : r.method = .post →
    ∃ value, lastHeader r.headerLines contentLength = some value ∧
      atouint32 (boostTrim value) = r.body.length ∧ r.body.length < 2 ^ 31

/-- What of it makes the lines of the packet those of the request. -/
structure Framed (r : HttpRequest) : Prop where
  line : breakOn lineBreak r.line = none
  names : ∀ h ∈ r.headers, 58 ∉ h.1 ∧ 13 ∉ h.1 ∧ ¬ h.1.all isBlank
  values : ∀ h ∈ r.headers, 13 ∉ h.2
  cookies : ∀ h ∈ r.headers, upperCase (trimBlanks h.1) = cookieName → Escaped h.2
  body : ∀ l ∈ lines r.body, 58 ∉ l

end HttpRequest

/-! ## decoding well-formed requests -/

/-- Trimming keeps a first character that is not a blank. -/
theorem trimBlanks_cons {c : UInt8} (hc : isBlank c = false) (s : Str) :
    ∃ t, trimBlanks (c :: s) = c :: t := by
  have hdrop : (c :: s).dropWhile isBlank = c :: s := by simp [hc]
  rw [trimBlanks, hdrop, List.reverse_cons, List.dropWhile_append]
  split
  · exact ⟨[], by simp [hc]⟩
  · exact ⟨(s.reverse.dropWhile isBlank).reverse, by simp⟩

theorem valueIn_of_notMem {l : Str} (hl : 58 ∉ l) (name : Str) : valueIn name l = none := by
  have hb : breakOn (ascii [':']) l = none := breakOn_of_notMem hl
  simp [valueIn, headerOf, hb]

theorem named_of_notMem {l : Str} (hl : 58 ∉ l) : Named l := by
  have hb : breakOn (ascii [':']) l = none := breakOn_of_notMem hl
  simp [Named, hb]

theorem lastHeader_of_notMem {ls : List Str} (h : ∀ l ∈ ls, 58 ∉ l) (name : Str) :
    lastHeader ls name = none := by
  rw [lastHeader, List.findSome?_eq_none_iff]
  intro l hl
  exact valueIn_of_notMem (h l (List.mem_reverse.mp hl)) name

namespace HttpRequest

variable {r : HttpRequest}

/-- The request line begins with the `G` or the `P` of its method. -/
theorem line_eq (r : HttpRequest) : ∃ c s, r.line = c :: s ∧ (c = 71 ∨ c = 80) := by
  cases hm : r.method with
  | get => exact ⟨71, _, by simp [line, hm, Method.text, ascii]; rfl, .inl rfl⟩
  | post => exact ⟨80, _, by simp [line, hm, Method.text, ascii]; rfl, .inr rfl⟩

/-- What stands before a colon of the request line begins with it too. -/
theorem name_of_line {name value : Str} (h : breakOn (ascii [':']) r.line = some (name, value)) :
    ∃ c s, name = c :: s ∧ (c = 71 ∨ c = 80) := by
  obtain ⟨c, s, hline, hc⟩ := r.line_eq
  have heq := breakOn_eq h
  rw [hline] at heq
  cases name with
  | nil =>
      obtain ⟨rfl, -⟩ := List.cons.inj heq
      exact absurd hc (by decide)
  | cons d name =>
      obtain ⟨rfl, -⟩ := List.cons.inj heq
      exact ⟨c, name, rfl, hc⟩

/-- A request line is no header without a name. -/
theorem named_line (r : HttpRequest) : Named r.line := by
  intro name value hb hall
  obtain ⟨c, s, rfl, rfl | rfl⟩ := name_of_line hb
  all_goals simp [isBlank] at hall

/-- A request line is no cookie. -/
theorem valueIn_line (r : HttpRequest) : valueIn cookieName r.line = none := by
  cases hb : breakOn (ascii [':']) r.line with
  | none => simp [valueIn, headerOf, hb]
  | some p =>
      obtain ⟨c, s, hname, hc⟩ := name_of_line hb
      have hne : upperCase (trimBlanks p.1) ≠ cookieName := by
        have hblank : isBlank c = false := by rcases hc with rfl | rfl <;> decide
        obtain ⟨t, ht⟩ := trimBlanks_cons hblank s
        rw [hname, ht]
        rcases hc with rfl | rfl <;> simp [upperCase, cookieName, ascii]
      simp [valueIn, headerOf, hb, hne]

theorem WellFormed.framed (h : r.WellFormed) : r.Framed where
  line := by
    have htarget := h.target.2
    have hversion := h.version
    refine breakOn_of_notMem ?_
    cases hm : r.method <;> simp [line, hm, Method.text, ascii, htarget, hversion]
  names := h.names
  values := h.values
  cookies := h.cookies
  body := h.body

/-- The target goes from the first `/` to the next blank. -/
theorem requestOf_line {path : Str} (hpath : r.target = ascii ['/'] ++ path) :
    requestOf r.line = some (r.target.takeWhile (· ≠ 32)) := by
  have hslash : 47 ∉ r.method.text ++ ascii [' '] := by
    cases r.method <;> decide
  have hbreak : breakOn (ascii ['/']) r.line =
      some (r.method.text ++ ascii [' '], path ++ ascii [' '] ++ r.version) := by
    have heq : r.line = (r.method.text ++ ascii [' ']) ++
        (ascii ['/'] ++ (path ++ ascii [' '] ++ r.version)) := by
      simp [line, hpath]
    rw [heq]
    exact breakOn_append_cons hslash _
  have hblank : ∃ rest, breakOn (ascii [' ']) (ascii ['/'] ++ (path ++ ascii [' '] ++ r.version)) =
      some (r.target.takeWhile (· ≠ 32), rest) := by
    have heq : ascii ['/'] ++ (path ++ ascii [' '] ++ r.version) = r.target ++ 32 :: r.version := by
      simp [hpath, ascii]
    rw [heq]
    exact breakOn_append_takeWhile 32 r.target r.version
  obtain ⟨rest, hrest⟩ := hblank
  simp only [requestOf, hbreak, hrest, Option.bind_eq_bind, Option.bind_some, Option.pure_def]

/-- The target of a well-formed request is read from its line. -/
theorem WellFormed.requestOf_line (h : r.WellFormed) : requestOf r.line = some r.target := by
  obtain ⟨path, hpath⟩ := h.slash
  rw [HttpRequest.requestOf_line hpath, takeWhile_ne_self h.target.1]

namespace Framed

theorem headerLine_notMem (h : r.Framed) : ∀ l ∈ r.headerLines, 13 ∉ l := by
  intro l hl
  obtain ⟨p, hp, rfl⟩ := List.mem_map.mp hl
  have hname := (h.names p hp).2.1
  have hvalue := h.values p hp
  simp [ascii, hname, hvalue]

/-- The first line of a request is its request line. -/
theorem breakOn_render (h : r.Framed) :
    ∃ rest, breakOn lineBreak r.render = some (r.line, rest) := by
  rw [render, List.append_assoc, List.append_assoc]
  exact ⟨_, breakOn_lineBreak h.line _⟩

/-- The lines of a request. -/
theorem lines_render (h : r.Framed) :
    lines r.render = r.line :: (r.headerLines ++ [] :: lines r.body) := by
  have hblank : lines (lineBreak ++ r.body) = [] :: lines r.body :=
    lines_cons (l := []) rfl r.body
  rw [render, List.append_assoc, List.append_assoc, lines_cons h.line,
    lines_flatMap fun l hl => breakOn_of_notMem (h.headerLine_notMem l hl), hblank]

theorem breakOn_headerLine (h : r.Framed) {p : Str × Str} (hp : p ∈ r.headers) :
    breakOn (ascii [':']) (p.1 ++ ascii [':'] ++ p.2) = some p := by
  rw [List.append_assoc]
  exact breakOn_append_cons (h.names p hp).1 p.2

/-- No line of a request has blanks only before its colon. -/
theorem named (h : r.Framed) : ∀ l ∈ lines r.render, Named l := by
  intro l hl
  rw [h.lines_render] at hl
  simp only [List.mem_cons, List.mem_append] at hl
  rcases hl with rfl | hl | rfl | hl
  · exact r.named_line
  · obtain ⟨p, hp, rfl⟩ := List.mem_map.mp hl
    intro name value hb
    obtain rfl := Option.some.inj ((h.breakOn_headerLine hp).symm.trans hb)
    exact (h.names _ hp).2.2
  · exact named_of_notMem (by simp)
  · exact named_of_notMem (h.body l hl)

/-- The header lines come first when a header is looked up, then the request line. -/
theorem lastHeader_render (h : r.Framed) (name : Str) :
    lastHeader (lines r.render) name =
      (lastHeader r.headerLines name).or (valueIn name r.line) := by
  have hbody : lastHeader ([] :: lines r.body) name = none := by
    refine lastHeader_of_notMem (fun l hl => ?_) name
    rcases List.mem_cons.mp hl with rfl | hl
    · simp
    · exact h.body l hl
  have hline : lastHeader [r.line] name = valueIn name r.line := by simp [lastHeader]
  rw [h.lines_render, ← List.singleton_append, lastHeader_append, lastHeader_append, hbody,
    Option.none_or, hline]

/-- The cookies of a request are read. -/
theorem cookie (h : r.Framed) :
    CookieComplete ((lastHeader (lines r.render) cookieName).getD []) := by
  rw [h.lastHeader_render, valueIn_line, Option.or_none]
  cases hlast : lastHeader r.headerLines cookieName with
  | none => exact Escaped.nil.cookieComplete
  | some value =>
      rw [lastHeader] at hlast
      obtain ⟨l, hl, hvalue⟩ := List.exists_of_findSome?_eq_some hlast
      obtain ⟨p, hp, rfl⟩ := List.mem_map.mp (List.mem_reverse.mp hl)
      simp only [valueIn, headerOf, h.breakOn_headerLine hp, Option.map_some] at hvalue
      split at hvalue
      · next hname =>
          cases hvalue
          exact (h.cookies p hp hname).cookieComplete
      · cases hvalue

end Framed

end HttpRequest

section

variable (utf8ToGbk : Str → Str) {r : HttpRequest} {packet : HttpRequestPacket}

/-- The first half of `decode_get` and `decode_post`. -/
theorem decodeHead_render (h : r.WellFormed) :
    ∃ packet, decodeHead utf8ToGbk .init r.render = .ok (some packet) ∧
      packet.mapHead = lastHeader (lines r.render) := by
  obtain ⟨rest, hline⟩ := h.framed.breakOn_render
  obtain ⟨p, hd⟩ := (decodeHead_ok_iff utf8ToGbk hline h.requestOf_line .init).mpr
    ⟨h.escaped.targetComplete, h.framed.named⟩
  obtain ⟨packet, rfl, hmap, -⟩ := decodeHead_eq_ok utf8ToGbk hline h.requestOf_line hd
  exact ⟨packet, hd, hmap⟩

/-- A well-formed request is decoded as a GET. -/
theorem decodeGet_render (h : r.WellFormed) :
    ∃ packet, decodeGet utf8ToGbk .init r.render = .ok (0, packet) := by
  obtain ⟨packet, hd, hmap⟩ := decodeHead_render utf8ToGbk h
  obtain ⟨cookies, hcookies⟩ := (parseCookie_ok_iff packet.mapCookie _).mpr h.framed.cookie
  rw [← getLine_cookie hmap] at hcookies
  exact ⟨{ packet with mapCookie := cookies }, by simp [decodeGet, hd, hcookies]⟩

/-- A well-formed POST is decoded. -/
theorem decodePost_render (h : r.WellFormed) (hpost : r.method = .post) :
    ∃ packet, decodePost utf8ToGbk .init r.render = .ok (0, packet) := by
  obtain ⟨packet, hd, hmap⟩ := decodeHead_render utf8ToGbk h
  obtain ⟨value, hlast, hlength, hbound⟩ := h.length hpost
  have hvalue : packet.mapHead contentLength = some value := by
    rw [hmap, h.framed.lastHeader_render, hlast, Option.some_or]
  have hint : i32 (r.body.length : Nat) = r.body.length := i32_eq_self ⟨by omega, by omega⟩
  have hlen : r.body.length ≤ r.render.length := by
    rw [HttpRequest.render, List.length_append]
    omega
  have hsize : sizeLt r.render.length (r.body.length : Nat) = false := by
    simp only [sizeLt, decide_eq_false_iff_not]
    omega
  refine ⟨?_, by simp only [decodePost, hd, ok_bind, hvalue, hlength, hint, hsize]; rfl⟩

/-- **Well-formed requests** are decoded. -/
theorem decode_render (h : r.WellFormed) :
    ∃ packet, decode utf8ToGbk .init r.render = .ok (0, packet) := by
  obtain ⟨rest, hline⟩ := h.framed.breakOn_render
  simp only [decode, hline]
  -- a request line with a `GET` in it is decoded as a GET, whatever its method is
  split
  · exact decodeGet_render utf8ToGbk h
  · next hget =>
      cases hm : r.method with
      | get =>
          have hsome := breakOn_isSome (Method.text .get) []
            (ascii [' '] ++ r.target ++ ascii [' '] ++ r.version)
          exact absurd (by simpa [HttpRequest.line, hm, Method.text] using hsome) hget
      | post =>
          have hsome := breakOn_isSome (Method.text .post) []
            (ascii [' '] ++ r.target ++ ascii [' '] ++ r.version)
          have hpost : (breakOn (ascii ['P', 'O', 'S', 'T']) r.line).isSome := by
            simpa [HttpRequest.line, hm, Method.text] using hsome
          rw [if_pos hpost]
          exact decodePost_render utf8ToGbk h hm

end

end MySrc
