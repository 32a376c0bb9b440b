import MySrc.TemplateHttp.HttpRequestPacket

/-!
# MySrc.TemplateHttp.HttpHead

What `ParseHead` reads out of a packet.  `ParseHead` works on the lines of the
whole packet, whose last value for a name wins (`parseHead_eq`), and never
stops at the blank line; so a line of the body counts as a header like any
other.  `sameHeads_iff` says which bodies leave the headers of a POST request
alone.
-/

namespace MySrc

open Lib

/-! ## escapes -/

/-- Two characters stand behind every `%` that the scan meets. -/
def escapesComplete : Str → Bool
  | [] => true
  | [c] => c ≠ 37
  | [c, d] => c ≠ 37 ∧ d ≠ 37
  | c :: d :: e :: s =>
      if c = 37 then escapesComplete s else escapesComplete (d :: e :: s)

section

variable {s : Str} {c : UInt8}

theorem escapesComplete_cons (hc : c ≠ 37) : escapesComplete (c :: s) = escapesComplete s := by
  match s with
  | [] => simp [escapesComplete, hc]
  | [d] => simp [escapesComplete, hc]
  | d :: e :: s => rw [escapesComplete, if_neg hc]

/-- The loop of `unescape_url` stays inside the block exactly when the escapes from `y`
on are complete.  It writes in front of `y` only, so it never sees what it wrote. -/
theorem unescapeLoop_ok_iff {url : List UInt8} {x y fuel : Nat} (hnul : 0 ∉ s)
    (hurl : url.drop y = s ++ [0]) (hxy : x ≤ y) (hfuel : s.length < fuel) :
    (∃ r, unescapeLoop fuel url x y = .ok r) ↔ escapesComplete s := by
  induction fuel generalizing s url x y with
  | zero => omega
  | succ fuel ih =>
      have hat : ∀ i, url[y + i]? = (s ++ [0])[i]? := by
        intro i
        rw [← hurl, List.getElem?_drop]
      have hset : ∀ v n, 1 ≤ n → (url.set x v).drop (y + n) = (s ++ [0]).drop n := by
        intro v n hn
        rw [List.drop_set_of_lt (by omega), ← List.drop_drop, hurl]
      have h0 := hat 0
      rw [unescapeLoop, charAt]
      cases s with
      | nil => simp_all [escapesComplete]
      | cons c s =>
          have hne : c ≠ 0 := by grind
          have hnul' : 0 ∉ s := by grind
          simp only [Nat.add_zero, List.cons_append, List.getElem?_cons_zero] at h0
          simp only [h0, ok_bind, hne, if_false]
          have h1 := hat 1
          have h2 := hat 2
          split
          · next hpercent =>
              match s with
              | [] => simp_all [charAt, escapesComplete]
              | [d] =>
                  have h3 := hset (x2c d 0) 3 (by omega)
                  simp at h1 h2 h3
                  cases fuel with
                  | zero => simp at hfuel
                  | succ fuel =>
                      simp [charAt, h1, h2, unescapeLoop, escapesComplete, hpercent, h3]
              | hi :: lo :: rest =>
                  simp only [List.cons_append, List.getElem?_cons_succ,
                    List.getElem?_cons_zero] at h1 h2
                  simp only [charAt, h1, h2, ok_bind, escapesComplete, hpercent, if_true]
                  exact ih (by grind) (by simp [hset]) (by omega) (by simp at hfuel; omega)
          · next hpercent =>
              rw [escapesComplete_cons hpercent]
              split
              all_goals
                exact ih hnul' (by simp [hset]) (by omega) (by simp at hfuel; omega)

/-- A string is unescaped inside its bounds exactly when its escapes are complete. -/
theorem unescapeUrlStr_ok_iff : (∃ r, unescapeUrlStr s = .ok r) ↔ escapesComplete (cStr s) := by
  have hloop := unescapeLoop_ok_iff (x := 0) (nul_notMem_cStr s)
    (List.drop_zero (l := cStr s ++ [0])) (Nat.le_refl 0)
    (show (cStr s).length < (cStr s ++ [0]).length + 1 by
      rw [List.length_append]
      omega)
  rw [← hloop, unescapeUrlStr, unescapeUrl]
  cases unescapeLoop ((cStr s ++ [0]).length + 1) (cStr s ++ [0]) 0 0 <;> simp

end

/-- The escapes in the values of some pairs are complete. -/
def PairsComplete (c : UInt8) (s : Str) : Prop :=
  ∀ p ∈ split c s, ∀ name value, breakOn (ascii ['=']) p = some (name, value) →
    escapesComplete (cStr value)

/-- The escapes of a request are complete as far as `ParseParam` reads them. -/
def TargetComplete (target : Str) : Prop :=
  ∀ path params, breakOn (ascii ['?']) target = some (path, params) →
    escapesComplete (cStr path) ∧ PairsComplete 38 params

/-- The escapes of a cookie are complete. -/
def CookieComplete (sCookie : Str) : Prop := PairsComplete 59 (sCookie.filter (· ≠ 32))

/-- A pair is read exactly when the escapes of its value are complete. -/
theorem parsePair_ok_iff (m : StrMap) (s : Str) :
    (∃ m', parsePair m s = .ok m') ↔
      ∀ name value, breakOn (ascii ['=']) s = some (name, value) →
        escapesComplete (cStr value) := by
  rw [parsePair]
  cases hb : breakOn (ascii ['=']) s with
  | none => simp
  | some p =>
      obtain ⟨name, value⟩ := p
      have hval := unescapeUrlStr_ok_iff (s := value)
      cases hu : unescapeUrlStr value <;> simp_all

/-- Pairs are read exactly when the escapes of all values are complete. -/
theorem parsePairs_ok_iff (c : UInt8) (s : Str) (m : StrMap) :
    (∃ m', (split c s).foldlM parsePair m = .ok m') ↔ PairsComplete c s := by
  rw [foldlM_ok_iff (fun p m => parsePair_ok_iff m p)]
  rfl

/-- `ParseParam` touches the path and the parameters only. -/
theorem parseParam_eq_ok {utf8ToGbk : Str → Str} {packet packet' : HttpRequestPacket} {s : Str}
    (h : parseParam utf8ToGbk packet s = .ok packet') :
    packet' =
      { packet with mapParam := packet'.mapParam, m_str_cmdpath := packet'.m_str_cmdpath } := by
  rw [parseParam] at h
  split at h
  · cases h
    rfl
  · obtain ⟨path, -, h⟩ := bind_eq_ok.mp h
    obtain ⟨params, -, h⟩ := bind_eq_ok.mp h
    cases h
    rfl

/-- A target is read exactly when its escapes are complete. -/
theorem parseParam_ok_iff (utf8ToGbk : Str → Str) (packet : HttpRequestPacket) (s : Str) :
    (∃ packet', parseParam utf8ToGbk packet s = .ok packet') ↔ TargetComplete s := by
  rw [parseParam]
  cases hb : breakOn (ascii ['?']) s with
  | none => simp [TargetComplete, hb]
  | some p =>
      obtain ⟨path, params⟩ := p
      have hpath := unescapeUrlStr_ok_iff (s := path)
      have hparams := parsePairs_ok_iff 38 params .empty
      cases hu : unescapeUrlStr path <;>
        cases hp : (split 38 params).foldlM parsePair .empty <;>
          simp_all [TargetComplete]

/-- Cookies are read exactly when their escapes are complete. -/
theorem parseCookie_ok_iff (m : StrMap) (sCookie : Str) :
    (∃ m', parseCookie m sCookie = .ok m') ↔ CookieComplete sCookie := by
  rw [parseCookie]
  split
  · next hnil =>
      subst hnil
      refine iff_of_true ⟨m, rfl⟩ ?_
      intro p hp name value hb
      have hp' : p = [] := by simpa [split, pieces, splitAll] using hp
      simp [hp', breakOn, ascii] at hb
  · exact parsePairs_ok_iff 59 _ m

/-! ## the headers of a text -/

/-- The lines that `\r\n` ends. -/
def lines (s : Str) : List Str := (pieces lineBreak s).1

theorem breakOn_lineBreak {l : Str} (hl : breakOn lineBreak l = none) (s : Str) :
    breakOn lineBreak (l ++ lineBreak ++ s) = some (l, s) :=
  breakOn_append_sep (by decide) hl s

/-- A line without a line break in it, in front of a text. -/
theorem lines_cons {l : Str} (hl : breakOn lineBreak l = none) (s : Str) :
    lines (l ++ lineBreak ++ s) = l :: lines s := by
  rw [lines, pieces_of_some (by decide) (breakOn_lineBreak hl s)]
  rfl

theorem lines_flatMap {ls : List Str} (hls : ∀ l ∈ ls, breakOn lineBreak l = none) (s : Str) :
    lines (ls.flatMap (· ++ lineBreak) ++ s) = ls ++ lines s := by
  induction ls with
  | nil => rfl
  | cons l ls ih =>
      rw [List.flatMap_cons, List.append_assoc, lines_cons (hls l (by simp)),
        ih fun l' hl' => hls l' (by simp [hl'])]
      rfl

theorem lines_of_notMem {s : Str} (h : 13 ∉ s) : lines s = [] := by
  have hnone : breakOn lineBreak s = none := breakOn_of_notMem h
  rw [lines, pieces_of_none hnone]

/-- The lines of a packet are those of its head and those of its body. -/
theorem lines_of_split {w front body : Str}
    (h : breakOn (lineBreak ++ lineBreak) w = some (front, body)) :
    lines w = lines (front ++ lineBreak ++ lineBreak) ++ lines body := by
  have hrest : (pieces lineBreak (front ++ lineBreak ++ lineBreak)).2 = [] :=
    pieces_append_sep (by decide) _
  rw [breakOn_eq h, ← List.append_assoc, lines, pieces_append (by decide) hrest]
  rfl

/-- A text without the blanks around it. -/
def trimBlanks (s : Str) : Str := ((s.dropWhile isBlank).reverse.dropWhile isBlank).reverse

/-- A line has no colon, or more than blanks in front of its first one. -/
def Named (line : Str) : Prop :=
  ∀ name value, breakOn (ascii [':']) line = some (name, value) → ¬ name.all isBlank

instance (line : Str) : Decidable (Named line) :=
  match h : breakOn (ascii [':']) line with
  | none => .isTrue fun _ _ h' => by simp [h] at h'
  | some p => decidable_of_iff (¬ p.1.all isBlank) (by simp [Named, h, Prod.ext_iff])

/-- The name of a header in upper case, and its value. -/
def headerOf (line : Str) : Option (Str × Str) :=
  (breakOn (ascii [':']) line).map fun p => (upperCase (trimBlanks p.1), p.2)

/-- The value that a line has for a name. -/
def valueIn (name line : Str) : Option Str :=
  match headerOf line with
  | some (n, value) => if n = name then some value else none
  | none => none

/-- The value of the last line for a name. -/
def lastHeader (ls : List Str) (name : Str) : Option Str := ls.reverse.findSome? (valueIn name)

section

variable {s name line : Str} {ls : List Str} {m : StrMap}

theorem lastHeader_append (ls ms : List Str) (name : Str) :
    lastHeader (ls ++ ms) name = (lastHeader ms name).or (lastHeader ls name) := by
  simp [lastHeader]

/-- Trimming looks past the front of a string of blanks only. -/
theorem trim_eq (s : Str) :
    trim s = if s.all isBlank then .error .outOfBounds else .ok (trimBlanks s) := by
  rw [trim, trimRight, trimLeft, trimBlanks]
  by_cases hall : s.all isBlank
  · have hnil : s.dropWhile isBlank = [] := by
      rw [List.dropWhile_eq_nil_iff]
      simpa using hall
    simp [hnil, hall]
  · have hne : s.dropWhile isBlank ≠ [] := by
      intro hnil
      rw [List.dropWhile_eq_nil_iff] at hnil
      exact hall (by simpa using hnil)
    -- the first character that is left stops the loop from the right
    have hhead := List.head_dropWhile_not isBlank hne
    cases hr : (s.dropWhile isBlank).reverse.dropWhile isBlank with
    | nil =>
        rw [List.dropWhile_eq_nil_iff] at hr
        have := hr _ (List.mem_reverse.mpr (List.head_mem hne))
        simp_all
    | cons last front => simp [hall]

/-- A line adds its header, and faults when it has blanks only before its colon. -/
theorem parseHeadLine_eq (m : StrMap) (line : Str) :
    parseHeadLine m line =
      if Named line then .ok fun name => (valueIn name line).or (m name)
      else .error .outOfBounds := by
  rw [parseHeadLine]
  cases hb : breakOn (ascii [':']) line with
  | none => simp [Named, valueIn, headerOf, hb]
  | some p =>
      obtain ⟨sDomain, sValue⟩ := p
      by_cases hblank : sDomain.all isBlank
      · have hnot : ¬ Named line := fun hnamed => hnamed _ _ hb hblank
        simp [trim_eq, hblank, hnot]
      · have hnamed : Named line := by simpa [Named, hb] using hblank
        simp only [trim_eq, hblank, hnamed, Bool.false_eq_true, if_true, if_false, ok_bind,
          pure_eq_ok]
        congr 1
        funext name
        by_cases hname : upperCase (trimBlanks sDomain) = name
        · simp [StrMap.set, valueIn, headerOf, hb, ← hname]
        · simp [StrMap.set, valueIn, headerOf, hb, hname, Function.update_of_ne (Ne.symm hname)]

/-- **`ParseHead`** faults at a line without a name, and otherwise gives every name the
value of its last line. -/
theorem parseHead_eq (m : StrMap) (s : Str) :
    parseHead m s =
      if ∀ line ∈ lines s, Named line then
        .ok fun name => (lastHeader (lines s) name).or (m name)
      else .error .outOfBounds := by
  rw [parseHead, ← lines]
  induction lines s generalizing m with
  | nil => simp [lastHeader]
  | cons line ls ih =>
      rw [List.foldlM_cons, parseHeadLine_eq]
      by_cases hnamed : Named line
      · have hlast : ∀ name, lastHeader (line :: ls) name =
            (lastHeader ls name).or (valueIn name line) := by
          intro name
          rw [← List.singleton_append, lastHeader_append]
          simp [lastHeader]
        simp [hnamed, ih, hlast, Option.or_assoc]
      · simp [hnamed]

end

/-! ## decoding -/

/-- Decoding stays inside its strings: the escapes of the target are complete, every
line with a colon has a name, and so are the escapes of the cookie, which only a request
line with a `GET` in it has parsed. -/
structure Reads (line target w : Str) : Prop where
  target : TargetComplete target
  named : ∀ l ∈ lines w, Named l
  cookie : (breakOn (ascii ['G', 'E', 'T']) line).isSome →
    CookieComplete ((lastHeader (lines w) cookieName).getD [])

section

variable {line target rest w : Str} (utf8ToGbk : Str → Str)

/-- The head is read exactly when the target is, and every line has a name. -/
theorem decodeHead_ok_iff (hline : breakOn lineBreak w = some (line, rest))
    (htarget : requestOf line = some target) (packet : HttpRequestPacket) :
    (∃ p, decodeHead utf8ToGbk packet w = .ok p) ↔
      TargetComplete target ∧ ∀ l ∈ lines w, Named l := by
  simp only [decodeHead, hline, htarget, parseHead_eq]
  rw [← parseParam_ok_iff utf8ToGbk { packet with m_str_GetRequest := target } target]
  cases parseParam utf8ToGbk { packet with m_str_GetRequest := target } target with
  | error e => simp
  | ok p =>
      by_cases hn : ∀ l ∈ lines w, Named l
      · simp only [ok_bind, if_pos hn, pure_eq_ok]
        exact iff_of_true ⟨_, rfl⟩ ⟨⟨p, rfl⟩, hn⟩
      · simp only [ok_bind, if_neg hn, error_bind]
        exact iff_of_false (by simp) fun h => hn h.2

/-- A head that is read gives its headers to a new packet. -/
theorem decodeHead_eq_ok (hline : breakOn lineBreak w = some (line, rest))
    (htarget : requestOf line = some target) {p : Option HttpRequestPacket}
    (h : decodeHead utf8ToGbk .init w = .ok p) :
    ∃ packet, p = some packet ∧ packet.mapHead = lastHeader (lines w) ∧
      packet.m_str_clientip = [] := by
  simp only [decodeHead, hline, htarget] at h
  obtain ⟨packet, hparam, h⟩ := bind_eq_ok.mp h
  obtain ⟨mapHead, hhead, h⟩ := bind_eq_ok.mp h
  cases h
  refine ⟨_, rfl, ?_, ?_⟩
  · rw [parseHead_eq] at hhead
    split at hhead
    · cases hhead
      rw [parseParam_eq_ok hparam]
      funext name
      simp [HttpRequestPacket.init, StrMap.empty]
    · cases hhead
  · rw [parseParam_eq_ok hparam]
    rfl

theorem getLine_cookie {packet : HttpRequestPacket} (h : packet.mapHead = lastHeader (lines w)) :
    getLine packet.mapHead cookieName = (lastHeader (lines w) cookieName).getD [] := by
  have hupper : upperCase cookieName = cookieName := by decide
  rw [getLine, hupper, h]

/-- A GET is decoded exactly when its head and its cookies are read. -/
theorem decodeGet_ok_iff (hline : breakOn lineBreak w = some (line, rest))
    (htarget : requestOf line = some target) :
    (∃ r, decodeGet utf8ToGbk .init w = .ok r) ↔
      (TargetComplete target ∧ ∀ l ∈ lines w, Named l) ∧
        CookieComplete ((lastHeader (lines w) cookieName).getD []) := by
  rw [← decodeHead_ok_iff utf8ToGbk hline htarget .init, decodeGet]
  cases hd : decodeHead utf8ToGbk .init w with
  | error e => simp
  | ok p =>
      obtain ⟨packet, rfl, hmap, -⟩ := decodeHead_eq_ok utf8ToGbk hline htarget hd
      have hcookie := parseCookie_ok_iff packet.mapCookie (getLine packet.mapHead cookieName)
      rw [getLine_cookie hmap] at hcookie
      simp only [ok_bind]
      rw [getLine_cookie hmap, ← hcookie]
      cases parseCookie packet.mapCookie ((lastHeader (lines w) cookieName).getD []) <;> simp

/-- A POST is decoded exactly when its head is read. -/
theorem decodePost_ok_iff (hline : breakOn lineBreak w = some (line, rest))
    (htarget : requestOf line = some target) :
    (∃ r, decodePost utf8ToGbk .init w = .ok r) ↔
      TargetComplete target ∧ ∀ l ∈ lines w, Named l := by
  rw [← decodeHead_ok_iff utf8ToGbk hline htarget .init, decodePost]
  cases hd : decodeHead utf8ToGbk .init w with
  | error e => simp
  | ok p =>
      obtain ⟨packet, rfl, -⟩ := decodeHead_eq_ok utf8ToGbk hline htarget hd
      simp only [ok_bind]
      split
      · simp
      · split <;> simp

/-- **`Decode`** of a POST request returns exactly when it stays inside its strings. -/
theorem decode_ok_iff (hline : breakOn lineBreak w = some (line, rest))
    (htarget : requestOf line = some target)
    (hpost : (breakOn (ascii ['P', 'O', 'S', 'T']) line).isSome) :
    (∃ r, decode utf8ToGbk .init w = .ok r) ↔ Reads line target w := by
  simp only [decode, hline]
  split
  · next hget =>
      rw [decodeGet_ok_iff utf8ToGbk hline htarget]
      exact ⟨fun h => ⟨h.1.1, h.1.2, fun _ => h.2⟩, fun h => ⟨⟨h.target, h.named⟩, h.cookie hget⟩⟩
  · next hget =>
      rw [decodePost_ok_iff utf8ToGbk hline htarget]
      exact ⟨fun h => ⟨h.1, h.2, fun h' => absurd h' hget⟩, fun h => ⟨h.target, h.named⟩⟩

/-- The headers that `Decode` finds are those of all lines of the packet. -/
theorem decode_mapHead (hline : breakOn lineBreak w = some (line, rest))
    (htarget : requestOf line = some target)
    (hpost : (breakOn (ascii ['P', 'O', 'S', 'T']) line).isSome) {ret : Int}
    {packet : HttpRequestPacket} (h : decode utf8ToGbk .init w = .ok (ret, packet)) :
    packet.mapHead = lastHeader (lines w) ∧ packet.m_str_clientip = [] := by
  simp only [decode, hline] at h
  split at h
  · obtain ⟨p, hd, h⟩ := bind_eq_ok.mp h
    obtain ⟨packet', rfl, hmap⟩ := decodeHead_eq_ok utf8ToGbk hline htarget hd
    obtain ⟨cookies, -, h⟩ := bind_eq_ok.mp h
    cases h
    exact hmap
  · obtain ⟨p, hd, h⟩ := bind_eq_ok.mp h
    obtain ⟨packet', rfl, hmap⟩ := decodeHead_eq_ok utf8ToGbk hline htarget hd
    simp only at h
    split at h
    · cases h
      exact hmap
    · split at h
      all_goals
        cases h
        exact hmap

end

/-! ## two bodies behind one head -/

section

variable (utf8ToGbk : Str → Str) (peerName : Nat → Option Str)

/-- `Decode` produces the same headers from two packets, and so `generate_client_ip` the
same client address, whatever the descriptor is. -/
def SameHeads (w₁ w₂ : Str) : Prop :=
  ∃ ret₁ p₁ ret₂ p₂, decode utf8ToGbk .init w₁ = .ok (ret₁, p₁) ∧
    decode utf8ToGbk .init w₂ = .ok (ret₂, p₂) ∧ p₁.mapHead = p₂.mapHead ∧
    ∀ fd, (generateClientIp peerName { p₁ with m_clientfd := fd }).m_str_clientip =
      (generateClientIp peerName { p₂ with m_clientfd := fd }).m_str_clientip

/-- The packets `w` have the head `front`, a POST request, up to the first blank line,
and the body behind it. -/
structure PostRequest (front line target w body : Str) : Prop where
  split : breakOn (lineBreak ++ lineBreak) w = some (front, body)
  first : (breakOn lineBreak w).map Prod.fst = some line
  post : (breakOn (ascii ['P', 'O', 'S', 'T']) line).isSome
  request : requestOf line = some target

variable {front line target w w₁ w₂ body body₁ body₂ : Str}

theorem PostRequest.lines_eq (h : PostRequest front line target w body) :
    lines w = lines (front ++ lineBreak ++ lineBreak) ++ lines body :=
  lines_of_split h.split

/-- The client address depends on the headers, the old address and the descriptor. -/
theorem generateClientIp_congr {p₁ p₂ : HttpRequestPacket} (hmap : p₁.mapHead = p₂.mapHead)
    (hip : p₁.m_str_clientip = p₂.m_str_clientip) (hfd : p₁.m_clientfd = p₂.m_clientfd) :
    (generateClientIp peerName p₁).m_str_clientip =
      (generateClientIp peerName p₂).m_str_clientip := by
  simp only [generateClientIp, hmap, hip, hfd]
  split
  · rfl
  · split
    · split <;> rfl
    · exact hip

/-- **Forged headers**: two POST requests with the same head have the same headers exactly
when both are read inside their strings, and for every name the last line of each body
that has it gives the same value, or the value of the head where there is none. -/
theorem sameHeads_iff (h₁ : PostRequest front line target w₁ body₁)
    (h₂ : PostRequest front line target w₂ body₂) :
    SameHeads utf8ToGbk peerName w₁ w₂ ↔
      Reads line target w₁ ∧ Reads line target w₂ ∧
        ∀ name,
          (lastHeader (lines body₁) name).or
              (lastHeader (lines (front ++ lineBreak ++ lineBreak)) name) =
            (lastHeader (lines body₂) name).or
              (lastHeader (lines (front ++ lineBreak ++ lineBreak)) name) := by
  obtain ⟨⟨_, rest₁⟩, hline₁, rfl⟩ := Option.map_eq_some_iff.mp h₁.first
  obtain ⟨⟨_, rest₂⟩, hline₂, rfl⟩ := Option.map_eq_some_iff.mp h₂.first
  have hreads₁ := decode_ok_iff utf8ToGbk hline₁ h₁.request h₁.post
  have hreads₂ := decode_ok_iff utf8ToGbk hline₂ h₂.request h₂.post
  constructor
  · rintro ⟨ret₁, p₁, ret₂, p₂, hd₁, hd₂, hmap, -⟩
    refine ⟨hreads₁.mp ⟨_, hd₁⟩, hreads₂.mp ⟨_, hd₂⟩, fun name => ?_⟩
    rw [← lastHeader_append, ← lastHeader_append, ← h₁.lines_eq, ← h₂.lines_eq,
      ← (decode_mapHead utf8ToGbk hline₁ h₁.request h₁.post hd₁).1,
      ← (decode_mapHead utf8ToGbk hline₂ h₂.request h₂.post hd₂).1, hmap]
  · rintro ⟨hr₁, hr₂, hagree⟩
    obtain ⟨⟨ret₁, p₁⟩, hd₁⟩ := hreads₁.mpr hr₁
    obtain ⟨⟨ret₂, p₂⟩, hd₂⟩ := hreads₂.mpr hr₂
    obtain ⟨hmap₁, hip₁⟩ := decode_mapHead utf8ToGbk hline₁ h₁.request h₁.post hd₁
    obtain ⟨hmap₂, hip₂⟩ := decode_mapHead utf8ToGbk hline₂ h₂.request h₂.post hd₂
    have hmap : p₁.mapHead = p₂.mapHead := by
      funext name
      rw [hmap₁, hmap₂, h₁.lines_eq, h₂.lines_eq, lastHeader_append, lastHeader_append]
      exact hagree name
    refine ⟨ret₁, p₁, ret₂, p₂, hd₁, hd₂, hmap, fun fd => ?_⟩
    exact generateClientIp_congr peerName hmap (hip₁.trans hip₂.symm) rfl

end

/-- A request line, and a head of it with the length of a body of thirteen bytes. -/
def postLine : Str := ascii ['P', 'O', 'S', 'T', ' ', '/', 'a', ' ', 'H', 'T', 'T', 'P']

def postFront : Str :=
  postLine ++ lineBreak ++ contentLength ++ ascii [':', '1', '3']

def postPacket (body : Str) : Str := postFront ++ lineBreak ++ lineBreak ++ body

/-- Thirteen bytes without a line break. -/
def plainBody (c : UInt8) : Str := List.replicate 13 c

/-- Thirteen bytes that are a line with a header. -/
def forgedBody : Str := ascii ['X', '-', 'R', 'e', 'a', 'l', '-', 'I', 'P', ':', '1'] ++ lineBreak

theorem postRequest_packet (body : Str) :
    PostRequest postFront postLine (ascii ['/', 'a']) (postPacket body) body where
  split := by
    have h : breakOn (lineBreak ++ lineBreak) (postFront ++ lineBreak ++ lineBreak) =
        some (postFront, []) := by decide
    exact breakOn_append h body
  first := by
    have h : breakOn lineBreak (postFront ++ lineBreak ++ lineBreak) =
        some (postLine, contentLength ++ ascii [':', '1', '3'] ++ lineBreak ++ lineBreak) := by
      decide +kernel
    rw [postPacket, breakOn_append h body]
    rfl
  post := by decide
  request := by decide

theorem reads_plain (body : Str) (hnamed : ∀ l ∈ lines (postPacket body), Named l) :
    Reads postLine (ascii ['/', 'a']) (postPacket body) where
  target := by
    have h : breakOn (ascii ['?']) (ascii ['/', 'a']) = none := by decide
    simp [TargetComplete, h]
  named := hnamed
  cookie := by
    have h : (breakOn (ascii ['G', 'E', 'T']) postLine).isSome = false := by decide
    simp [h]

/-- Bodies without a line break are kept out of the headers. -/
theorem sameHeads_plain :
    SameHeads id (fun _ => none) (postPacket (plainBody 97)) (postPacket (plainBody 98)) := by
  have hlines : lines (plainBody 97) = [] ∧ lines (plainBody 98) = [] := by decide
  refine (sameHeads_iff id _ (postRequest_packet _) (postRequest_packet _)).mpr ⟨?_, ?_, ?_⟩
  · exact reads_plain _ (by decide)
  · exact reads_plain _ (by decide)
  · simp [hlines]

/-- A line `X-Real-IP:1` in a body sets the client address. -/
theorem forged_header :
    PostRequest postFront postLine (ascii ['/', 'a']) (postPacket forgedBody) forgedBody ∧
      PostRequest postFront postLine (ascii ['/', 'a']) (postPacket (plainBody 97))
        (plainBody 97) ∧
      forgedBody.length = (plainBody 97).length ∧
      ¬ SameHeads id (fun _ => none) (postPacket forgedBody) (postPacket (plainBody 97)) := by
  refine ⟨postRequest_packet _, postRequest_packet _, rfl, ?_⟩
  rintro ⟨ret₁, p₁, ret₂, p₂, hd₁, hd₂, hmap, -⟩
  have hforged : (decode id .init (postPacket forgedBody)).toOption.map
      (fun r => r.2.mapHead realIp) = some (some [49]) := by decide +kernel
  have hplain : (decode id .init (postPacket (plainBody 97))).toOption.map
      (fun r => r.2.mapHead realIp) = some none := by decide +kernel
  rw [hd₁] at hforged
  rw [hd₂] at hplain
  simp [Except.toOption, hmap] at hforged hplain
  simp [hforged] at hplain

end MySrc
