import MySrc.TemplateHttp.HttpGrammar
import MySrc.TemplateHttp.HttpQuery
import MySrc.TemplateHttp.Numbers
import MySrc.NotifyAdapter.MessageCodec

/-!
# MySrc.TemplateHttp.HttpParams

The parameters of a request: those of its target, which `ParseParam` finds, and those of
the body of a POST, which `decode_post` hands to `string2map`.

`decode_post` takes the last bytes of the packet for the body, as many as the last
`Content-Length` of all lines says; `takesBody_of_exact` says when these are the bytes
behind the blank line that its head speaks of.  The two parsers differ in nearly everything;
`sameParams_iff` says for which strings they agree.
-/

namespace MySrc

open Lib NotifyAdapter

/-! ## the target -/

/-- The parameters of a target. -/
def targetParams (target : Str) : StrMap :=
  match breakOn (ascii ['?']) target with
  | none => .empty
  | some (_, params) => lastParam (split 38 params)

/-- The request of a packet. -/
def requestTarget (w : Str) : Option Str := (breakOn lineBreak w).bind fun p => requestOf p.1

section

variable {utf8ToGbk : Str → Str} {packet packet' : HttpRequestPacket} {target w : Str}

/-- The parameters that `ParseParam` finds in a target. -/
theorem parseParam_mapParam (h : parseParam utf8ToGbk packet target = .ok packet') :
    packet'.mapParam = targetParams target := by
  have hcomplete := (parseParam_ok_iff utf8ToGbk packet target).mp ⟨packet', h⟩
  rw [parseParam] at h
  rw [targetParams]
  cases hb : breakOn (ascii ['?']) target with
  | none =>
      rw [hb] at h
      cases h
      rfl
  | some p =>
      obtain ⟨path, params⟩ := p
      rw [hb] at h
      obtain ⟨cmdpath, -, h⟩ := bind_eq_ok.mp h
      rw [parsePairs_eq fun item hitem => (hcomplete path params hb).2 item hitem, ok_bind] at h
      cases h
      funext key
      exact Option.or_none

/-- The target stands in the first line. -/
theorem requestTarget_eq_some (h : requestTarget w = some target) :
    ∃ line rest, breakOn lineBreak w = some (line, rest) ∧ requestOf line = some target := by
  obtain ⟨⟨line, rest⟩, hline, htarget⟩ := Option.bind_eq_some_iff.mp h
  exact ⟨line, rest, hline, htarget⟩

/-- A head that is read has a target, and gives its parameters and headers. -/
theorem decodeHead_eq_some (h : decodeHead utf8ToGbk .init w = .ok (some packet)) :
    ∃ target, requestTarget w = some target ∧ TargetComplete target ∧
      (∀ l ∈ lines w, Named l) ∧ packet.mapParam = targetParams target ∧
      packet.mapHead = lastHeader (lines w) := by
  cases hline : breakOn lineBreak w with
  | none => simp [decodeHead, hline] at h
  | some p =>
      obtain ⟨line, rest⟩ := p
      cases htarget : requestOf line with
      | none => simp [decodeHead, hline, htarget] at h
      | some target =>
          obtain ⟨hcomplete, hnamed⟩ := (decodeHead_ok_iff utf8ToGbk hline htarget .init).mp ⟨_, h⟩
          obtain ⟨_, ⟨⟩, hhead, -⟩ := decodeHead_eq_ok utf8ToGbk hline htarget h
          refine ⟨target, by simp [requestTarget, hline, htarget], hcomplete, hnamed, ?_, hhead⟩
          simp only [decodeHead, hline, htarget] at h
          obtain ⟨p, hparam, h⟩ := bind_eq_ok.mp h
          obtain ⟨mapHead, -, h⟩ := bind_eq_ok.mp h
          cases h
          have hmap := parseParam_mapParam hparam
          exact hmap

/-- A head with a target that is read, and with names in its lines, is read. -/
theorem decodeHead_of_reads (htarget : requestTarget w = some target)
    (hcomplete : TargetComplete target) (hnamed : ∀ l ∈ lines w, Named l) :
    ∃ packet, decodeHead utf8ToGbk .init w = .ok (some packet) := by
  obtain ⟨line, rest, hline, hrequest⟩ := requestTarget_eq_some htarget
  obtain ⟨p, hp⟩ := (decodeHead_ok_iff utf8ToGbk hline hrequest .init).mpr ⟨hcomplete, hnamed⟩
  obtain ⟨packet, rfl, -⟩ := decodeHead_eq_ok utf8ToGbk hline hrequest hp
  exact ⟨packet, hp⟩

end

/-! ## the body -/

/-- The number that a `Content-Length` says. -/
def textNumber (value : Str) : Nat := digitsValue ((boostTrim value).takeWhile isdigit)

/-- The body of a packet behind its first blank line, and the length that its head says. -/
def BodyOf (w body : Str) (n : Nat) : Prop :=
  ∃ front value, breakOn (lineBreak ++ lineBreak) w = some (front, body) ∧
    lastHeader (lines (front ++ lineBreak ++ lineBreak)) contentLength = some value ∧
    textNumber value = n

/-- The bytes that `decode_post` takes for the body. -/
def postSlice (w value : Str) : Str :=
  w.drop (w.length - (i32 (atouint32 (boostTrim value))).toNat)

/-- When `decode_post` returns 0, the body has as many bytes as the head says, and the
parameters of exactly these are added to those of the target. -/
def TakesBody (utf8ToGbk : Str → Str) (w : Str) : Prop :=
  ∀ packet, decodePost utf8ToGbk .init w = .ok (0, packet) →
    ∃ target body n, requestTarget w = some target ∧ BodyOf w body n ∧ n ≤ body.length ∧
      packet.mapParam = string2map (body.take n) (targetParams target)

/-- What `decode_post` gets as far as its return takes: the strings are read inside their
bounds, some line is a `Content-Length`, and its `int` is not larger than the packet. -/
structure PostReads (w target value : Str) : Prop where
  request : requestTarget w = some target
  complete : TargetComplete target
  named : ∀ l ∈ lines w, Named l
  header : lastHeader (lines w) contentLength = some value
  size : sizeLt w.length (i32 (atouint32 (boostTrim value))) = false

/-- As many bytes stand behind the blank line as the head says, which is an `int`, or the
head says none; and the last `Content-Length` among their lines says nothing else. -/
structure WholeBody (w body : Str) (n : Nat) : Prop where
  isBody : BodyOf w body n
  length : n = 0 ∨ body.length = n
  bound : n < 2 ^ 31
  said : ∀ value, lastHeader (lines body) contentLength = some value →
    textNumber value % 2 ^ 32 = n

/-- The packet is not read to its end, or nothing but its body is behind the blank line. -/
def PostExact (w : Str) : Prop :=
  ∀ target value, PostReads w target value → ∃ body n, WholeBody w body n

/-- A place in the packet whose byte `decode_post` takes for the body. -/
def TakenAt (w value : Str) (i : Nat) : Prop :=
  w.length - (i32 (atouint32 (boostTrim value))).toNat ≤ i ∧ i < w.length

/-- A place of one of the first bytes behind the blank line. -/
def BodyAt (w body : Str) (n i : Nat) : Prop :=
  w.length - body.length ≤ i ∧ i < w.length - body.length + n

section

variable {utf8ToGbk : Str → Str} {w front body target value : Str} {n : Nat}

/-- What `decode_post` returns 0 with. -/
theorem decodePost_eq_zero_iff {packet : HttpRequestPacket} :
    decodePost utf8ToGbk .init w = .ok (0, packet) ↔
      ∃ head target value, decodeHead utf8ToGbk .init w = .ok (some head) ∧
        PostReads w target value ∧
        packet = { head with
          mapParam := string2map (postSlice w value) (targetParams target) } := by
  rw [decodePost]
  constructor
  · intro h
    obtain ⟨p, hhead, h⟩ := bind_eq_ok.mp h
    cases p with
    | none => simp at h
    | some head =>
        obtain ⟨target, hrequest, hcomplete, hnamed, hparam, hmap⟩ := decodeHead_eq_some hhead
        simp only [hmap] at h
        cases hvalue : lastHeader (lines w) contentLength with
        | none => simp [hvalue] at h
        | some value =>
            simp only [hvalue] at h
            split at h
            · simp at h
            · next hsize =>
                refine ⟨head, target, value, hhead, ⟨hrequest, hcomplete, hnamed, hvalue,
                  by simpa using hsize⟩, ?_⟩
                cases h
                rw [hparam, hmap, postSlice]
  · rintro ⟨head, target, value, hhead, hreads, rfl⟩
    obtain ⟨target', hrequest, -, -, hparam, hmap⟩ := decodeHead_eq_some hhead
    obtain rfl : target' = target := Option.some.inj (hrequest.symm.trans hreads.request)
    simp [hhead, hmap, hreads.header, hreads.size, hparam, postSlice]

/-- Two strings give a map the same parameters when their first items for every new key
are the same. -/
theorem string2map_eq_iff (a b : Str) (m : StrMap) :
    string2map a m = string2map b m ↔
      ∀ key, m key = none → (itemsNamed key a).head? = (itemsNamed key b).head? := by
  rw [funext_iff]
  refine forall_congr' fun key => ?_
  rw [string2map_apply, string2map_apply]
  cases m key <;> simp

/-- The length of a packet is taken from the last line of the body that has one, or from
the head. -/
theorem lastHeader_of_split (h : breakOn (lineBreak ++ lineBreak) w = some (front, body))
    (name : Str) :
    lastHeader (lines w) name = (lastHeader (lines body) name).or
      (lastHeader (lines (front ++ lineBreak ++ lineBreak)) name) := by
  rw [lines_of_split h, lastHeader_append]

/-- The `int` of a length. -/
theorem i32_atouint32 (value : Str) :
    i32 (atouint32 (boostTrim value)) = i32 (textNumber value % 2 ^ 32 : Nat) := by
  rw [atouint32_eq, textNumber]

/-- The number that the packet is cut by is that of the head. -/
theorem WholeBody.number (h : WholeBody w body n) (hreads : PostReads w target value) :
    textNumber value % 2 ^ 32 = n := by
  obtain ⟨front, head, hsplit, hhead, hnumber⟩ := h.isBody
  have hheader := hreads.header
  rw [lastHeader_of_split hsplit, hhead] at hheader
  have hbound := h.bound
  cases hbody : lastHeader (lines body) contentLength with
  | none =>
      rw [hbody, Option.none_or] at hheader
      cases hheader
      omega
  | some value' =>
      rw [hbody, Option.some_or] at hheader
      cases hheader
      exact h.said _ hbody

/-- The `int` that the packet is cut by is the number of the head. -/
theorem WholeBody.int_eq (h : WholeBody w body n) (hreads : PostReads w target value) :
    i32 (atouint32 (boostTrim value)) = n := by
  have hbound := h.bound
  rw [i32_atouint32, h.number hreads]
  exact i32_eq_self ⟨by omega, by omega⟩

/-- The body has as many bytes as the head says. -/
theorem WholeBody.length_le (h : WholeBody w body n) : n ≤ body.length := by
  obtain hlength | hlength := h.length
  all_goals omega

/-- The bytes that are taken are those of the body. -/
theorem WholeBody.postSlice_eq (h : WholeBody w body n) (hreads : PostReads w target value) :
    postSlice w value = body.take n := by
  obtain ⟨front, head, hsplit, -, -⟩ := h.isBody
  have hw := breakOn_eq hsplit
  rw [postSlice, h.int_eq hreads, Int.toNat_natCast]
  obtain rfl | hlength := h.length
  · rw [Nat.sub_zero, List.drop_length, List.take_zero]
  · rw [← hlength, List.take_length, hw, List.length_append, Nat.add_sub_cancel, List.drop_left]

/-- **POST bodies**: where nothing but a body of the length that the head says is behind the
blank line, `decode_post` takes exactly that, or gives up. -/
theorem takesBody_of_exact (utf8ToGbk : Str → Str) {w : Str} (h : PostExact w) :
    TakesBody utf8ToGbk w := by
  intro packet hpost
  obtain ⟨head, target, value, -, hreads, rfl⟩ := decodePost_eq_zero_iff.mp hpost
  obtain ⟨body, n, hwhole⟩ := h target value hreads
  refine ⟨target, body, n, hreads.request, hwhole.isBody, hwhole.length_le, ?_⟩
  rw [hwhole.postSlice_eq hreads]

/-- A body of as many bytes as the head says. -/
def wholePost : Str :=
  postPacket (ascii ['a', '=', '1', '&', 'b', '=', '2', '&', 'c', '=', '3', '4', '5'])

/-- The three parameters of a body of thirteen bytes. -/
theorem takesBody_three :
    PostExact wholePost ∧ TakesBody id wholePost ∧
      (decodePost id .init wholePost).toOption.map
          (fun r => (r.1, r.2.mapParam [97], r.2.mapParam [98], r.2.mapParam [99])) =
        some (0, some [49], some [50], some [51, 52, 53]) := by
  have hexact : PostExact wholePost := by
    refine fun _ _ _ => ⟨_, 13, ⟨postFront, ascii ['1', '3'], (postRequest_packet _).split, ?_, ?_⟩,
      .inr rfl, by decide, ?_⟩
    · decide
    · decide
    · rw [lines_of_notMem (by decide)]
      exact fun _ h => nomatch h
  exact ⟨hexact, takesBody_of_exact id hexact, by decide +kernel⟩

/-- A packet that is read to its end has no negative `int` for its length. -/
theorem PostReads.int_eq (h : PostReads w target value) (hw : w.length < 2 ^ 63) :
    textNumber value % 2 ^ 32 < 2 ^ 31 ∧
      (i32 (atouint32 (boostTrim value))).toNat = textNumber value % 2 ^ 32 := by
  have hsize := h.size
  rw [i32_atouint32, sizeLt, decide_eq_false_iff_not] at hsize
  rw [i32_atouint32]
  rcases Nat.lt_or_ge (textNumber value % 2 ^ 32) (2 ^ 31) with hlt | hge
  · rw [i32_eq_self ⟨by omega, by omega⟩]
    exact ⟨hlt, Int.toNat_natCast _⟩
  · rw [i32_of_overflow (by omega) (by omega)] at hsize
    omega

/-- The condition leaves nothing out: it holds exactly when the bytes that are taken are, by
their places in the packet, those that the head says. -/
theorem wholeBody_iff (hreads : PostReads w target value) (hbody : BodyOf w body n)
    (hn : n ≤ body.length) (hw : w.length < 2 ^ 63) :
    WholeBody w body n ↔ ∀ i, TakenAt w value i ↔ BodyAt w body n i := by
  obtain ⟨front, head, hsplit, hhead, hnumber⟩ := id hbody
  have hlength : body.length < w.length := length_lt_of_breakOn (by decide) hsplit
  simp only [TakenAt, BodyAt]
  constructor
  · intro h i
    rw [h.int_eq hreads, Int.toNat_natCast]
    obtain hlength' | hlength' := h.length
    all_goals omega
  · intro hsame
    have hheader := hreads.header
    rw [lastHeader_of_split hsplit, hhead] at hheader
    obtain ⟨hbound, hint⟩ := hreads.int_eq hw
    rw [hint] at hsame
    -- the last byte of the packet and the first byte of each part
    have hlast := hsame (w.length - 1)
    have htaken := hsame (w.length - textNumber value % 2 ^ 32)
    have hfirst := hsame (w.length - body.length)
    have hend := hsame (w.length - body.length + n - 1)
    have hbefore := hsame (w.length - body.length - 1)
    have hsaid : textNumber value % 2 ^ 32 = n := by omega
    refine ⟨hbody, by omega, by omega, fun value' hvalue' => ?_⟩
    rw [hvalue', Option.some_or] at hheader
    cases hheader
    exact hsaid

/-- What follows when the body is taken as it should: at least so many bytes are there, and
the first items among them are those among the bytes taken. -/
theorem TakesBody.items (h : TakesBody utf8ToGbk w) (hreads : PostReads w target value) :
    ∃ body n, BodyOf w body n ∧ n ≤ body.length ∧
      ∀ key, targetParams target key = none →
        (itemsNamed key (postSlice w value)).head? = (itemsNamed key (body.take n)).head? := by
  obtain ⟨head, hhead⟩ : ∃ head, decodeHead utf8ToGbk .init w = .ok (some head) :=
    decodeHead_of_reads hreads.request hreads.complete hreads.named
  have hpost := decodePost_eq_zero_iff.mpr ⟨head, target, value, hhead, hreads, rfl⟩
  obtain ⟨target', body, n, hrequest, hbody, hn, hmap⟩ := h _ hpost
  obtain rfl : target' = target := Option.some.inj (hrequest.symm.trans hreads.request)
  exact ⟨body, n, hbody, hn, (string2map_eq_iff _ _ _).mp hmap⟩

/-- A packet whose body has no lines is read to its end when its head is. -/
theorem postReads_of_head (hpost : PostRequest front line target w body) (htarget : 63 ∉ target)
    (hnamed : ∀ l ∈ lines (front ++ lineBreak ++ lineBreak), Named l)
    (hheader : lastHeader (lines (front ++ lineBreak ++ lineBreak)) contentLength = some value)
    (hbound : textNumber value < 2 ^ 31) (hlength : textNumber value ≤ body.length)
    (hbody : 13 ∉ body) : PostReads w target value where
  request := by
    obtain ⟨p, hp, hline⟩ := Option.map_eq_some_iff.mp hpost.first
    rw [requestTarget, hp, Option.bind_some, hline, hpost.request]
  complete := by
    have hnone : breakOn (ascii ['?']) target = none := breakOn_of_notMem htarget
    simp [TargetComplete, hnone]
  named := by
    rw [lines_of_split hpost.split, lines_of_notMem hbody, List.append_nil]
    exact hnamed
  header := by
    rw [lastHeader_of_split hpost.split, lines_of_notMem hbody, hheader]
    rfl
  size := by
    have hw := length_lt_of_breakOn (by decide) hpost.split
    rw [i32_atouint32, i32_eq_self ⟨by omega, by omega⟩, sizeLt, decide_eq_false_iff_not]
    omega

/-- An item without a name, and a text that is none. -/
theorem items_noName (n : Nat) :
    itemsNamed [] (List.replicate n 97) = [] ∧
      itemsNamed [] (61 :: List.replicate n 97) = [boostTrim (List.replicate n 97)] := by
  have hamp : 38 ∉ (61 :: List.replicate n 97 : Str) := by simp [List.mem_replicate]
  have hamp' : 38 ∉ (List.replicate n 97 : Str) := by simp [List.mem_replicate]
  have heq : split 61 (List.replicate n 97) = [List.replicate n 97] :=
    split_of_notMem (by simp [List.mem_replicate])
  have hpair : split 61 (61 :: List.replicate n 97) = [[], List.replicate n 97] := by
    rw [← List.nil_append (61 :: _), split_append, heq]
    rfl
  have htrim : boostTrim [] = [] := rfl
  rw [itemsNamed, itemsNamed, split_of_notMem hamp, split_of_notMem hamp']
  simp [heq, hpair, htrim]

/-- The condition cannot do without the length: behind the same head, a body that is longer
than it says can have an item that is not taken. -/
theorem exists_not_takesBody {line : Str} {length : Nat}
    (hpost : ∀ body, PostRequest front line target (front ++ lineBreak ++ lineBreak ++ body) body)
    (htarget : 63 ∉ target) (hnamed : ∀ l ∈ lines (front ++ lineBreak ++ lineBreak), Named l)
    (hheader : lastHeader (lines (front ++ lineBreak ++ lineBreak)) contentLength = some value)
    (hpos : 1 ≤ textNumber value) (hbound : textNumber value < 2 ^ 31)
    (hlong : textNumber value < length) :
    ∃ body : Str, body.length = length ∧
      ¬ TakesBody utf8ToGbk (front ++ lineBreak ++ lineBreak ++ body) := by
  obtain ⟨m, hm⟩ : ∃ m, textNumber value = m + 1 := ⟨textNumber value - 1, by omega⟩
  obtain ⟨k, rfl⟩ : ∃ k, length = k + (m + 1) + 1 := ⟨length - m - 2, by omega⟩
  -- the first bytes have an item, the last ones have none
  refine ⟨61 :: List.replicate (k + (m + 1)) 97, by simp, fun htakes => ?_⟩
  have hlength : textNumber value ≤ (61 :: List.replicate (k + (m + 1)) 97 : Str).length := by
    rw [List.length_cons, List.length_replicate]
    omega
  have hreads := postReads_of_head (hpost _) htarget hnamed hheader hbound hlength
    (by simp [List.mem_replicate])
  obtain ⟨body', n, ⟨front', value', hsplit, hvalue, hnumber⟩, -, hitems⟩ := htakes.items hreads
  obtain ⟨rfl, rfl⟩ := Prod.mk.inj (Option.some.inj ((hpost _).split.symm.trans hsplit))
  obtain rfl := Option.some.inj (hheader.symm.trans hvalue)
  have hslice : postSlice (front ++ lineBreak ++ lineBreak ++
      61 :: List.replicate (k + (m + 1)) 97) value = List.replicate (m + 1) 97 := by
    rw [postSlice, i32_atouint32, i32_eq_self ⟨by omega, by omega⟩, Nat.mod_eq_of_lt (by omega),
      Int.toNat_natCast, hm, List.replicate_add, ← List.cons_append, ← List.append_assoc,
      List.length_append, List.length_replicate, Nat.add_sub_cancel, List.drop_left]
  have htaken : (61 :: List.replicate (k + (m + 1)) 97 : Str).take n =
      61 :: List.replicate m 97 := by
    rw [← hnumber, hm, List.take_succ_cons, List.take_replicate, Nat.min_eq_left (by omega)]
  have hnew : targetParams target [] = none := by
    have hnone : breakOn (ascii ['?']) target = none := breakOn_of_notMem htarget
    simp only [targetParams, hnone]
    rfl
  have hitem := hitems [] hnew
  rw [hslice, htaken, (items_noName _).1, (items_noName _).2] at hitem
  cases hitem

/-- A body of three bytes where the head says thirteen: part of the head is taken too. -/
theorem decodePost_takes_head : ¬ TakesBody id (postPacket (ascii ['a', '=', '1'])) := by
  intro htakes
  have hret : (decodePost id .init (postPacket (ascii ['a', '=', '1']))).toOption.map Prod.fst =
      some 0 := by
    decide +kernel
  cases hpost : decodePost id .init (postPacket (ascii ['a', '=', '1'])) with
  | error e => simp [hpost, Except.toOption] at hret
  | ok r =>
      obtain ⟨ret, packet⟩ := r
      obtain rfl : ret = 0 := by simpa [hpost, Except.toOption] using hret
      obtain ⟨target, body, n, -, ⟨front, value, hsplit, hvalue, rfl⟩, hn, -⟩ := htakes packet hpost
      rw [(postRequest_packet (ascii ['a', '=', '1'])).split] at hsplit
      cases hsplit
      have hhead : lastHeader (lines (postFront ++ lineBreak ++ lineBreak)) contentLength =
          some (ascii ['1', '3']) := by
        decide
      rw [hhead] at hvalue
      cases hvalue
      revert hn
      decide

end

/-! ## GET and POST -/

/-- A GET of a path and a query, and a POST of the query to the path. -/
structure SameQuery (p q : Str) (get post : HttpRequest) : Prop where
  path : 63 ∉ p ∧ 32 ∉ p
  getMethod : get.method = .get
  getTarget : get.target = ascii ['/'] ++ p ++ ascii ['?'] ++ q
  getFramed : get.Framed
  postMethod : post.method = .post
  postTarget : post.target = ascii ['/'] ++ p
  postBody : post.body = q
  postFramed : post.Framed
  length : ∃ value, lastHeader post.headerLines contentLength = some value ∧
    textNumber value = q.length
  bound : q.length < 2 ^ 31

/-- Both are decoded, to the same parameters. -/
def SameParams (utf8ToGbk : Str → Str) (get post : HttpRequest) : Prop :=
  ∃ packet packet', decode utf8ToGbk .init get.render = .ok (0, packet) ∧
    decode utf8ToGbk .init post.render = .ok (0, packet') ∧ packet.mapParam = packet'.mapParam

section

variable {utf8ToGbk : Str → Str} {w target value : Str} {m : StrMap}

/-- The parameters that `decode_get` finds. -/
theorem decodeGet_params (hrequest : requestTarget w = some target)
    (hnamed : ∀ l ∈ lines w, Named l)
    (hcookie : CookieComplete ((lastHeader (lines w) cookieName).getD [])) :
    (∃ packet, decodeGet utf8ToGbk .init w = .ok (0, packet) ∧ packet.mapParam = m) ↔
      TargetComplete target ∧ targetParams target = m := by
  constructor
  · rintro ⟨packet, h, rfl⟩
    rw [decodeGet] at h
    obtain ⟨p, hhead, h⟩ := bind_eq_ok.mp h
    cases p with
    | none => simp at h
    | some head =>
        obtain ⟨target', hrequest', hcomplete, -, hparam, -⟩ := decodeHead_eq_some hhead
        obtain rfl : target' = target := Option.some.inj (hrequest'.symm.trans hrequest)
        obtain ⟨mapCookie, -, h⟩ := bind_eq_ok.mp h
        cases h
        exact ⟨hcomplete, hparam.symm⟩
  · rintro ⟨hcomplete, rfl⟩
    obtain ⟨head, hhead⟩ : ∃ head, decodeHead utf8ToGbk .init w = .ok (some head) :=
      decodeHead_of_reads hrequest hcomplete hnamed
    obtain ⟨target', hrequest', -, -, hparam, hmap⟩ := decodeHead_eq_some hhead
    obtain rfl : target' = target := Option.some.inj (hrequest'.symm.trans hrequest)
    obtain ⟨cookies, hcookies⟩ := (parseCookie_ok_iff head.mapCookie _).mpr hcookie
    rw [← getLine_cookie hmap] at hcookies
    exact ⟨{ head with mapCookie := cookies }, by simp [decodeGet, hhead, hcookies], hparam⟩

/-- The parameters that `decode_post` finds. -/
theorem decodePost_params (hrequest : requestTarget w = some target)
    (hnamed : ∀ l ∈ lines w, Named l)
    (hheader : lastHeader (lines w) contentLength = some value)
    (hsize : sizeLt w.length (i32 (atouint32 (boostTrim value))) = false) :
    (∃ packet, decodePost utf8ToGbk .init w = .ok (0, packet) ∧ packet.mapParam = m) ↔
      TargetComplete target ∧ string2map (postSlice w value) (targetParams target) = m := by
  constructor
  · rintro ⟨packet, h, rfl⟩
    obtain ⟨head, target', value', -, hreads, rfl⟩ := decodePost_eq_zero_iff.mp h
    obtain rfl : target' = target := Option.some.inj (hreads.request.symm.trans hrequest)
    obtain rfl : value' = value := Option.some.inj (hreads.header.symm.trans hheader)
    exact ⟨hreads.complete, rfl⟩
  · rintro ⟨hcomplete, rfl⟩
    obtain ⟨head, hhead⟩ : ∃ head, decodeHead utf8ToGbk .init w = .ok (some head) :=
      decodeHead_of_reads hrequest hcomplete hnamed
    have hreads : PostReads w target value := ⟨hrequest, hcomplete, hnamed, hheader, hsize⟩
    exact ⟨_, decodePost_eq_zero_iff.mpr ⟨head, target, value, hhead, hreads, rfl⟩, rfl⟩

end

namespace SameQuery

variable (utf8ToGbk : Str → Str) {p q : Str} {get post : HttpRequest} {m : StrMap}

theorem getRequest (h : SameQuery p q get post) :
    requestTarget get.render =
      some (ascii ['/'] ++ p ++ (ascii ['?'] ++ q.takeWhile (· ≠ 32))) := by
  obtain ⟨rest, hline⟩ := h.getFramed.breakOn_render
  have htarget : get.target = ascii ['/'] ++ (p ++ (ascii ['?'] ++ q)) := by
    rw [h.getTarget]
    simp only [List.append_assoc]
  have hblank : 32 ∉ ascii ['/'] ++ p ++ ascii ['?'] := by
    simp [ascii, h.path.2]
  simp only [requestTarget, hline, Option.bind_some, HttpRequest.requestOf_line htarget]
  rw [h.getTarget, takeWhile_ne_append hblank, List.append_assoc]

theorem postRequest (h : SameQuery p q get post) :
    requestTarget post.render = some (ascii ['/'] ++ p) := by
  obtain ⟨rest, hline⟩ := h.postFramed.breakOn_render
  have hblank : 32 ∉ ascii ['/'] ++ p := by
    simp [ascii, h.path.2]
  simp only [requestTarget, hline, Option.bind_some, HttpRequest.requestOf_line h.postTarget]
  rw [h.postTarget, takeWhile_ne_self hblank]

theorem question_notMem (h : SameQuery p q get post) : 63 ∉ ascii ['/'] ++ p := by
  simp [ascii, h.path.1]

/-- What becomes of the GET. -/
theorem decode_get (h : SameQuery p q get post) :
    (∃ packet, decode utf8ToGbk .init get.render = .ok (0, packet) ∧ packet.mapParam = m) ↔
      (escapesComplete (cStr (ascii ['/'] ++ p)) ∧ PairsComplete 38 (q.takeWhile (· ≠ 32))) ∧
        lastParam (split 38 (q.takeWhile (· ≠ 32))) = m := by
  obtain ⟨rest, hline⟩ := h.getFramed.breakOn_render
  have hget : (breakOn (ascii ['G', 'E', 'T']) get.line).isSome := by
    have hsome := breakOn_isSome (Method.text .get) []
      (ascii [' '] ++ get.target ++ ascii [' '] ++ get.version)
    simpa [HttpRequest.line, h.getMethod, Method.text] using hsome
  have hbreak : ∀ b, breakOn (ascii ['?']) (ascii ['/'] ++ p ++ (ascii ['?'] ++ b)) =
      some (ascii ['/'] ++ p, b) := fun b => breakOn_append_cons h.question_notMem b
  simp only [decode, hline, if_pos hget]
  rw [decodeGet_params h.getRequest h.getFramed.named h.getFramed.cookie]
  simp only [TargetComplete, targetParams, hbreak, Option.some.injEq, Prod.mk.injEq, and_imp]
  refine and_congr_left' ⟨fun hcomplete => hcomplete _ _ rfl rfl, ?_⟩
  rintro hcomplete _ _ rfl rfl
  exact hcomplete

/-- What becomes of the POST: with a `GET` in its request line it is decoded as one. -/
theorem decode_post (h : SameQuery p q get post) :
    (∃ packet, decode utf8ToGbk .init post.render = .ok (0, packet) ∧ packet.mapParam = m) ↔
      (if (breakOn (ascii ['G', 'E', 'T']) post.line).isSome then .empty
        else string2map q .empty) = m := by
  obtain ⟨rest, hline⟩ := h.postFramed.breakOn_render
  have hnone : breakOn (ascii ['?']) (ascii ['/'] ++ p) = none :=
    breakOn_of_notMem h.question_notMem
  have hcomplete : TargetComplete (ascii ['/'] ++ p) := by simp [TargetComplete, hnone]
  have hparams : targetParams (ascii ['/'] ++ p) = .empty := by simp only [targetParams, hnone]
  simp only [decode, hline]
  split
  · rw [decodeGet_params h.postRequest h.postFramed.named h.postFramed.cookie, hparams]
    exact and_iff_right hcomplete
  · have hpost : (breakOn (ascii ['P', 'O', 'S', 'T']) post.line).isSome := by
      have hsome := breakOn_isSome (Method.text .post) []
        (ascii [' '] ++ post.target ++ ascii [' '] ++ post.version)
      simpa [HttpRequest.line, h.postMethod, Method.text] using hsome
    obtain ⟨value, hvalue, hnumber⟩ := h.length
    have hbound := h.bound
    have hint : i32 (atouint32 (boostTrim value)) = q.length := by
      rw [atouint32_eq, ← textNumber, hnumber, Nat.mod_eq_of_lt (by omega)]
      exact i32_eq_self ⟨by omega, by omega⟩
    have hheader : lastHeader (lines post.render) contentLength = some value := by
      rw [h.postFramed.lastHeader_render, hvalue, Option.some_or]
    have hlength : ∃ front, post.render = front ++ q := ⟨_, by rw [HttpRequest.render, h.postBody]⟩
    obtain ⟨front, hfront⟩ := hlength
    have hsize : sizeLt post.render.length (i32 (atouint32 (boostTrim value))) = false := by
      simp only [sizeLt, hint, hfront, List.length_append, decide_eq_false_iff_not]
      omega
    have hslice : postSlice post.render value = q := by
      rw [postSlice, hint, Int.toNat_natCast, hfront, List.length_append, Nat.add_sub_cancel,
        List.drop_left]
    rw [if_pos hpost, decodePost_params h.postRequest h.postFramed.named hheader hsize, hslice,
      hparams]
    exact and_iff_right hcomplete

end SameQuery

/-- **GET and POST** deliver the same parameters exactly when the escapes of the path and
of the query are complete, and for every key the last value in the query, up to its first
blank and unescaped, is the first trimmed value among its items with one `=`.  A path
with a `GET` in it has the POST decoded as a GET, without any parameter. -/
theorem sameParams_iff (utf8ToGbk : Str → Str) {p q : Str} {get post : HttpRequest}
    (h : SameQuery p q get post) :
    SameParams utf8ToGbk get post ↔
      (escapesComplete (cStr (ascii ['/'] ++ p)) ∧ PairsComplete 38 (q.takeWhile (· ≠ 32))) ∧
        ∀ key, lastParam (split 38 (q.takeWhile (· ≠ 32))) key =
          if (breakOn (ascii ['G', 'E', 'T']) post.line).isSome then none
          else (itemsNamed key q).head? := by
  have hfirst : ∀ key, (if (breakOn (ascii ['G', 'E', 'T']) post.line).isSome then StrMap.empty
      else string2map q .empty) key =
      if (breakOn (ascii ['G', 'E', 'T']) post.line).isSome then none
      else (itemsNamed key q).head? := by
    intro key
    split
    · rfl
    · rw [string2map_apply]
      rfl
  simp only [← hfirst, ← funext_iff]
  constructor
  · rintro ⟨packet, packet', hget, hpost, hsame⟩
    obtain ⟨hcomplete, hlast⟩ := (h.decode_get utf8ToGbk).mp ⟨packet, hget, rfl⟩
    have hitems := (h.decode_post utf8ToGbk).mp ⟨packet', hpost, rfl⟩
    exact ⟨hcomplete, by rw [hlast, hitems, hsame]⟩
  · rintro ⟨hcomplete, hsame⟩
    obtain ⟨packet, hget, hlast⟩ := (h.decode_get utf8ToGbk).mpr ⟨hcomplete, rfl⟩
    obtain ⟨packet', hpost, hitems⟩ := (h.decode_post utf8ToGbk).mpr rfl
    exact ⟨packet, packet', hget, hpost, by rw [hlast, hitems, hsame]⟩

/-- A GET of `/?q` and a POST of `q` to `/`, with a length of one digit. -/
def getQuery (q : Str) : HttpRequest where
  method := .get
  target := ascii ['/'] ++ [] ++ ascii ['?'] ++ q
  version := ascii ['H', 'T', 'T', 'P']
  headers := []
  body := []

def postQuery (digit : UInt8) (q : Str) : HttpRequest where
  method := .post
  target := ascii ['/']
  version := ascii ['H', 'T', 'T', 'P']
  headers := [(contentLength, [digit])]
  body := q

/-- A GET and a POST of the same query to `/`. -/
theorem sameQuery_slash {digit : UInt8} {q : Str} (hdigit : digit ≠ 13) (hq : 13 ∉ q)
    (hnumber : textNumber [digit] = q.length) (hbound : q.length < 2 ^ 31) :
    SameQuery [] q (getQuery q) (postQuery digit q) := by
  have hlines : lines q = [] := lines_of_notMem hq
  have hcontent : upperCase (trimBlanks contentLength) = contentLength := by decide
  have hbreak : breakOn (ascii [':']) (contentLength ++ (ascii [':'] ++ [digit])) =
      some (contentLength, [digit]) :=
    breakOn_append_cons (by decide) [digit]
  refine ⟨by decide, rfl, rfl, ⟨?_, ?_, ?_, ?_, ?_⟩, rfl, rfl, rfl, ⟨?_, ?_, ?_, ?_, ?_⟩, ?_,
    hbound⟩
  · refine breakOn_of_notMem ?_
    simp [getQuery, HttpRequest.line, Method.text, ascii, hq]
  · simp [getQuery]
  · simp [getQuery]
  · simp [getQuery]
  · exact fun l hl => absurd hl List.not_mem_nil
  · refine breakOn_of_notMem ?_
    simp [postQuery, HttpRequest.line, Method.text, ascii]
  · simp only [postQuery, List.mem_singleton, forall_eq]
    decide
  · simpa [postQuery] using hdigit.symm
  · simp only [postQuery, List.mem_singleton, forall_eq, hcontent]
    exact fun heq => absurd heq (by decide)
  · intro l hl
    rw [postQuery, hlines] at hl
    exact absurd hl List.not_mem_nil
  · refine ⟨[digit], ?_, hnumber⟩
    simp [postQuery, HttpRequest.headerLines, lastHeader, valueIn, headerOf, hbreak, hcontent]

/-- Two plain pairs. -/
def plainQuery : Str := ascii ['a', '=', '1', '&', 'b', '=', '2']

/-- A query of two plain pairs. -/
theorem sameParams_twoPairs :
    SameQuery [] plainQuery (getQuery plainQuery) (postQuery 55 plainQuery) ∧
      SameParams id (getQuery plainQuery) (postQuery 55 plainQuery) := by
  have h : SameQuery [] plainQuery (getQuery plainQuery) (postQuery 55 plainQuery) :=
    sameQuery_slash (by decide) (by decide) (by decide) (by decide)
  refine ⟨h, (sameParams_iff id h).mpr ⟨⟨by decide, ?_⟩, fun key => ?_⟩⟩
  · exact (escaped_of_notMem (by decide)).pairsComplete (by decide) (by decide)
  · have hline : (breakOn (ascii ['G', 'E', 'T']) (postQuery 55 plainQuery).line).isSome =
        false := by
      decide
    have hquery : plainQuery.takeWhile (· ≠ 32) = plainQuery := by decide
    have hitems : split 38 plainQuery = [[97, 61, 49], [98, 61, 50]] := by decide
    have hpairs : split 61 [97, 61, 49] = [[97], [49]] ∧ split 61 [98, 61, 50] = [[98], [50]] := by
      decide
    have hbreaks : breakOn (ascii ['=']) [97, 61, 49] = some ([97], [49]) ∧
        breakOn (ascii ['=']) [98, 61, 50] = some ([98], [50]) := by
      decide
    have htrims : boostTrim [97] = [97] ∧ boostTrim [98] = [98] ∧ boostTrim [49] = [49] ∧
        boostTrim [50] = [50] := by
      decide
    have hvalues : cStr (unescaped (cStr [49])) = [49] ∧ cStr (unescaped (cStr [50])) = [50] := by
      decide
    rw [hline, hquery, itemsNamed, lastParam, hitems]
    simp only [List.reverse_cons, List.reverse_nil, List.nil_append, List.cons_append,
      List.findSome?_cons, List.findSome?_nil, paramOf, hbreaks, hvalues, List.filterMap_cons,
      List.filterMap_nil, hpairs, htrims]
    -- no two items have the same key
    by_cases ha : [97] = key
    · subst ha
      decide
    · by_cases hb : [98] = key <;> simp [ha, hb]

/-- The value of `a=%41` is unescaped in a target and left as it is in a body. -/
theorem sameParams_escape :
    SameQuery [] (ascii ['a', '=', '%', '4', '1']) (getQuery (ascii ['a', '=', '%', '4', '1']))
        (postQuery 53 (ascii ['a', '=', '%', '4', '1'])) ∧
      ¬ SameParams id (getQuery (ascii ['a', '=', '%', '4', '1']))
        (postQuery 53 (ascii ['a', '=', '%', '4', '1'])) := by
  have h : SameQuery [] (ascii ['a', '=', '%', '4', '1'])
      (getQuery (ascii ['a', '=', '%', '4', '1']))
      (postQuery 53 (ascii ['a', '=', '%', '4', '1'])) :=
    sameQuery_slash (by decide) (by decide) (by decide) (by decide)
  refine ⟨h, ?_⟩
  rintro ⟨packet, packet', hget, hpost, hsame⟩
  have hlast := congrFun ((h.decode_get id).mp ⟨packet, hget, hsame⟩).2 [97]
  have hfirst := congrFun ((h.decode_post id).mp ⟨packet', hpost, rfl⟩) [97]
  rw [← hfirst] at hlast
  revert hlast
  decide

end MySrc
