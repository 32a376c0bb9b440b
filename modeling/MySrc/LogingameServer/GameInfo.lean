import MySrc.LogingameServer.SessionInfo
import MySrc.Lib.OrdMap
import Mathlib.Data.List.Find

/-!
# MySrc.LogingameServer.GameInfo

The games of `logingame_server/src/main/gameinfo.cpp`: two maps that are filled from tables,
one with a URL for the special games, the other with an object of JSON and the parameters
behind it.

A text of a row is a C string (`CMysql::GetFieldBinary`), which ends at its first NUL.  The
key of a special game is its three texts without anything between them
(`get_gameinfo4special_iff`), and the object of a game is taken to end at the first brace
(`get_gameinfo_iff`).
-/

namespace MySrc
namespace LogingameServer
namespace GameInfo

open Lib

/-! ## the special games -/

/-- A game, a server and a sid. -/
structure Triple where
  gameid : Str
  serverid : Str
  sid : Str
  deriving Repr, DecidableEq

/-- A row of the table of the special games. -/
structure SpeRow where
  triple : Triple
  loginurl : Str
  deriving Repr, DecidableEq

/-- `m_gameinfo_4spe`, and `m_gameinfo` -/
abbrev GameMap := OrdMap Str Str

/-- `gameid + serverid + sid` -/
def Triple.join (triple : Triple) : Str := triple.gameid ++ triple.serverid ++ triple.sid

/-- The key of a row, by the texts that the fields have. -/
def SpeRow.key (row : SpeRow) : Str :=
  Triple.join ⟨cStr row.triple.gameid, cStr row.triple.serverid, cStr row.triple.sid⟩

/-- `get_gameinfo_from_db_4spe`; without an answer of the database the map stays. -/
def getGameinfoFromDb4spe (rows : Option (List SpeRow)) (m_gameinfo_4spe : GameMap) :
    GameMap × Int :=
  match rows with
  | none => (m_gameinfo_4spe, -1)
  | some rows =>
      (rows.foldl (fun m row => m.insertNew row.key (cStr row.loginurl)) .empty, 0)

/-- `get_gameinfo4special`: the result, and `loginurl`. -/
def getGameinfo4special (m_gameinfo_4spe : GameMap) (query : Triple) : Int × Str :=
  let loginurl := (m_gameinfo_4spe.find query.join).getD []
  if loginurl = [] then (-1, loginurl) else (0, loginurl)

/-- The row of a triple has this URL; none when there is no row. -/
def ownUrl (rows : List SpeRow) (query : Triple) : Str :=
  ((rows.find? fun row => row.triple = query).map SpeRow.loginurl).getD []

/-- The lookup answers with the row of the triple. -/
def SpecialFound (rows : List SpeRow) (m_gameinfo_4spe : GameMap) (query : Triple) : Prop :=
  let m := (getGameinfoFromDb4spe (some rows) m_gameinfo_4spe).1
  if ownUrl rows query = [] then (getGameinfo4special m query).1 = -1
  else getGameinfo4special m query = (0, ownUrl rows query)

/-- The first row whose texts make that of the triple. -/
def firstRow (rows : List SpeRow) (query : Triple) : Option SpeRow :=
  rows.find? fun row => row.key = query.join

/-- The first row whose texts make that of the triple has the URL of the triple's own row;
where no row has such texts, the triple has no URL. -/
structure FirstAgrees (rows : List SpeRow) (query : Triple) : Prop where
  first : ∀ row, firstRow rows query = some row → cStr row.loginurl = ownUrl rows query
  none : firstRow rows query = none → ownUrl rows query = []

/-- The lookup gives the URL of the first row. -/
theorem getGameinfo4special_eq (rows : List SpeRow) (m_gameinfo_4spe : GameMap) (query : Triple) :
    getGameinfo4special (getGameinfoFromDb4spe (some rows) m_gameinfo_4spe).1 query =
      let loginurl := ((firstRow rows query).map fun row => cStr row.loginurl).getD []
      (if loginurl = [] then -1 else 0, loginurl) := by
  have hfind : (getGameinfoFromDb4spe (some rows) m_gameinfo_4spe).1.find query.join =
      (firstRow rows query).map fun row => cStr row.loginurl := by
    rw [getGameinfoFromDb4spe, OrdMap.find_foldl_insertNew, OrdMap.find_empty, Option.none_or]
    rfl
  rw [getGameinfo4special, hfind]
  dsimp only
  split
  · rfl
  · rfl

/-- The first row agrees when it has the URL that the query should find. -/
theorem firstAgrees_iff (rows : List SpeRow) (query : Triple) :
    FirstAgrees rows query ↔
      ((firstRow rows query).map fun row => cStr row.loginurl).getD [] = ownUrl rows query := by
  cases hfirst : firstRow rows query with
  | none =>
      rw [Option.map_none, Option.getD_none, eq_comm]
      refine ⟨fun h => h.none hfirst, fun h => ⟨fun row hrow => ?_, fun _ => h⟩⟩
      simp [hfirst] at hrow
  | some row =>
      rw [Option.map_some, Option.getD_some]
      refine ⟨fun h => h.first row hfirst, fun h => ⟨fun row' hrow => ?_, fun hnone => ?_⟩⟩
      · rw [hfirst] at hrow
        rw [← Option.some.inj hrow, h]
      · simp [hfirst] at hnone

/-- Without NULs, and without another row whose texts make the same, a lookup is right. -/
theorem firstAgrees_of_unique {rows : List SpeRow} {query : Triple}
    (hkey : ∀ row ∈ rows, row.key = row.triple.join) (hurl : ∀ row ∈ rows, 0 ∉ row.loginurl)
    (hunique : ∀ row ∈ rows, row.triple.join = query.join → row.triple = query) :
    FirstAgrees rows query := by
  have hfirst : firstRow rows query = rows.find? fun row => row.triple = query := by
    refine List.find?_congr fun row hrow => ?_
    rw [hkey row hrow, decide_eq_decide]
    exact ⟨hunique row hrow, fun h => by rw [h]⟩
  rw [firstAgrees_iff, ownUrl, hfirst]
  cases hown : rows.find? fun row => row.triple = query with
  | none => rfl
  | some row => exact cStr_eq_self (hurl row (List.mem_of_find?_eq_some hown))

/-- **A special game** is found by its triple exactly when the first row whose texts make that
of the triple has the triple's own URL. -/
theorem get_gameinfo4special_iff (rows : List SpeRow) (m_gameinfo_4spe : GameMap)
    (query : Triple) : SpecialFound rows m_gameinfo_4spe query ↔ FirstAgrees rows query := by
  rw [SpecialFound, getGameinfo4special_eq, firstAgrees_iff]
  generalize ((firstRow rows query).map fun row => cStr row.loginurl).getD [] = loginurl
  dsimp only
  by_cases hown : ownUrl rows query = []
  · rw [if_pos hown, hown]
    by_cases hurl : loginurl = []
    · simp [hurl]
    · simp [hurl]
  · rw [if_neg hown]
    by_cases hurl : loginurl = []
    · simp [hurl, Ne.symm hown]
    · simp [hurl]

/-- Game `1`, server `23` and sid `4`, and a row for game `12`, server `3` and sid `4`. -/
def collidingRows : List SpeRow :=
  [⟨⟨ascii ['1'], ascii ['2', '3'], ascii ['4']⟩, ascii ['u']⟩,
    ⟨⟨ascii ['1', '2'], ascii ['3'], ascii ['4']⟩, ascii ['v']⟩]

/-- The two triples are different, and the second has the URL of the first. -/
theorem get_gameinfo4special_collides :
    (collidingRows.map SpeRow.triple).Nodup ∧
    getGameinfo4special (getGameinfoFromDb4spe (some collidingRows) .empty).1
      ⟨ascii ['1', '2'], ascii ['3'], ascii ['4']⟩ = (0, ascii ['u']) ∧
    ¬SpecialFound collidingRows .empty ⟨ascii ['1', '2'], ascii ['3'], ascii ['4']⟩ := by
  have hget : getGameinfo4special (getGameinfoFromDb4spe (some collidingRows) .empty).1
      ⟨ascii ['1', '2'], ascii ['3'], ascii ['4']⟩ = (0, ascii ['u']) := by
    decide
  refine ⟨by decide, hget, fun h => ?_⟩
  have hown : ownUrl collidingRows ⟨ascii ['1', '2'], ascii ['3'], ascii ['4']⟩ = ascii ['v'] := by
    decide
  rw [SpecialFound, hown, if_neg (by decide), hget] at h
  exact absurd (congrArg Prod.snd h) (by decide)

/-! ## the games -/

/-- A row of the table of games. -/
structure GameRow where
  gameid : Str
  serverid : Str
  sid : Str
  loginurl : Str
  params : Str
  deriving Repr, DecidableEq

def serveridName : Str := ascii ['s', 'e', 'r', 'v', 'e', 'r', 'i', 'd']
def sidName : Str := ascii ['s', 'i', 'd']
def loginurlName : Str := ascii ['l', 'o', 'g', 'i', 'n', 'u', 'r', 'l']

/-- What stands before each string of an object, and between them. -/
def serveridHead : Str := [123, 34] ++ serveridName ++ [34, 58, 34]
def sidHead : Str := [34, 44, 34] ++ sidName ++ [34, 58, 34]
def loginurlHead : Str := [34, 44, 34] ++ loginurlName ++ [34, 58, 34]

/-- The object of a game without its last brace. -/
def openObject (serverid sid loginurl : Str) : Str :=
  serveridHead ++ serverid ++ sidHead ++ sid ++ loginurlHead ++ loginurl ++ [34]

/-- The value of a row: an object, and the parameters behind it. -/
def GameRow.value (row : GameRow) : Str :=
  openObject (cStr row.serverid) (cStr row.sid) (cStr row.loginurl) ++ [125] ++ cStr row.params

/-- `get_gameinfo_from_db`; without an answer of the database the map stays. -/
def getGameinfoFromDb (rows : Option (List GameRow)) (m_gameinfo : GameMap) : GameMap × Int :=
  match rows with
  | none => (m_gameinfo, -1)
  | some rows =>
      (rows.foldl (fun m row => m.insertNew (cStr row.gameid) row.value) .empty, 0)

/-- What `get_gameinfo` assigns. -/
structure StuGameinfo where
  serverid : Str
  sid : Str
  loginurl : Str
  gameinfo : Str
  deriving Repr, DecidableEq, Inhabited

/-- `cJSON_GetObjectItem(root, string)->valuestring` -/
def valuestring (items : List Item) (string : Str) : Except Fault Str :=
  match getObjectItem items string with
  | some (_, some valuestring) => .ok (cStr valuestring)
  | _ => .error .nullDeref

/-- `value.find('}', 0)`, where `npos` has 64 bits. -/
def findBrace (value : Str) : Nat := if 125 ∈ value then value.idxOf 125 else 2 ^ 64 - 1

/-- What `get_gameinfo` makes of a value, with `loc` of 32 bits. -/
def parseGameinfo (value : Str) : Except Fault StuGameinfo :=
  let loc := findBrace value % 2 ^ 32
  let loc := if loc = 2 ^ 64 - 1 then (value.length - 1) % 2 ^ 32 else loc
  let phalf := value.take ((loc + 1) % 2 ^ 32)
  let bhalf := (value.drop ((loc + 1) % 2 ^ 32)).take (value.length - loc - 1)
  match parseObject (cStr phalf) with
  -- `root->child` of a root that is NULL
  | none => .error .nullDeref
  | some items => do
      let serverid ← valuestring items serveridName
      let sid ← valuestring items sidName
      let loginurl ← valuestring items loginurlName
      return ⟨serverid, sid, loginurl, bhalf⟩

/-- `get_gameinfo`: the result, and what its parameters are then. -/
def getGameinfo (m_gameinfo : GameMap) (gameid : Str) (out : StuGameinfo) :
    Except Fault (Int × StuGameinfo) :=
  let value := (m_gameinfo.find gameid).getD []
  if value = [] then .ok (-1, out)
  else do
    let out ← parseGameinfo value
    return (0, out)

/-! ## the object of a game -/

/-- A text without quotes, backslashes and control characters. -/
def Plain (text : Str) : Prop := ∀ c ∈ text, 31 < c ∧ c ≠ 34 ∧ c ≠ 92

instance (text : Str) : Decidable (Plain text) := List.decidableBAll _ text

theorem Plain.flatMap_escapeChar {text : Str} (h : Plain text) :
    text.flatMap escapeChar = text := by
  induction text with
  | nil => rfl
  | cons c text ih =>
      have hc : escapeChar c = [c] := by rw [escapeChar, if_pos (h c List.mem_cons_self)]
      rw [List.flatMap_cons, hc, ih fun d hd => h d (List.mem_cons_of_mem c hd)]
      rfl

theorem Plain.notMem {text : Str} (h : Plain text) : 0 ∉ text ∧ 34 ∉ text ∧ 92 ∉ text :=
  ⟨fun hmem => absurd (h 0 hmem).1 (by decide), fun hmem => (h 34 hmem).2.1 rfl,
    fun hmem => (h 92 hmem).2.2 rfl⟩

/-- A plain text is printed between quotes. -/
theorem Plain.printStringPtr {text : Str} (h : Plain text) :
    printStringPtr text = 34 :: (text ++ [34]) := by
  rw [LogingameServer.printStringPtr, cStr_eq_self h.notMem.1, h.flatMap_escapeChar]

section

variable {serverid sid loginurl : Str}

/-- The object of a row is the printed object of its three strings. -/
theorem openObject_eq (hserverid : Plain serverid) (hsid : Plain sid) (hloginurl : Plain loginurl) :
    openObject serverid sid loginurl ++ [125] =
      printObject [(serveridName, serverid), (sidName, sid), (loginurlName, loginurl)] := by
  have hname : Plain serveridName ∧ Plain sidName ∧ Plain loginurlName := by decide
  simp [openObject, serveridHead, sidHead, loginurlHead, printObject, printItem, printMore,
    hname.1.printStringPtr, hname.2.1.printStringPtr, hname.2.2.printStringPtr,
    hserverid.printStringPtr, hsid.printStringPtr, hloginurl.printStringPtr]

/-- The whole object is parsed. -/
theorem parseObject_openObject (hserverid : Plain serverid) (hsid : Plain sid)
    (hloginurl : Plain loginurl) :
    parseObject (cStr (openObject serverid sid loginurl ++ [125])) =
      some [(serveridName, some serverid), (sidName, some sid), (loginurlName, some loginurl)] := by
  have hnul : 0 ∉ openObject serverid sid loginurl ++ [125] := by
    have hhead : 0 ∉ serveridHead ∧ 0 ∉ sidHead ∧ 0 ∉ loginurlHead := by decide
    simp [openObject, hhead, hserverid.notMem, hsid.notMem, hloginurl.notMem]
  rw [cStr_eq_self hnul, openObject_eq hserverid hsid hloginurl, parsesStrings_parseObject]
  · rfl
  · have hname : 0 ∉ serveridName ∧ 0 ∉ sidName ∧ 0 ∉ loginurlName := by decide
    simp [hname, hserverid.notMem, hsid.notMem, hloginurl.notMem]

end

/-! ## the brace that ends it -/

section

variable {q rest : Str}

/-- The first closing brace is found. -/
theorem findBrace_eq (hbrace : 125 ∉ q) : findBrace (q ++ 125 :: rest) = q.length := by
  rw [findBrace, if_pos (List.mem_append_right q List.mem_cons_self), List.idxOf_append,
    if_neg hbrace, List.idxOf_cons_self, Nat.zero_add]

/-- A brace within 32 bits cuts the value. -/
theorem parseGameinfo_short (hbrace : 125 ∉ q) (hlt : q.length + 1 < 2 ^ 32) :
    parseGameinfo (q ++ 125 :: rest) =
      match parseObject (cStr (q ++ [125])) with
      | none => .error .nullDeref
      | some items => do
          let serverid ← valuestring items serveridName
          let sid ← valuestring items sidName
          let loginurl ← valuestring items loginurlName
          return ⟨serverid, sid, loginurl, rest⟩ := by
  have hloc : q.length % 2 ^ 32 = q.length := Nat.mod_eq_of_lt (Nat.lt_of_succ_lt hlt)
  have htake : (q ++ 125 :: rest).take (q.length + 1) = q ++ [125] :=
    List.take_length_add_append 1
  have hdrop : ((q ++ 125 :: rest).drop (q.length + 1)).take
      ((q ++ 125 :: rest).length - q.length - 1) = rest := by
    rw [List.drop_length_add_append 1, List.length_append, List.length_cons]
    simp
  rw [parseGameinfo, findBrace_eq hbrace]
  rw [hloc, if_neg (by omega), Nat.mod_eq_of_lt hlt, htake, hdrop]

/-- A brace behind that leaves a part without it. -/
theorem parseGameinfo_long (hbrace : 125 ∉ q) (h92 : 92 ∉ q) (hle : 2 ^ 32 ≤ q.length + 1) :
    parseGameinfo (q ++ 125 :: rest) = .error .nullDeref := by
  rw [parseGameinfo, findBrace_eq hbrace]
  have hloc : q.length % 2 ^ 32 ≠ 2 ^ 64 - 1 := by omega
  have hcut : (q.length % 2 ^ 32 + 1) % 2 ^ 32 ≤ q.length := by omega
  rw [if_neg hloc, List.take_append_of_le_length hcut]
  cases hparse : parseObject (cStr (q.take ((q.length % 2 ^ 32 + 1) % 2 ^ 32))) with
  | none => rfl
  | some items =>
      have hsub : cStr (q.take ((q.length % 2 ^ 32 + 1) % 2 ^ 32)) ⊆ q :=
        List.Subset.trans (List.takeWhile_prefix _).subset (List.take_subset _ q)
      obtain ⟨r, a, ha, -⟩ := readTo_parseObject (fun hmem => h92 (hsub hmem)) hparse
      refine absurd (hsub ?_) hbrace
      rw [ha]
      exact List.mem_append_right a List.mem_cons_self

/-- A text that ends in a string, which a brace does not end. -/
structure InString (q : Str) : Prop where
  brace : 125 ∉ q
  backslash : 92 ∉ q
  nul : 0 ∉ q
  odd : ¬2 ∣ q.count 34

/-- Behind more of the string it still goes on. -/
theorem InString.append (h : InString q) {text : Str} (htext : Plain text) (hbrace : 125 ∉ text) :
    InString (q ++ text) := by
  obtain ⟨h0, h34, h92⟩ := htext.notMem
  refine ⟨?_, ?_, ?_, ?_⟩
  · simp [h.brace, hbrace]
  · simp [h.backslash, h92]
  · simp [h.nul, h0]
  · rw [List.count_append, List.count_eq_zero.mpr h34]
    exact h.odd

/-- Behind the end of the string and the head of the next. -/
theorem InString.next (h : InString q) {head : Str}
    (hhead : 125 ∉ head ∧ 92 ∉ head ∧ 0 ∉ head ∧ 2 ∣ head.count 34) : InString (q ++ head) := by
  obtain ⟨hbrace, h92, h0, heven⟩ := hhead
  refine ⟨?_, ?_, ?_, ?_⟩
  · simp [h.brace, hbrace]
  · simp [h.backslash, h92]
  · simp [h.nul, h0]
  · rw [List.count_append, ← Nat.dvd_add_iff_left heven]
    exact h.odd

/-- An object that is cut in a string is not parsed. -/
theorem InString.parseObject_eq_none (h : InString q) :
    parseObject (cStr (q ++ [125])) = none := by
  have hnul : 0 ∉ q ++ [125] := by simp [h.nul]
  rw [cStr_eq_self hnul]
  cases hparse : parseObject (q ++ [125]) with
  | none => rfl
  | some items =>
      exfalso
      obtain ⟨r, a, ha, heven⟩ := readTo_parseObject (by simp [h.backslash]) hparse
      obtain rfl | ⟨r', c, rfl⟩ := r.eq_nil_or_concat
      · exact h.odd (List.append_inj_left' ha rfl ▸ heven)
      · rw [List.concat_eq_append, ← List.cons_append, ← List.append_assoc] at ha
        refine h.brace ?_
        rw [List.append_inj_left' ha rfl]
        exact List.mem_append_right a List.mem_cons_self

/-- A brace in a string takes the object for one that is cut there. -/
theorem parseGameinfo_of_mem (h : InString q) {text : Str} (htext : Plain text)
    (hmem : 125 ∈ text) : parseGameinfo (q ++ text ++ rest) = .error .nullDeref := by
  obtain ⟨s, t, rfl, hs⟩ := List.eq_append_cons_of_mem hmem
  have hplain : Plain s := fun c hc => htext c (List.mem_append_left _ hc)
  have hcut := h.append hplain hs
  have hvalue : q ++ (s ++ 125 :: t) ++ rest = (q ++ s) ++ 125 :: (t ++ rest) := by simp
  rw [hvalue]
  by_cases hlt : (q ++ s).length + 1 < 2 ^ 32
  · rw [parseGameinfo_short hcut.brace hlt, hcut.parseObject_eq_none]
  · exact parseGameinfo_long hcut.brace hcut.backslash (Nat.not_lt.mp hlt)

end

/-! ## a row and its value -/

/-- The texts that go into the object need no escapes. -/
structure GameRow.IsPlain (row : GameRow) : Prop where
  serverid : Plain row.serverid
  sid : Plain row.sid
  loginurl : Plain row.loginurl

/-- There is no brace in the object, and it is not too long for `loc`. -/
structure GameRow.Cuttable (row : GameRow) : Prop where
  serverid : 125 ∉ row.serverid
  sid : 125 ∉ row.sid
  loginurl : 125 ∉ row.loginurl
  length : (openObject row.serverid row.sid row.loginurl).length + 1 < 2 ^ 32

section

variable {row : GameRow}

/-- The value of a plain row is its object and its parameters. -/
theorem GameRow.IsPlain.value_eq (hplain : row.IsPlain) :
    row.value = openObject row.serverid row.sid row.loginurl ++ 125 :: cStr row.params := by
  rw [GameRow.value, cStr_eq_self hplain.serverid.notMem.1, cStr_eq_self hplain.sid.notMem.1,
    cStr_eq_self hplain.loginurl.notMem.1, List.append_assoc]
  rfl

/-- The strings of an object stand where they should. -/
theorem inString_serveridHead : InString serveridHead := by
  constructor <;> decide

/-- The text in front of the sid ends inside a string. -/
theorem inString_sidHead {serverid : Str} (hplain : Plain serverid) (hbrace : 125 ∉ serverid) :
    InString (serveridHead ++ serverid ++ sidHead) :=
  (inString_serveridHead.append hplain hbrace).next (by decide)

/-- The text in front of the URL ends inside a string. -/
theorem inString_loginurlHead {serverid sid : Str} (hserverid : Plain serverid)
    (hsid : Plain sid) (hbrace : 125 ∉ serverid) (hbrace' : 125 ∉ sid) :
    InString (serveridHead ++ serverid ++ sidHead ++ sid ++ loginurlHead) :=
  ((inString_sidHead hserverid hbrace).append hsid hbrace').next (by decide)

/-- Without a brace in its strings the object has one at its end only. -/
theorem GameRow.IsPlain.notMem (hplain : row.IsPlain) (hserverid : 125 ∉ row.serverid)
    (hsid : 125 ∉ row.sid) (hloginurl : 125 ∉ row.loginurl) :
    125 ∉ openObject row.serverid row.sid row.loginurl ∧
      92 ∉ openObject row.serverid row.sid row.loginurl := by
  have hstring := (inString_loginurlHead hplain.serverid hplain.sid hserverid hsid).append
    hplain.loginurl hloginurl
  rw [openObject]
  exact ⟨by simpa using hstring.brace, by simpa using hstring.backslash⟩

/-- The strings of the object are found. -/
theorem parseGameinfo_of_cuttable (hplain : row.IsPlain) (h : row.Cuttable) :
    parseGameinfo row.value =
      .ok ⟨row.serverid, row.sid, row.loginurl, cStr row.params⟩ := by
  have hserverid : valuestring [(serveridName, some row.serverid), (sidName, some row.sid),
      (loginurlName, some row.loginurl)] serveridName = .ok (cStr row.serverid) := rfl
  have hsid : valuestring [(serveridName, some row.serverid), (sidName, some row.sid),
      (loginurlName, some row.loginurl)] sidName = .ok (cStr row.sid) := rfl
  have hloginurl : valuestring [(serveridName, some row.serverid), (sidName, some row.sid),
      (loginurlName, some row.loginurl)] loginurlName = .ok (cStr row.loginurl) := rfl
  rw [hplain.value_eq, parseGameinfo_short (hplain.notMem h.serverid h.sid h.loginurl).1 h.length,
    parseObject_openObject hplain.serverid hplain.sid hplain.loginurl]
  dsimp only
  rw [hserverid, hsid, hloginurl, cStr_eq_self hplain.serverid.notMem.1,
    cStr_eq_self hplain.sid.notMem.1, cStr_eq_self hplain.loginurl.notMem.1]
  rfl

/-- Otherwise the parser fails, and its result is followed. -/
theorem parseGameinfo_of_not_cuttable (hplain : row.IsPlain) (h : ¬row.Cuttable) :
    parseGameinfo row.value = .error .nullDeref := by
  rw [hplain.value_eq]
  by_cases hserverid : 125 ∈ row.serverid
  · have hvalue : openObject row.serverid row.sid row.loginurl ++ 125 :: cStr row.params =
        serveridHead ++ row.serverid ++ (sidHead ++ row.sid ++ loginurlHead ++ row.loginurl ++
          [34] ++ 125 :: cStr row.params) := by
      simp only [openObject, List.append_assoc]
    rw [hvalue]
    exact parseGameinfo_of_mem inString_serveridHead hplain.serverid hserverid
  by_cases hsid : 125 ∈ row.sid
  · have hvalue : openObject row.serverid row.sid row.loginurl ++ 125 :: cStr row.params =
        serveridHead ++ row.serverid ++ sidHead ++ row.sid ++ (loginurlHead ++ row.loginurl ++
          [34] ++ 125 :: cStr row.params) := by
      simp only [openObject, List.append_assoc]
    rw [hvalue]
    exact parseGameinfo_of_mem (inString_sidHead hplain.serverid hserverid) hplain.sid hsid
  by_cases hloginurl : 125 ∈ row.loginurl
  · rw [openObject, List.append_assoc]
    exact parseGameinfo_of_mem
      (inString_loginurlHead hplain.serverid hplain.sid hserverid hsid) hplain.loginurl hloginurl
  -- no brace in the object, so it is too long
  obtain ⟨hbrace, h92⟩ := hplain.notMem hserverid hsid hloginurl
  exact parseGameinfo_long hbrace h92
    (Nat.not_lt.mp fun hlt => h ⟨hserverid, hsid, hloginurl, hlt⟩)

end

/-! ## the table of games -/

/-- The key and the parameters have no NUL, and the object can be cut. -/
structure GameRow.Storable (row : GameRow) : Prop where
  gameid : 0 ∉ row.gameid
  params : 0 ∉ row.params
  cuttable : row.Cuttable

/-- The lookup of a row's game gives the row. -/
def GameFound (rows : List GameRow) (m_gameinfo : GameMap) (row : GameRow) : Prop :=
  ∀ out, getGameinfo (getGameinfoFromDb (some rows) m_gameinfo).1 row.gameid out =
    .ok (0, ⟨row.serverid, row.sid, row.loginurl, row.params⟩)

theorem GameRow.value_ne_nil (row : GameRow) : row.value ≠ [] := by
  simp [GameRow.value]

/-- The lookup parses the value of the first row with the key. -/
theorem getGameinfo_eq (rows : List GameRow) (m_gameinfo : GameMap) (gameid : Str)
    (out : StuGameinfo) :
    getGameinfo (getGameinfoFromDb (some rows) m_gameinfo).1 gameid out =
      match rows.find? fun row => cStr row.gameid = gameid with
      | none => .ok (-1, out)
      | some row => do
          let out ← parseGameinfo row.value
          return (0, out) := by
  have hfind : (getGameinfoFromDb (some rows) m_gameinfo).1.find gameid =
      (rows.find? fun row => cStr row.gameid = gameid).map GameRow.value := by
    rw [getGameinfoFromDb, OrdMap.find_foldl_insertNew, OrdMap.find_empty, Option.none_or]
  rw [getGameinfo, hfind]
  cases rows.find? fun row => cStr row.gameid = gameid with
  | none => rfl
  | some row =>
      rw [Option.map_some, Option.getD_some]
      exact if_neg row.value_ne_nil

/-- A game is only found by a key without NULs. -/
theorem GameFound.notMem {rows : List GameRow} {m_gameinfo : GameMap} {row : GameRow}
    (h : GameFound rows m_gameinfo row) : 0 ∉ row.gameid := by
  have hget := h ⟨[], [], [], []⟩
  rw [getGameinfo_eq] at hget
  cases hfind : rows.find? fun r => cStr r.gameid = row.gameid with
  | none => simp [hfind] at hget
  | some r =>
      have hkey : cStr r.gameid = row.gameid := of_decide_eq_true (List.find?_some hfind :)
      rw [← hkey]
      exact nul_notMem_cStr r.gameid

/-- The row of a game is the only one with its key. -/
theorem find?_gameid {rows : List GameRow} (hdistinct : (rows.map GameRow.gameid).Nodup)
    (hnul : ∀ row ∈ rows, 0 ∉ row.gameid) {row : GameRow} (hrow : row ∈ rows) :
    rows.find? (fun r => cStr r.gameid = row.gameid) = some row := by
  cases hfind : rows.find? fun r => cStr r.gameid = row.gameid with
  | none =>
      have hne := List.find?_eq_none.mp hfind row hrow
      simp [cStr_eq_self (hnul row hrow)] at hne
  | some r =>
      have hmem := List.mem_of_find?_eq_some hfind
      have hkey : cStr r.gameid = row.gameid := of_decide_eq_true (List.find?_some hfind :)
      rw [cStr_eq_self (hnul r hmem)] at hkey
      rw [List.inj_on_of_nodup_map hdistinct hmem hrow hkey]

/-- A row comes back exactly when its object can be cut and its parameters have no NUL. -/
theorem parseGameinfo_value_iff {row : GameRow} (hplain : row.IsPlain) :
    parseGameinfo row.value = .ok ⟨row.serverid, row.sid, row.loginurl, row.params⟩ ↔
      row.Cuttable ∧ 0 ∉ row.params := by
  by_cases hcut : row.Cuttable
  · rw [parseGameinfo_of_cuttable hplain hcut, Except.ok.injEq, StuGameinfo.mk.injEq]
    simp only [hcut, true_and, cStr_eq_self_iff]
  · rw [parseGameinfo_of_not_cuttable hplain hcut]
    simp [hcut]

/-- A plain row is found exactly when its object can be cut and its parameters have no NUL. -/
theorem gameFound_iff {rows : List GameRow} (hdistinct : (rows.map GameRow.gameid).Nodup)
    (hnul : ∀ row ∈ rows, 0 ∉ row.gameid) (m_gameinfo : GameMap) {row : GameRow}
    (hrow : row ∈ rows) (hplain : row.IsPlain) :
    GameFound rows m_gameinfo row ↔ row.Cuttable ∧ 0 ∉ row.params := by
  rw [← parseGameinfo_value_iff hplain, GameFound]
  simp only [getGameinfo_eq, find?_gameid hdistinct hnul hrow]
  cases parseGameinfo row.value with
  | error e => simp [error_bind]
  | ok out => simp [ok_bind]

/-- **The games survive their storage** exactly when no brace is in the object of a row, which
is not too long, and no NUL in its key and its parameters. -/
theorem get_gameinfo_iff (rows : List GameRow) (m_gameinfo : GameMap)
    (hdistinct : (rows.map GameRow.gameid).Nodup) (hplain : ∀ row ∈ rows, row.IsPlain) :
    (∀ row ∈ rows, GameFound rows m_gameinfo row) ↔ ∀ row ∈ rows, row.Storable := by
  constructor
  · intro h row hrow
    have hnul : ∀ row ∈ rows, 0 ∉ row.gameid := fun r hr => (h r hr).notMem
    obtain ⟨hcut, hparams⟩ :=
      (gameFound_iff hdistinct hnul m_gameinfo hrow (hplain row hrow)).mp (h row hrow)
    exact ⟨hnul row hrow, hparams, hcut⟩
  · intro h row hrow
    have hnul : ∀ row ∈ rows, 0 ∉ row.gameid := fun r hr => (h r hr).gameid
    exact (gameFound_iff hdistinct hnul m_gameinfo hrow (hplain row hrow)).mpr
      ⟨(h row hrow).cuttable, (h row hrow).params⟩

/-- Two games with a URL, and one with a brace in it. -/
def plainGame : GameRow := ⟨ascii ['1'], ascii ['2'], ascii ['3'], ascii ['u'], ascii ['p']⟩
def otherGame : GameRow :=
  ⟨ascii ['2'], ascii ['4'], ascii ['5'], ascii ['v', '?'], 123 :: 34 :: ascii ['q'] ++ [34, 125]⟩
def braceGame : GameRow := ⟨ascii ['1'], ascii ['2'], ascii ['3'], [125], ascii ['p']⟩

/-- Two games come back from a table that has both, also with quotes and a brace in the
parameters. -/
theorem get_gameinfo_twoGames :
    GameFound [plainGame, otherGame] .empty plainGame ∧
      GameFound [plainGame, otherGame] .empty otherGame := by
  have hplain : ∀ row ∈ [plainGame, otherGame], row.IsPlain := fun row hrow => by
    obtain rfl | rfl := List.mem_pair.mp hrow
    all_goals constructor <;> decide
  have hstorable : ∀ row ∈ [plainGame, otherGame], row.Storable := fun row hrow => by
    obtain rfl | rfl := List.mem_pair.mp hrow
    all_goals exact ⟨by decide, by decide, by constructor <;> decide⟩
  have hfound := (get_gameinfo_iff [plainGame, otherGame] .empty (by decide) hplain).mpr hstorable
  exact ⟨hfound plainGame (by simp), hfound otherGame (by simp)⟩

/-- A brace in the URL: a NULL pointer is followed. -/
theorem get_gameinfo_brace :
    braceGame.IsPlain ∧
    getGameinfo (getGameinfoFromDb (some [braceGame]) .empty).1 braceGame.gameid ⟨[], [], [], []⟩ =
      .error .nullDeref ∧ ¬GameFound [braceGame] .empty braceGame := by
  have hplain : braceGame.IsPlain := by constructor <;> decide
  have hget : getGameinfo (getGameinfoFromDb (some [braceGame]) .empty).1 braceGame.gameid
      ⟨[], [], [], []⟩ = .error .nullDeref := by
    have hcut : ¬braceGame.Cuttable := fun h => h.loginurl List.mem_cons_self
    rw [getGameinfo_eq]
    have hfind : [braceGame].find? (fun row => cStr row.gameid = braceGame.gameid) =
        some braceGame := by
      decide
    rw [hfind]
    dsimp only
    rw [parseGameinfo_of_not_cuttable hplain hcut]
    rfl
  refine ⟨hplain, hget, fun h => ?_⟩
  have hfound := h ⟨[], [], [], []⟩
  rw [hget] at hfound
  cases hfound

end GameInfo
end LogingameServer
end MySrc
