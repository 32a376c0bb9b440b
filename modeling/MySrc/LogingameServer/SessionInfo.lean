import MySrc.LogingameServer.CJson
import MySrc.TemplateHttp.Split

/-!
# MySrc.LogingameServer.SessionInfo

The sessions in memcache, `set_session_info` and `get_session_info` of
`logingame_server/src/main/dispatcher.cpp`.  A session is stored as a JSON object.  Values of
an older version have their fields separated by semicolons, and a value with seven semicolons
or more is taken for one of those.

`cJSON_Parse` is a parameter, with what is assumed of it.  `session_roundtrip_iff` says when a
session comes back as it was stored.
-/

namespace MySrc
namespace LogingameServer

open Lib
open Function (update)

/-! ## sessions -/

/-- The fields of `STU_SESSION_INFO`. -/
inductive SessionField
  | username
  | password
  | clientip
  | gameinternalno
  | idcardno
  | gameid
  | useloginstate
  | heartbeaturl
  | comefrom
  | xlinternalno
  | startsource
  | comefrom2
  | comefrom3
  deriving Repr, DecidableEq

/-- `STU_SESSION_INFO` -/
abbrev StuSessionInfo := SessionField → Str

/-- A fresh structure. -/
def freshSession : StuSessionInfo := fun _ => []

/-- The name of a field in an object. -/
def SessionField.name : SessionField → Str
  | .username => ascii ['u', 's', 'e', 'r', 'n', 'a', 'm', 'e']
  | .password => ascii ['p', 'a', 's', 's', 'w', 'o', 'r', 'd']
  | .clientip => ascii ['c', 'l', 'i', 'e', 'n', 't', 'i', 'p']
  | .gameinternalno => ascii ['g', 'a', 'm', 'e', 'i', 'n', 't', 'e', 'r', 'n', 'a', 'l', 'n', 'o']
  | .idcardno => ascii ['i', 'd', 'c', 'a', 'r', 'd', 'n', 'o']
  | .gameid => ascii ['g', 'a', 'm', 'e', 'i', 'd']
  | .useloginstate => ascii ['u', 's', 'e', 'l', 'o', 'g', 'i', 'n', 's', 't', 'a', 't', 'e']
  | .heartbeaturl => ascii ['h', 'e', 'a', 'r', 't', 'b', 'e', 'a', 't', 'u', 'r', 'l']
  | .comefrom => ascii ['c', 'o', 'm', 'e', 'f', 'r', 'o', 'm']
  | .xlinternalno => ascii ['x', 'l', 'i', 'n', 't', 'e', 'r', 'n', 'a', 'l', 'n', 'o']
  | .startsource => ascii ['s', 't', 'a', 'r', 't', 's', 'o', 'u', 'r', 'c', 'e']
  | .comefrom2 => ascii ['c', 'o', 'm', 'e', 'f', 'r', 'o', 'm', '2']
  | .comefrom3 => ascii ['c', 'o', 'm', 'e', 'f', 'r', 'o', 'm', '3']

/-- The fields in the order in which `session_to_json` adds them, and `json_to_session` looks
for them. -/
def sessionFields : List SessionField :=
  [.username, .password, .clientip, .gameinternalno, .idcardno, .gameid, .useloginstate,
    .heartbeaturl, .comefrom, .xlinternalno, .startsource, .comefrom2, .comefrom3]

/-! ## JSON -/

/-- `tolower` in the C locale. -/
def tolower (c : UInt8) : UInt8 := if 65 ≤ c ∧ c ≤ 90 then c + 32 else c

/-- `cJSON_GetObjectItem`, which compares with `cJSON_strcasecmp`. -/
def getObjectItem (items : List Item) (string : Str) : Option Item :=
  items.find? fun item => item.1.map tolower = string.map tolower

/-- The items that `session_to_json` adds. -/
def sessionItems (psessioninfo : StuSessionInfo) : List (Str × Str) :=
  sessionFields.map fun field => (field.name, psessioninfo field)

/-- `session_to_json` -/
def sessionToJson (psessioninfo : StuSessionInfo) : Str := printObject (sessionItems psessioninfo)

/-- A string is assigned from a `valuestring`. -/
def assignItem (items : List Item) (psessioninfo : StuSessionInfo) (field : SessionField) :
    Except Fault StuSessionInfo :=
  match getObjectItem items field.name with
  | none => .ok psessioninfo
  | some (_, none) => .error .nullDeref
  | some (_, some valuestring) => .ok (update psessioninfo field (cStr valuestring))

section

variable (parse : Str → Option (List Item))

/-- `json_to_session`: the result, and the structure. -/
def jsonToSession (str_json : Str) (psessioninfo : StuSessionInfo) :
    Except Fault (Int × StuSessionInfo) :=
  match parse (cStr str_json) with
  | none => .ok (-1, psessioninfo)
  | some items => do
      let psessioninfo ← sessionFields.foldlM (assignItem items) psessioninfo
      return (0, psessioninfo)

/-! ## memcache -/

/-- The values by their keys. -/
abbrev Memcache := Str → Option Str

/-- What becomes of a command. -/
inductive Reply
  /-- it is carried out, and the reply arrives -/
  | answered
  /-- it is carried out, and the reply is lost -/
  | lost
  /-- it is not carried out: there is no client in the pool, or no connection -/
  | failed
  deriving DecidableEq

/-- `PREFIX_SESSIONID` -/
def prefixSessionid : Str := ascii ['0', '1']

/-- `set_session_info` -/
def setSessionInfo (memcache : Memcache) (str_sessionid : Str) (psessioninfo : StuSessionInfo) :
    Reply → Memcache × Int
  | .answered =>
      (update memcache (prefixSessionid ++ str_sessionid) (some (sessionToJson psessioninfo)), 0)
  | .lost =>
      (update memcache (prefixSessionid ++ str_sessionid) (some (sessionToJson psessioninfo)), -1)
  | .failed => (memcache, -1)

/-- The fields of a value of the older version. -/
def oldSession (vec : List Str) (psessioninfo : StuSessionInfo) : StuSessionInfo
  | .username => vec.getD 0 []
  | .password => vec.getD 1 []
  | .clientip => vec.getD 2 []
  | .gameinternalno => vec.getD 3 []
  | .idcardno => if vec.getD 4 [] = ascii ['*'] then [] else vec.getD 4 []
  | .gameid => vec.getD 5 []
  | .useloginstate => vec.getD 6 []
  | .heartbeaturl => vec.getD 7 []
  | field => psessioninfo field

/-- `get_session_info`: the result, and the structure. -/
def getSessionInfo (memcache : Memcache) (str_sessionid : Str) (psessioninfo : StuSessionInfo) :
    Reply → Except Fault (Int × StuSessionInfo)
  | .answered =>
      match memcache (prefixSessionid ++ str_sessionid) with
      | none => .ok (0, psessioninfo)
      | some str_value =>
          let vec := split 59 str_value
          if vec.length < 8 then do
            let (result, psessioninfo) ← jsonToSession parse str_value psessioninfo
            if result = -1 then return (-1, psessioninfo) else return (1, psessioninfo)
          else .ok (1, oldSession vec psessioninfo)
  | .lost => .ok (-1, psessioninfo)
  | .failed => .ok (-1, psessioninfo)

end

/-! ## reading an object -/

theorem mem_sessionFields (field : SessionField) : field ∈ sessionFields := by
  cases field <;> decide

theorem name_clean (field : SessionField) : 0 ∉ field.name ∧ field.name.count 59 = 0 := by
  cases field <;> decide

/-- The names are different, also without regard to case. -/
theorem find_name (field : SessionField) :
    sessionFields.find? (fun f => f.name.map tolower = field.name.map tolower) = some field := by
  cases field <;> rfl

section

variable {parse : Str → Option (List Item)} {s : StuSessionInfo}

/-- The item of a field is found. -/
theorem getObjectItem_session (s : StuSessionInfo) (field : SessionField) :
    getObjectItem ((sessionItems s).map fun item => (item.1, some item.2)) field.name =
      some (field.name, some (s field)) := by
  rw [getObjectItem, sessionItems, List.map_map, List.find?_map]
  exact congrArg (Option.map _) (find_name field)

/-- The fields are assigned one after the other. -/
theorem foldlM_assignItem (hs : ∀ field, 0 ∉ s field) (fields : List SessionField)
    (psessioninfo : StuSessionInfo) :
    fields.foldlM (assignItem ((sessionItems s).map fun item => (item.1, some item.2)))
        psessioninfo =
      .ok fun field => if field ∈ fields then s field else psessioninfo field := by
  induction fields generalizing psessioninfo with
  | nil => simp
  | cons f fields ih =>
      rw [List.foldlM_cons, assignItem, getObjectItem_session]
      simp only
      rw [ok_bind, ih, cStr_eq_self (hs f)]
      congr 1
      funext field
      by_cases hf : field = f
      · subst hf
        simp
      · simp [hf]

theorem nulfree_sessionItems (hs : ∀ field, 0 ∉ s field) :
    ∀ item ∈ sessionItems s, 0 ∉ item.1 ∧ 0 ∉ item.2 := by
  intro item hitem
  obtain ⟨field, -, rfl⟩ := List.mem_map.mp hitem
  exact ⟨(name_clean field).1, hs field⟩

/-- An object that is parsed gives back the session. -/
theorem jsonToSession_sessionToJson (hparse : ParsesStrings parse) (hs : ∀ field, 0 ∉ s field)
    (psessioninfo : StuSessionInfo) :
    jsonToSession parse (sessionToJson s) psessioninfo = .ok (0, s) := by
  have hitems := nulfree_sessionItems hs
  have hnul : 0 ∉ sessionToJson s :=
    List.count_eq_zero.mp (count_printObject (sessionItems s) hitems).1
  rw [jsonToSession, cStr_eq_self hnul, sessionToJson, hparse (sessionItems s) hitems]
  simp only
  rw [foldlM_assignItem hs, ok_bind, pure_eq_ok]
  simp only [mem_sessionFields, if_true]

/-! ## the two formats -/

/-- The semicolons in all fields of a session. -/
def semicolons (s : StuSessionInfo) : Nat :=
  (sessionFields.map fun field => (s field).count 59).sum

/-- The value that is stored has one piece more than the session has semicolons. -/
theorem length_split_sessionToJson (hs : ∀ field, 0 ∉ s field) :
    (split 59 (sessionToJson s)).length = semicolons s + 1 := by
  rw [length_split, sessionToJson, (count_printObject _ (nulfree_sessionItems hs)).2,
    sessionItems, List.map_map, semicolons]
  simp only [Function.comp_def, (name_clean _).2, Nat.zero_add]

theorem length_le_flatMap_escapeChar (t : Str) : t.length ≤ (t.flatMap escapeChar).length := by
  induction t with
  | nil => exact Nat.le_refl 0
  | cons c t ih =>
      have hc : 1 ≤ (escapeChar c).length := by
        unfold escapeChar
        split_ifs <;> simp
      rw [List.flatMap_cons, List.length_append, List.length_cons]
      omega

/-- What stands in front of the user name. -/
def usernameHead : Str := 123 :: (printStringPtr SessionField.username.name ++ [58, 34])

theorem sessionToJson_eq (hs : ∀ field, 0 ∉ s field) :
    ∃ t, sessionToJson s = usernameHead ++ (s .username).flatMap escapeChar ++ t := by
  refine ⟨34 :: (printMore (sessionItems s).tail ++ [125]), ?_⟩
  have hitem : printItem (SessionField.username.name, s .username) =
      printStringPtr SessionField.username.name ++
        58 :: 34 :: ((s .username).flatMap escapeChar ++ [34]) := by
    have hvalue : printStringPtr (s .username) =
        34 :: ((s .username).flatMap escapeChar ++ [34]) := by
      rw [printStringPtr, cStr_eq_self (hs .username)]
    rw [printItem]
    dsimp only
    rw [hvalue]
  have hprint : sessionToJson s =
      123 :: (printItem (SessionField.username.name, s .username) ++
        (printMore (sessionItems s).tail ++ [125])) := rfl
  rw [hprint, hitem, usernameHead]
  simp

/-- The first piece of the value is not the user name. -/
theorem username_ne (hs : ∀ field, 0 ∉ s field) :
    (split 59 (sessionToJson s)).getD 0 [] ≠ s .username := by
  intro heq
  obtain ⟨pieces, hsplit⟩ := split_eq_cons 59 (sessionToJson s)
  rw [hsplit, List.getD_cons_zero] at heq
  have hno : 59 ∉ s .username := by
    rw [← heq]
    intro hmem
    simpa using List.mem_takeWhile_imp hmem
  -- without semicolons in it, all of the name is in the first piece, with the head before it
  obtain ⟨t, htext⟩ := sessionToJson_eq hs
  have hclean : 59 ∉ usernameHead ++ (s .username).flatMap escapeChar := by
    rw [List.mem_append, not_or]
    refine ⟨by decide, ?_⟩
    rw [← List.count_eq_zero, (count_flatMap_escapeChar (hs .username)).2, List.count_eq_zero]
    exact hno
  rw [htext, takeWhile_ne_append hclean] at heq
  have hlen := congrArg List.length heq
  have hle := length_le_flatMap_escapeChar (s .username)
  have hhead : usernameHead.length = 13 := rfl
  rw [List.length_append, List.length_append, hhead] at hlen
  omega

/-- **Sessions in memcache**: a session that is stored is read back as it was, with all of its
fields, exactly when there are at most six semicolons in them. -/
theorem session_roundtrip_iff (hparse : ParsesStrings parse) (hs : ∀ field, 0 ∉ s field)
    {memcache memcache' : Memcache} {str_sessionid : Str} {reply : Reply}
    (hset : setSessionInfo memcache str_sessionid s reply = (memcache', 0)) :
    getSessionInfo parse memcache' str_sessionid freshSession .answered = .ok (1, s) ↔
      semicolons s ≤ 6 := by
  have hstored : memcache' (prefixSessionid ++ str_sessionid) = some (sessionToJson s) := by
    cases reply with
    | answered =>
        cases hset
        exact Function.update_self _ _ _
    | lost => cases hset
    | failed => cases hset
  have hlen := length_split_sessionToJson hs
  rw [getSessionInfo, hstored]
  dsimp only
  by_cases hfew : semicolons s ≤ 6
  · rw [if_pos (by omega), jsonToSession_sessionToJson hparse hs, ok_bind]
    exact iff_of_true rfl hfew
  · rw [if_neg (by omega)]
    refine iff_of_false ?_ hfew
    intro heq
    have hsession := congrArg Prod.snd (Except.ok.inj heq)
    exact username_ne hs (congrFun hsession .username)

end

/-- A session whose password is `;` six times. -/
def sixSemicolons : StuSessionInfo := update freshSession .password (List.replicate 6 59)

/-- A session whose password is `;` seven times. -/
def sevenSemicolons : StuSessionInfo := update freshSession .password (List.replicate 7 59)

/-- Six semicolons come back. -/
theorem session_roundtrip_six :
    getSessionInfo parseObject (setSessionInfo (fun _ => none) [55] sixSemicolons .answered).1 [55]
      freshSession .answered = .ok (1, sixSemicolons) := by
  have hs : ∀ field, 0 ∉ sixSemicolons field := by
    intro field
    cases field <;> decide
  have hset : setSessionInfo (fun _ => none) [55] sixSemicolons .answered =
      ((setSessionInfo (fun _ => none) [55] sixSemicolons .answered).1, 0) := rfl
  refine (session_roundtrip_iff parsesStrings_parseObject hs hset).mpr ?_
  decide

/-- Seven semicolons in the password: the user name that is read is the text of the object up to
the first of them. -/
theorem session_misread :
    (∀ field, 0 ∉ sevenSemicolons field) ∧
    (setSessionInfo (fun _ => none) [55] sevenSemicolons .answered).2 = 0 ∧
    ((getSessionInfo parseObject (setSessionInfo (fun _ => none) [55] sevenSemicolons .answered).1
      [55] freshSession .answered).toOption.map fun r => (r.1, r.2 .username, r.2 .password)) =
        some (1,
          usernameHead ++ 34 :: 44 :: (printStringPtr SessionField.password.name ++ [58, 34]), []) ∧
    sevenSemicolons .username = [] := by
  refine ⟨?_, rfl, by decide +kernel, rfl⟩
  intro field
  cases field <;> decide

end LogingameServer
end MySrc
