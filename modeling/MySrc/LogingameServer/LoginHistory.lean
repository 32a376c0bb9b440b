import MySrc.CxxUtils.ConfigFile
import MySrc.Lib.Recent

/-!
# MySrc.LogingameServer.LoginHistory

The history of logins of `logingame_server/src/service/logingame_mongodb_service.cpp`: the
collection `test.logingame` has a document for each account, whose array `gameinfos` takes a
login with `$push` and, when there are more than 20, loses its first with `$pop`.

The documents are what the calls of `mongo_client` say; the driver behind them is a
parameter where it hands out a text of a document.
-/

namespace MySrc
namespace LogingameServer
namespace LoginHistory

open Lib

/-! ## the collection -/

/-- `STU_LOGINGAME_DB_INFO`, but for its `seqid`. -/
structure StuLogingameDbInfo where
  gameinternalno : Str
  gameid : Str
  serverid : Str
  logintime : Str
  deriving Repr, DecidableEq

/-- `gameinfo_obj`, an element of `gameinfos`. -/
structure GameinfoObj where
  serverid : Str
  gameid : Str
  logintime : Str
  deriving Repr, DecidableEq

/-- A document; it has no `gameinfos` before the first `$push`. -/
structure Document where
  gameinternalno : Str
  gameinfos : Option (List GameinfoObj)
  deriving Repr, DecidableEq

abbrev Collection := List Document

/-- `query` with the condition of an account. -/
def Collection.query (collection : Collection) (gameinternalno : Str) : List Document :=
  collection.filter fun doc => doc.gameinternalno = gameinternalno

/-- `findone`, without the empty object that stands for no document. -/
def Collection.findone (collection : Collection) (gameinternalno : Str) : Option Document :=
  collection.find? fun doc => doc.gameinternalno = gameinternalno

/-- `update` changes the first document that meets its condition. -/
def Collection.update (gameinternalno : Str)
    (update_value : Option (List GameinfoObj) → Option (List GameinfoObj)) :
    Collection → Collection
  | [] => []
  | doc :: collection =>
      if doc.gameinternalno = gameinternalno then
        { doc with gameinfos := update_value doc.gameinfos } :: collection
      else doc :: Collection.update gameinternalno update_value collection

/-- `$push` -/
def push (gameinfo_obj : GameinfoObj) (gameinfos : Option (List GameinfoObj)) :
    Option (List GameinfoObj) :=
  some (gameinfos.getD [] ++ [gameinfo_obj])

/-- `$pop` with `-1` -/
def pop (gameinfos : Option (List GameinfoObj)) : Option (List GameinfoObj) :=
  gameinfos.map List.tail

/-- The calls that succeed; one that fails changes nothing. -/
structure Calls where
  query : Bool
  insert : Bool
  pop : Bool
  push : Bool
  findone : Bool

def Calls.all : Calls := ⟨true, true, true, true, true⟩

/-! ## the service -/

def StuLogingameDbInfo.gameinfoObj (info : StuLogingameDbInfo) : GameinfoObj :=
  ⟨info.serverid, info.gameid, info.logintime⟩

/-- `add_logingame`; without a client there is nothing to call. -/
def addLogingame (is_master : Bool) (client : Option Calls) (info : StuLogingameDbInfo)
    (collection : Collection) : Collection × Int :=
  if !is_master then (collection, 0)
  else
    match client with
    | none => (collection, -1)
    | some calls =>
        if !calls.query then (collection, -1)
        else
          match collection.query info.gameinternalno with
          | [] =>
              -- nobody looks at the result of the `insert`
              let collection :=
                if calls.insert then collection ++ [⟨info.gameinternalno, none⟩] else collection
              if !calls.push then (collection, -1)
              else (collection.update info.gameinternalno (push info.gameinfoObj), 0)
          | result_obj :: _ =>
              let full := 20 < (result_obj.gameinfos.getD []).length
              if full ∧ !calls.pop then (collection, -1)
              else
                let collection :=
                  if full then collection.update info.gameinternalno pop else collection
                if !calls.push then (collection, -1)
                else (collection.update info.gameinternalno (push info.gameinfoObj), 0)

/-- A login as it is read back, by the texts that the driver hands out. -/
def readGameinfo (getStringField : Str → Str) (gameinternalno : Str) (gameinfoobj : GameinfoObj) :
    StuLogingameDbInfo where
  gameinternalno := gameinternalno
  gameid := getStringField gameinfoobj.gameid
  serverid := getStringField gameinfoobj.serverid
  logintime := getStringField gameinfoobj.logintime

/-- The array of an account, empty where there is none. -/
def Collection.gameinfos (collection : Collection) (gameinternalno : Str) : List GameinfoObj :=
  ((collection.findone gameinternalno).bind Document.gameinfos).getD []

/-- `queryLastLoginGame`, which appends to `vec`. -/
def queryLastLoginGame (getStringField : Str → Str) (client : Option Calls)
    (collection : Collection) (gameinternalno : Str) (vec : List StuLogingameDbInfo) :
    List StuLogingameDbInfo × Int :=
  match client with
  | none => (vec, -1)
  | some calls =>
      if !calls.findone then (vec, -1)
      else
        let vec_element := collection.gameinfos gameinternalno
        let vec := vec_element.reverse.foldl (fun vec jsonelement =>
          let stu := readGameinfo getStringField gameinternalno jsonelement
          if vec.any fun stuinfo => stuinfo.gameid = stu.gameid then vec else vec ++ [stu]) vec
        (vec, 0)

/-- Logins one after the other on the master, with a driver that does what it is asked. -/
def addLogins (logins : List StuLogingameDbInfo) (collection : Collection) : Collection :=
  logins.foldl (fun collection info => (addLogingame true (some .all) info collection).1) collection

/-! ## one login -/

theorem Collection.findone_update (collection : Collection) (gameinternalno other : Str)
    (update_value : Option (List GameinfoObj) → Option (List GameinfoObj)) :
    (collection.update gameinternalno update_value).findone other =
      if other = gameinternalno then
        (collection.findone other).map fun doc =>
          { doc with gameinfos := update_value doc.gameinfos }
      else collection.findone other := by
  induction collection with
  | nil => simp [Collection.update, Collection.findone]
  | cons doc collection ih =>
      simp only [Collection.findone] at ih ⊢
      by_cases hdoc : doc.gameinternalno = gameinternalno
      · rw [Collection.update, if_pos hdoc]
        by_cases hother : other = gameinternalno
        · simp [hother, hdoc]
        · have hne : doc.gameinternalno ≠ other := fun h => hother (h.symm.trans hdoc)
          simp [hother, hne]
      · rw [Collection.update, if_neg hdoc]
        by_cases hother : doc.gameinternalno = other
        · have hne : other ≠ gameinternalno := fun h => hdoc (hother.trans h)
          simp [hother, hne]
        · rw [List.find?_cons_of_neg (by simpa using hother), ih,
            List.find?_cons_of_neg (by simpa using hother)]

/-- What an update does to the arrays. -/
theorem Collection.gameinfos_update (collection : Collection) (gameinternalno other : Str)
    (update_value : Option (List GameinfoObj) → Option (List GameinfoObj)) :
    (collection.update gameinternalno update_value).gameinfos other =
      if other = gameinternalno then
        ((collection.findone other).bind fun doc => update_value doc.gameinfos).getD []
      else collection.gameinfos other := by
  rw [Collection.gameinfos, Collection.findone_update]
  by_cases h : other = gameinternalno
  · rw [if_pos h, if_pos h, Option.bind_map]
    rfl
  · rw [if_neg h, if_neg h]
    rfl

theorem Collection.findone_eq_head? (collection : Collection) (gameinternalno : Str) :
    collection.findone gameinternalno = (collection.query gameinternalno).head? := by
  rw [Collection.findone, Collection.query, List.head?_filter]

/-- The first login of an account. -/
theorem gameinfos_insert_push (collection : Collection) (info : StuLogingameDbInfo)
    (hquery : collection.query info.gameinternalno = []) (gameinternalno : Str) :
    (Collection.update info.gameinternalno (push info.gameinfoObj)
      (collection ++ [⟨info.gameinternalno, none⟩])).gameinfos gameinternalno =
      if gameinternalno = info.gameinternalno then [info.gameinfoObj]
      else collection.gameinfos gameinternalno := by
  have hnone : collection.findone info.gameinternalno = none := by
    rw [Collection.findone_eq_head?, hquery, List.head?_nil]
  rw [Collection.gameinfos_update]
  by_cases h : gameinternalno = info.gameinternalno
  · subst h
    rw [if_pos rfl, if_pos rfl, Collection.findone, List.find?_append, ← Collection.findone, hnone]
    simp [push]
  · rw [if_neg h, if_neg h, Collection.gameinfos, Collection.findone, List.find?_append,
      List.find?_singleton, if_neg (by simpa using Ne.symm h), Option.or_none]
    rfl

/-- A further login of an account. -/
theorem gameinfos_pop_push (collection : Collection) (info : StuLogingameDbInfo)
    (hfind : collection.findone info.gameinternalno = some result_obj) (gameinternalno : Str) :
    (Collection.update info.gameinternalno (push info.gameinfoObj)
      (if 20 < (result_obj.gameinfos.getD []).length then
        collection.update info.gameinternalno pop else collection)).gameinfos gameinternalno =
      if gameinternalno = info.gameinternalno then
        pushBounded 20 (collection.gameinfos gameinternalno) info.gameinfoObj
      else collection.gameinfos gameinternalno := by
  rw [Collection.gameinfos_update]
  by_cases h : gameinternalno = info.gameinternalno
  · subst h
    rw [if_pos rfl, if_pos rfl, pushBounded, Collection.gameinfos, hfind, Option.bind_some]
    split
    · rw [Collection.findone_update, if_pos rfl, hfind, Option.map_some, Option.bind_some]
      dsimp only
      cases result_obj.gameinfos with
      | none => rfl
      | some gameinfos => rfl
    · rw [hfind]
      rfl
  · rw [if_neg h, if_neg h]
    split
    · rw [Collection.gameinfos_update, if_neg h]
    · rfl

/-- **A login** goes to the end of the array of its account, and the others stay. -/
theorem gameinfos_addLogingame (collection : Collection) (info : StuLogingameDbInfo)
    (gameinternalno : Str) :
    (addLogingame true (some .all) info collection).1.gameinfos gameinternalno =
      if gameinternalno = info.gameinternalno then
        pushBounded 20 (collection.gameinfos gameinternalno) info.gameinfoObj
      else collection.gameinfos gameinternalno := by
  cases hquery : collection.query info.gameinternalno with
  | nil =>
      have hadd : (addLogingame true (some .all) info collection).1 =
          Collection.update info.gameinternalno (push info.gameinfoObj)
            (collection ++ [⟨info.gameinternalno, none⟩]) := by
        simp [addLogingame, Calls.all, hquery]
      rw [hadd, gameinfos_insert_push collection info hquery]
      by_cases h : gameinternalno = info.gameinternalno
      · have hnone : collection.gameinfos info.gameinternalno = [] := by
          rw [Collection.gameinfos, Collection.findone_eq_head?, hquery]
          rfl
        rw [if_pos h, if_pos h, h, hnone]
        rfl
      · rw [if_neg h, if_neg h]
  | cons result_obj rest =>
      have hfind : collection.findone info.gameinternalno = some result_obj := by
        rw [Collection.findone_eq_head?, hquery, List.head?_cons]
      have hadd : (addLogingame true (some .all) info collection).1 =
          Collection.update info.gameinternalno (push info.gameinfoObj)
            (if 20 < (result_obj.gameinfos.getD []).length then
              collection.update info.gameinternalno pop else collection) := by
        simp [addLogingame, Calls.all, hquery]
      rw [hadd, gameinfos_pop_push collection info hfind]

/-! ## many logins -/

/-- The logins of an account. -/
def ofAccount (gameinternalno : Str) (logins : List StuLogingameDbInfo) :
    List StuLogingameDbInfo :=
  logins.filter fun info => info.gameinternalno = gameinternalno

/-- **A run of logins** adds those of an account to its array, one after the other. -/
theorem gameinfos_addLogins (logins : List StuLogingameDbInfo) (collection : Collection)
    (gameinternalno : Str) :
    (addLogins logins collection).gameinfos gameinternalno =
      ((ofAccount gameinternalno logins).map StuLogingameDbInfo.gameinfoObj).foldl (pushBounded 20)
        (collection.gameinfos gameinternalno) := by
  induction logins generalizing collection with
  | nil => rfl
  | cons info logins ih =>
      rw [addLogins, List.foldl_cons, ← addLogins, ih, gameinfos_addLogingame]
      by_cases h : gameinternalno = info.gameinternalno
      · simp [ofAccount, h]
      · simp [ofAccount, h, Ne.symm h]

/-- The logins of an account that are kept. -/
def keptLogins (gameinternalno : Str) (logins : List StuLogingameDbInfo) :
    List StuLogingameDbInfo :=
  (ofAccount gameinternalno logins).rtake (min (ofAccount gameinternalno logins).length 21)

theorem gameinfos_of_new {collection : Collection} {gameinternalno : Str}
    (hnew : collection.query gameinternalno = []) (logins : List StuLogingameDbInfo) :
    (addLogins logins collection).gameinfos gameinternalno =
      (keptLogins gameinternalno logins).map StuLogingameDbInfo.gameinfoObj := by
  have hnone : collection.gameinfos gameinternalno = [] := by
    rw [Collection.gameinfos, Collection.findone_eq_head?, hnew]
    rfl
  have hdrop : ∀ n : Nat, n - min n 21 = n - 21 := by omega
  rw [gameinfos_addLogins, hnone, foldl_pushBounded, keptLogins, List.rtake, List.rtake,
    List.map_drop, List.length_map, hdrop]

/-! ## the last login of each game -/

/-- The driver hands out the texts of a login as they were appended.  It does so by C strings,
for texts that have no NUL. -/
def ReadsBack (getStringField : Str → Str) (info : StuLogingameDbInfo) : Prop :=
  getStringField info.gameid = info.gameid ∧ getStringField info.serverid = info.serverid ∧
    getStringField info.logintime = info.logintime

instance (getStringField : Str → Str) (info : StuLogingameDbInfo) :
    Decidable (ReadsBack getStringField info) :=
  inferInstanceAs (Decidable (_ ∧ _ ∧ _))

theorem ReadsBack.readGameinfo {getStringField : Str → Str} {info : StuLogingameDbInfo}
    (h : ReadsBack getStringField info) :
    readGameinfo getStringField info.gameinternalno info.gameinfoObj = info := by
  obtain ⟨hgameid, hserverid, hlogintime⟩ := h
  simp only [LoginHistory.readGameinfo, StuLogingameDbInfo.gameinfoObj, hgameid, hserverid,
    hlogintime]

/-- The query takes the first of each game from the logins in reverse. -/
theorem queryLastLoginGame_eq (getStringField : Str → Str) (collection : Collection)
    (gameinternalno : Str) (vec : List StuLogingameDbInfo) :
    queryLastLoginGame getStringField (some .all) collection gameinternalno vec =
      (((collection.gameinfos gameinternalno).map
        (readGameinfo getStringField gameinternalno)).reverse.foldl
          (addNew StuLogingameDbInfo.gameid) vec, 0) := by
  rw [← List.map_reverse, List.foldl_map]
  rfl

theorem map_readGameinfo {getStringField : Str → Str} {logins : List StuLogingameDbInfo}
    (hread : ∀ info ∈ logins, ReadsBack getStringField info) (gameinternalno : Str) :
    ((keptLogins gameinternalno logins).map StuLogingameDbInfo.gameinfoObj).map
      (readGameinfo getStringField gameinternalno) = keptLogins gameinternalno logins := by
  rw [List.map_map]
  refine (List.map_congr_left fun info hinfo => ?_).trans (List.map_id _)
  have hmem : info ∈ ofAccount gameinternalno logins := List.mem_of_mem_drop hinfo
  obtain ⟨hlogin, haccount⟩ := List.mem_filter.mp hmem
  rw [Function.comp_apply, ← of_decide_eq_true haccount, (hread info hlogin).readGameinfo, id]

/-- **The history keeps the latest logins**, in their order, and the query gives of each game
among them the last one, the latest first. -/
theorem login_history_latest (getStringField : Str → Str) (collection : Collection)
    (logins : List StuLogingameDbInfo) (gameinternalno : Str)
    (hnew : collection.query gameinternalno = [])
    (hread : ∀ info ∈ logins, ReadsBack getStringField info) :
    (addLogins logins collection).gameinfos gameinternalno =
      (keptLogins gameinternalno logins).map StuLogingameDbInfo.gameinfoObj ∧
    ∃ vec, queryLastLoginGame getStringField (some .all) (addLogins logins collection)
        gameinternalno [] = (vec, 0) ∧
      FirstByKey StuLogingameDbInfo.gameid (keptLogins gameinternalno logins).reverse vec := by
  have hkept := gameinfos_of_new hnew logins
  refine ⟨hkept, _, queryLastLoginGame_eq getStringField _ gameinternalno [], ?_⟩
  rw [hkept, map_readGameinfo hread]
  exact firstByKey_foldl_addNew _

/-- Two games of an account, and one of another between them. -/
theorem login_history_latest_three :
    let logins : List StuLogingameDbInfo :=
      [⟨[97], [49], [], [1]⟩, ⟨[98], [50], [], [2]⟩, ⟨[97], [51], [], [3]⟩, ⟨[97], [49], [], [4]⟩]
    (addLogins logins [⟨[98], none⟩]).gameinfos [97] =
      (keptLogins [97] logins).map StuLogingameDbInfo.gameinfoObj ∧
    ∃ vec, queryLastLoginGame cStr (some .all) (addLogins logins [⟨[98], none⟩]) [97] [] =
        (vec, 0) ∧
      FirstByKey StuLogingameDbInfo.gameid (keptLogins [97] logins).reverse vec :=
  login_history_latest cStr [⟨[98], none⟩] _ [97] rfl (by decide)

end LoginHistory
end LogingameServer
end MySrc
