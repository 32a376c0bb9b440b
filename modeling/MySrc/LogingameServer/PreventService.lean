import MySrc.CxxUtils.ConfigFile
import MySrc.Lib.OrdMap
import MySrc.Lib.Replica
import MySrc.Lib.Run

/-!
# MySrc.LogingameServer.PreventService

The cache of `logingame_server/src/service/prevent_service.cpp`.  The table
`gamebox.prevent` is mirrored in `m_map_prevent`, which all threads share.

A call changes the table with one statement of SQL, and then the map in a section
of its own under the mutex.  Calls on different threads may come to the two in
different orders.  `prevent_mirrors` says that the map follows the table as long as
no section overtakes one of an earlier statement that does not commute with it.
-/

namespace MySrc
namespace LogingameServer
namespace PreventService

open Lib
open Function (update)

/-! ## the table and the map -/

/-- `STU_PREVENT_INFO`, and a row of the table. -/
structure StuPreventInfo where
  gameid : Str
  is_prevent : Str
  is_adult : Str
  deriving Repr, DecidableEq

/-- The rows of `gamebox.prevent`, by their unique `gameid`. -/
abbrev Table := Str → Option StuPreventInfo

/-- `m_map_prevent` -/
abbrev PreventMap := OrdMap Str StuPreventInfo

/-- `stu->is_adult = …; stu->is_prevent = …`, and what `update … set` does to a row. -/
def StuPreventInfo.assign (stu pprevent_info : StuPreventInfo) : StuPreventInfo :=
  { stu with is_adult := pprevent_info.is_adult, is_prevent := pprevent_info.is_prevent }

inductive Call
  | updatePrevent (pprevent_info : StuPreventInfo)
  | removePrevent (gameid : Str)
  deriving Repr, DecidableEq

/-- The statements of `update_prevent`: one for all rows, and an
`insert … on duplicate key update` for one. -/
def sqlUpdate (pprevent_info : StuPreventInfo) (table : Table) : Table :=
  if pprevent_info.gameid = [] then fun gameid => (table gameid).map (·.assign pprevent_info)
  else
    update table pprevent_info.gameid
      (some (((table pprevent_info.gameid).map (·.assign pprevent_info)).getD pprevent_info))

/-- The statements of `remove_prevent`. -/
def sqlRemove (gameid : Str) (table : Table) : Table :=
  if gameid = [] then fun _ => none else update table gameid none

/-- The statement of a call. -/
def sql : Call → Table → Table
  | .updatePrevent pprevent_info => sqlUpdate pprevent_info
  | .removePrevent gameid => sqlRemove gameid

/-- The section of `update_prevent` under the mutex. -/
def updateMap (pprevent_info : StuPreventInfo) (m_map_prevent : PreventMap) : PreventMap :=
  if pprevent_info.gameid = [] then m_map_prevent.mapValues (·.assign pprevent_info)
  else
    match m_map_prevent.find pprevent_info.gameid with
    | some stu_info1 =>
        m_map_prevent.set pprevent_info.gameid (stu_info1.assign pprevent_info)
    | none => m_map_prevent.insertNew pprevent_info.gameid pprevent_info

/-- The section of `remove_prevent` under the mutex. -/
def removeMap (gameid : Str) (m_map_prevent : PreventMap) : PreventMap :=
  if gameid = [] then .empty
  else
    match m_map_prevent.find gameid with
    | some _ => m_map_prevent.erase gameid
    | none => m_map_prevent

/-- The section of a call. -/
def mutexSection : Call → PreventMap → PreventMap
  | .updatePrevent pprevent_info => updateMap pprevent_info
  | .removePrevent gameid => removeMap gameid

/-- `query_prevent` -/
def queryPrevent (m_map_prevent : PreventMap) (str_gameid : Str) : List StuPreventInfo :=
  if str_gameid = [] then m_map_prevent.entries.map (·.2)
  else (m_map_prevent.find str_gameid).toList

/-- The section of a call does to the map what its statement does to the table. -/
theorem find_mutexSection (call : Call) (m_map_prevent : PreventMap) :
    (mutexSection call m_map_prevent).find = sql call m_map_prevent.find := by
  funext q
  cases call with
  | updatePrevent info =>
      simp only [mutexSection, sql, updateMap, sqlUpdate]
      split
      · rw [OrdMap.find_mapValues]
      · cases hfind : m_map_prevent.find info.gameid with
        | some stu =>
            simp only [OrdMap.find_set, Option.map_some, Option.getD_some]
            by_cases hq : q = info.gameid <;> simp [hq]
        | none =>
            simp only [OrdMap.find_insertNew, Option.map_none, Option.getD_none]
            by_cases hq : q = info.gameid <;> simp [hq, hfind]
  | removePrevent gameid =>
      simp only [mutexSection, sql, removeMap, sqlRemove]
      split
      · rfl
      · cases hfind : m_map_prevent.find gameid with
        | some stu =>
            simp only [OrdMap.find_erase]
            by_cases hq : q = gameid <;> simp [hq]
        | none => by_cases hq : q = gameid <;> simp [hq, hfind]

/-- A query for a game gives its row, and one without a game gives them all. -/
theorem mem_queryPrevent {m_map_prevent : PreventMap} {table : Table}
    (h : m_map_prevent.find = table) (str_gameid : Str) (row : StuPreventInfo) :
    row ∈ queryPrevent m_map_prevent str_gameid ↔
      ∃ gameid, table gameid = some row ∧ (str_gameid ≠ [] → gameid = str_gameid) := by
  subst h
  unfold queryPrevent
  split
  · next hempty => simp [hempty, OrdMap.mem_entries_iff]
  · next hne => simp [hne]

/-! ## calls on many threads -/

/-- What becomes of a statement. -/
inductive Mysql
  /-- `m_pmysql == NULL` -/
  | null
  /-- `Query` throws -/
  | failed
  | done
  deriving DecidableEq

structure Service where
  table : Table
  m_map_prevent : PreventMap
  /-- the calls between their statement and their section, in the order of the statements -/
  pending : List Call

inductive Act
  /-- a call begins, and executes its statement -/
  | query (call : Call) (mysql : Mysql)
  /-- a call that has executed its statement comes to its section -/
  | mutexSection (i : Nat)

/-- The output of a step is what the call returns, if it returns. -/
def step (s : Service) : Act → Except Fault (Service × Option Int)
  | .query _ .null => .ok (s, some (-1))
  | .query _ .failed => .ok (s, some (-1))
  | .query call .done =>
      .ok ({ s with table := sql call s.table, pending := s.pending ++ [call] }, none)
  | .mutexSection i =>
      match s.pending[i]? with
      | none => .error .outOfBounds
      | some call =>
          .ok ({ s with
            m_map_prevent := mutexSection call s.m_map_prevent
            pending := s.pending.eraseIdx i }, some 0)

/-- A section belongs to a call that is in progress. -/
def Enabled (s : Service) : Act → Prop
  | .mutexSection i => i < s.pending.length
  | _ => True

instance (s : Service) (act : Act) : Decidable (Enabled s act) :=
  match act with
  | .query _ _ => inferInstanceAs (Decidable True)
  | .mutexSection i => inferInstanceAs (Decidable (i < s.pending.length))

/-- The statements of two calls do not commute. -/
def conflicts : Call → Call → Bool
  | .updatePrevent info, .updatePrevent info' =>
      (info.gameid = [] || info'.gameid = [] || info.gameid = info'.gameid) &&
        (info.is_prevent ≠ info'.is_prevent || info.is_adult ≠ info'.is_adult)
  | .updatePrevent info, .removePrevent gameid =>
      info.gameid ≠ [] && (gameid = [] || gameid = info.gameid)
  | .removePrevent gameid, .updatePrevent info =>
      info.gameid ≠ [] && (gameid = [] || gameid = info.gameid)
  | .removePrevent _, .removePrevent _ => false

/-- A call comes to its section before a conflicting call whose statement was earlier. -/
def overtakes (s : Service) : Act → Bool
  | .query _ _ => false
  | .mutexSection i =>
      match s.pending[i]? with
      | none => false
      | some call => (s.pending.take i).any (conflicts call)

/-- What the statement of a call does to the row of a game. -/
def sqlRow (gameid : Str) (row : Option StuPreventInfo) : Call → Option StuPreventInfo
  | .updatePrevent info =>
      if info.gameid = [] then row.map (·.assign info)
      else if info.gameid = gameid then some ((row.map (·.assign info)).getD info)
      else row
  | .removePrevent gameid' => if gameid' = [] ∨ gameid' = gameid then none else row

/-- A statement works on every row by itself. -/
theorem sql_apply (call : Call) (table : Table) (gameid : Str) :
    sql call table gameid = sqlRow gameid (table gameid) call := by
  cases call with
  | updatePrevent info =>
      simp only [sql, sqlUpdate, sqlRow]
      split
      · rfl
      · by_cases hq : info.gameid = gameid
        · simp [hq]
        · simp [hq, Function.update_of_ne (Ne.symm hq)]
  | removePrevent gameid' =>
      simp only [sql, sqlRemove, sqlRow]
      split
      · next hempty => simp [hempty]
      · next hne =>
          by_cases hq : gameid' = gameid
          · simp [hq]
          · simp [hne, hq, Function.update_of_ne (Ne.symm hq)]

/-- Updates with the same values commute, whichever rows they go to. -/
theorem sqlRow_update_comm {info info' : StuPreventInfo} (gameid : Str)
    (row : Option StuPreventInfo)
    (h : conflicts (.updatePrevent info) (.updatePrevent info') = false) :
    sqlRow gameid (sqlRow gameid row (.updatePrevent info')) (.updatePrevent info) =
      sqlRow gameid (sqlRow gameid row (.updatePrevent info)) (.updatePrevent info') := by
  obtain ⟨g, p, a⟩ := info
  obtain ⟨g', p', a'⟩ := info'
  simp only [conflicts, Bool.and_eq_false_iff, Bool.or_eq_false_iff] at h
  rcases h with ⟨⟨hg, hg'⟩, hne⟩ | ⟨hp, ha⟩
  · have hdisjoint : ¬ (g = gameid ∧ g' = gameid) := by
      rintro ⟨rfl, rfl⟩
      simp at hne
    simp only [decide_eq_false_iff_not] at hg hg'
    simp only [sqlRow, hg, hg', if_false]
    by_cases hq : g = gameid
    · have hq' : ¬ g' = gameid := fun hq' => hdisjoint ⟨hq, hq'⟩
      simp [hq, hq']
    · simp [hq]
  · obtain rfl : p = p' := by simpa using hp
    obtain rfl : a = a' := by simpa using ha
    by_cases hg : g = []
    · by_cases hg' : g' = []
      · rw [hg, hg']
      · by_cases hq : g' = gameid
        · subst hq
          cases row <;> simp [sqlRow, StuPreventInfo.assign, hg, hg']
        · simp [sqlRow, hg, hg', hq]
    · by_cases hq : g = gameid
      · subst hq
        by_cases hq' : g' = g
        · rw [hq']
        · by_cases hg' : g' = [] <;> cases row <;>
            simp [sqlRow, StuPreventInfo.assign, hg, hg', hq']
      · simp [sqlRow, hg, hq]

/-- An update and a removal that does not reach its row commute. -/
theorem sqlRow_remove_comm {info : StuPreventInfo} {gameid' : Str} (gameid : Str)
    (row : Option StuPreventInfo)
    (h : conflicts (.updatePrevent info) (.removePrevent gameid') = false) :
    sqlRow gameid (sqlRow gameid row (.removePrevent gameid')) (.updatePrevent info) =
      sqlRow gameid (sqlRow gameid row (.updatePrevent info)) (.removePrevent gameid') := by
  simp only [sqlRow]
  by_cases hg : info.gameid = []
  · by_cases hq : gameid' = [] ∨ gameid' = gameid <;> simp [hg, hq]
  · have hne : ¬ (gameid' = [] ∨ gameid' = info.gameid) := by simpa [conflicts, hg] using h
    by_cases hq : info.gameid = gameid
    · subst hq
      simp [hg, hne]
    · simp [hg, hq]

/-- Calls that do not conflict commute. -/
theorem commutes_of_not_conflicts {call call' : Call} (h : conflicts call call' = false) :
    Commutes sql call call' := by
  intro table
  funext gameid
  simp only [sql_apply]
  cases call with
  | updatePrevent info =>
      cases call' with
      | updatePrevent info' => exact sqlRow_update_comm gameid _ h
      | removePrevent gameid' => exact sqlRow_remove_comm gameid _ h
  | removePrevent gameid' =>
      cases call' with
      | updatePrevent info => exact (sqlRow_remove_comm gameid _ h).symm
      | removePrevent gameid'' =>
          simp only [sqlRow]
          split <;> split <;> rfl

/-- What the sections in progress will do makes the map equal to the table. -/
def Mirrors (s : Service) : Prop := InSync sql s.table s.m_map_prevent.find s.pending

theorem step_mirrors {s s' : Service} {act : Act} {o : Option Int} (h : Mirrors s)
    (hok : overtakes s act = false) (hstep : step s act = .ok (s', o)) : Mirrors s' := by
  cases act with
  | query call mysql =>
      cases mysql with
      | null => cases hstep; exact h
      | failed => cases hstep; exact h
      | done => cases hstep; exact h.commit call
  | mutexSection i =>
      simp only [step] at hstep
      simp only [overtakes] at hok
      split at hstep
      · cases hstep
      · next call hcall =>
          cases hstep
          rw [hcall] at hok
          have hcomm : ∀ call' ∈ s.pending.take i, Commutes sql call call' := fun call' hmem =>
            commutes_of_not_conflicts (by simpa using List.any_eq_false.mp hok call' hmem)
          rw [Mirrors, find_mutexSection]
          exact h.catchUp hcall hcomm

/-- **The map follows the table**: when no call is in progress, the map holds exactly the
rows of the table, as long as no call comes to its section before a conflicting call whose
statement was executed earlier. -/
theorem prevent_mirrors {s₀ s : Service} {t : List (Act × Option Int)}
    (hinit : s₀.m_map_prevent.find = s₀.table) (hidle : s₀.pending = [])
    (hrun : Run step (fun s act => Enabled s act ∧ overtakes s act = false) s₀ t s)
    (hquiet : s.pending = []) :
    s.m_map_prevent.find = s.table := by
  have hmirrors : Mirrors s := by
    refine hrun.invariant (I := fun _ s => Mirrors s) ?_ ?_
    · rw [Mirrors, hidle]
      exact hinit
    · intro _ s act s' o h hok hstep
      exact step_mirrors h hok.2 hstep
  rw [Mirrors, hquiet] at hmirrors
  exact hmirrors.eq_of_nil

/-- A service without rows. -/
def Service.init : Service := ⟨fun _ => none, .empty, []⟩

/-- The calls that set the values of the game `7` to `0`, and to `1`. -/
def update0 : Call := .updatePrevent ⟨[55], [48], [48]⟩

def update1 : Call := .updatePrevent ⟨[55], [49], [49]⟩

/-- Two calls for one game come to their sections in the order of their statements. -/
theorem prevent_mirrors_in_order :
    ∃ t s, Run step (fun s act => Enabled s act ∧ overtakes s act = false) Service.init t s ∧
      s.pending = [] ∧ s.table [55] = some ⟨[55], [49], [49]⟩ ∧
      s.m_map_prevent.find = s.table := by
  have hreplay : (replay step (fun s act => Enabled s act ∧ overtakes s act = false) Service.init
      [.query update0 .done, .query update1 .done, .mutexSection 0, .mutexSection 0]).map
        (fun r => (r.2.pending, r.2.table [55])) =
          some ([], some ⟨[55], [49], [49]⟩) := by
    decide +kernel
  obtain ⟨⟨t, s⟩, hs, hend⟩ := Option.map_eq_some_iff.mp hreplay
  have hrun := Run.nil.replay hs
  have hquiet : s.pending = [] := congrArg Prod.fst hend
  exact ⟨t, s, hrun, hquiet, congrArg Prod.snd hend, prevent_mirrors rfl rfl hrun hquiet⟩

/-- The second of two calls for one game overtakes the first: the table keeps its values,
and the map those of the first. -/
theorem prevent_overtaken :
    ∃ t s, Run step Enabled Service.init t s ∧
      Service.init.m_map_prevent.find = Service.init.table ∧ Service.init.pending = [] ∧
      s.pending = [] ∧ s.table [55] = some ⟨[55], [49], [49]⟩ ∧
      s.m_map_prevent.find [55] = some ⟨[55], [48], [48]⟩ := by
  have hreplay : (replay step Enabled Service.init
      [.query update0 .done, .query update1 .done, .mutexSection 1, .mutexSection 0]).map
        (fun r => (r.2.pending, r.2.table [55], r.2.m_map_prevent.find [55])) =
          some ([], some ⟨[55], [49], [49]⟩, some ⟨[55], [48], [48]⟩) := by
    decide +kernel
  obtain ⟨⟨t, s⟩, hs, hend⟩ := Option.map_eq_some_iff.mp hreplay
  obtain ⟨hquiet, hend⟩ := Prod.mk.inj hend
  obtain ⟨htable, hmap⟩ := Prod.mk.inj hend
  exact ⟨t, s, Run.nil.replay hs, rfl, rfl, hquiet, htable, hmap⟩

end PreventService
end LogingameServer
end MySrc
