import MySrc.Lib.Mutex
import MySrc.PythonProjects.TipsHandler

/-!
# MySrc.PythonProjects.DbConf

The configuration of the tips, `python_projects/src/db/db.py`: seven maps, which
`update_confs` clears and fills again from seven tables, and which the `query_…` functions
look into, all of them under one lock.

The lock keeps every query from a map that is only partly filled.  But the maps are cleared
before anything is loaded, so a table that cannot be read leaves an empty map
(`update_confs_iff`).
-/

namespace MySrc
namespace PythonProjects
namespace TipsHandler

open Lib
open Function (update update_of_ne update_self)

/-! ## the maps -/

/-- The tables. -/
inductive Table
  | scene
  | business
  | restrictCond
  | unrestrictCond
  | task
  | fixedContentResponse
  | commonContentResponse
  deriving Repr, DecidableEq

/-- `str(row[i])` for every column `i` of a row. -/
abbrev Row := Nat → Str

/-- The `key_map` that is stored for a row of the table: of the conditions its `cond_key`,
which is its `cond_value` too (`condMap`), and of a text in JSON what it stands for. -/
def Entry (J : Type) : Table → Type
  | .scene => SceneConf
  | .business => Str
  | .restrictCond => Str
  | .unrestrictCond => Str
  | .task => Option (Dict J)
  | .fixedContentResponse => FixedRtn
  | .commonContentResponse => CommonRtn × Option (Dict J)

/-- The maps of `db_conf`. -/
abbrev Confs (J : Type) := (table : Table) → Str → Option (Entry J table)

/-- What a load meets: `ping` raises an exception, `execute` or `fetchall` does, or there is a
result. -/
inductive Fetched
  | pingFailed
  | queryFailed
  | alldata (rows : List Row)

section Load

variable {J : Type} (loads : Str → Option (Option (Dict J)))

/-- `json.loads`, and an empty dictionary when it raises an exception; `loads` gives a
dictionary, or another value of JSON. -/
def loadsOrEmpty (text : Str) : Option (Dict J) :=
  match loads text with
  | none => some fun _ => none
  | some value => value

/-- The `key_map` of a row. -/
def keyMap (row : Row) : (table : Table) → Entry J table
  | .scene => (⟨row 1, row 2, row 3, row 4, row 5⟩ : SceneConf)
  | .business => (row 1 : Str)
  | .restrictCond => (row 1 : Str)
  | .unrestrictCond => (row 1 : Str)
  | .task => loadsOrEmpty loads (row 1)
  | .fixedContentResponse => (⟨row 1, row 2⟩ : FixedRtn)
  | .commonContentResponse => ((⟨row 1, row 2⟩ : CommonRtn), loadsOrEmpty loads (row 3))

/-- `map[str(row[0])] = key_map` -/
def storeRow (table : Table) (m : Str → Option (Entry J table)) (row : Row) :
    Str → Option (Entry J table) :=
  update m (row 0) (some (keyMap loads row table))

/-- `for row in alldata` -/
def storeRows (table : Table) : (Str → Option (Entry J table)) → List Row →
    Str → Option (Entry J table) :=
  List.foldl (storeRow loads table)

/-- The body of the `update_…_conf` functions: without a result no row is stored. -/
def updateTable (table : Table) (fetched : Fetched) (confs : Confs J) : Confs J :=
  match fetched with
  | .pingFailed => confs
  | .queryFailed => update confs table (storeRows loads table (confs table) [])
  | .alldata rows => update confs table (storeRows loads table (confs table) rows)

def updateSceneConf : Fetched → Confs J → Confs J := updateTable loads .scene
def updateBusinessConf : Fetched → Confs J → Confs J := updateTable loads .business
def updateRestrictCondConf : Fetched → Confs J → Confs J := updateTable loads .restrictCond
def updateUnrestrictCondConf : Fetched → Confs J → Confs J := updateTable loads .unrestrictCond
def updateTaskConf : Fetched → Confs J → Confs J := updateTable loads .task

def updateFixedContentResponseConf : Fetched → Confs J → Confs J :=
  updateTable loads .fixedContentResponse

def updateCommonContentResponseConf : Fetched → Confs J → Confs J :=
  updateTable loads .commonContentResponse

/-- `clear()` of all seven maps. -/
def Confs.clear (_ : Confs J) : Confs J := fun _ _ => none

/-- `update_confs`, between `acquire` and `release`. -/
def updateConfs (fetched : Table → Fetched) (confs : Confs J) : Confs J :=
  let confs := confs.clear
  let confs := updateRestrictCondConf loads (fetched .restrictCond) confs
  let confs := updateUnrestrictCondConf loads (fetched .unrestrictCond) confs
  let confs := updateTaskConf loads (fetched .task) confs
  let confs := updateFixedContentResponseConf loads (fetched .fixedContentResponse) confs
  let confs := updateCommonContentResponseConf loads (fetched .commonContentResponse) confs
  let confs := updateSceneConf loads (fetched .scene) confs
  updateBusinessConf loads (fetched .business) confs

/-- The map of a table that has been read, or was not read at all. -/
def Fetched.map (table : Table) : Fetched → Str → Option (Entry J table)
  | .alldata rows => storeRows loads table (fun _ => none) rows
  | _ => fun _ => none

theorem updateTable_self {confs : Confs J} (h : confs table = fun _ => none) (fetched : Fetched) :
    updateTable loads table fetched confs table = fetched.map loads table := by
  cases fetched with
  | pingFailed => exact h
  | queryFailed => rw [updateTable, update_self, h]; rfl
  | alldata rows => rw [updateTable, update_self, h]; rfl

theorem updateTable_of_ne {confs : Confs J} (h : table' ≠ table) (fetched : Fetched) :
    updateTable loads table fetched confs table' = confs table' := by
  cases fetched with
  | pingFailed => rfl
  | queryFailed => exact update_of_ne h _ _
  | alldata rows => exact update_of_ne h _ _

/-- The order of the loads. -/
def loadOrder : List Table :=
  [.restrictCond, .unrestrictCond, .task, .fixedContentResponse, .commonContentResponse, .scene,
    .business]

theorem mem_loadOrder (table : Table) : table ∈ loadOrder := by
  cases table <;> decide

/-- Loads one after the other fill the maps of their tables. -/
theorem foldl_updateTable {tables : List Table} (hnodup : tables.Nodup) (fetched : Table → Fetched)
    {confs : Confs J} (hempty : ∀ table ∈ tables, confs table = fun _ => none) (table : Table) :
    tables.foldl (fun confs table => updateTable loads table (fetched table) confs) confs table =
      if table ∈ tables then (fetched table).map loads table else confs table := by
  induction tables generalizing confs with
  | nil => rfl
  | cons first tables ih =>
      obtain ⟨hnot, hnodup⟩ := List.nodup_cons.mp hnodup
      have hfirst := hempty first List.mem_cons_self
      rw [List.foldl_cons, ih hnodup fun other hother => ?_]
      · by_cases hmem : table ∈ tables
        · rw [if_pos hmem, if_pos (List.mem_cons_of_mem _ hmem)]
        · rw [if_neg hmem]
          by_cases heq : table = first
          · subst heq
            rw [if_pos List.mem_cons_self, updateTable_self loads hfirst]
          · rw [if_neg (by simp [heq, hmem]), updateTable_of_ne loads heq]
      · have hne : other ≠ first := fun e => hnot (e ▸ hother)
        rw [updateTable_of_ne loads hne, hempty other (List.mem_cons_of_mem _ hother)]

/-- What `update_confs` leaves, whatever was there. -/
theorem updateConfs_apply (fetched : Table → Fetched) (confs : Confs J) (table : Table) :
    updateConfs loads fetched confs table = (fetched table).map loads table := by
  have hnodup : loadOrder.Nodup := by decide
  have hempty : ∀ table ∈ loadOrder, confs.clear table = fun _ => none := fun _ _ => rfl
  have hfold := foldl_updateTable loads hnodup fetched hempty table
  rw [if_pos (mem_loadOrder table)] at hfold
  exact hfold

end Load

/-! ## the threads -/

/-- How far a call of `update_confs` is. -/
inductive Phase
  /-- before `clear()` -/
  | start
  /-- before the load of the first of these tables -/
  | loading (tables : List Table)
  /-- in a load, with these rows not stored yet; the other tables come after it -/
  | storing (table : Table) (rows : List Row) (tables : List Table)

/-- What a thread does under the lock. -/
inductive Job
  | update (phase : Phase)
  /-- before `get(unitag, {})` of a `query_…` function -/
  | query (table : Table) (unitag : Str)
  /-- behind it -/
  | answered

/-- A thread that gets the lock begins an update or a query. -/
def Job.Starts : Job → Prop
  | .update .start => True
  | .query _ _ => True
  | _ => False

/-- A thread releases the lock behind the last load, or with its answer. -/
def Job.Done : Job → Prop
  | .update (.loading []) => True
  | .answered => True
  | _ => False

section Threads

variable {J : Type} (loads : Str → Option (Option (Dict J)))

/-- One step under the lock; the input is what a load meets, and the output what a query
finds. -/
def confStep (confs : Confs J) (job : Job) (fetched : Fetched) :
    Except Fault (Confs J × Job × Option ((table : Table) × Option (Entry J table))) :=
  match job with
  | .update .start => .ok (confs.clear, .update (.loading loadOrder), none)
  | .update (.loading []) => .error .assertion
  | .update (.loading (table :: tables)) =>
      match fetched with
      | .alldata rows => .ok (confs, .update (.storing table rows tables), none)
      | _ => .ok (confs, .update (.loading tables), none)
  | .update (.storing _ [] tables) => .ok (confs, .update (.loading tables), none)
  | .update (.storing table (row :: rows) tables) =>
      .ok (update confs table (storeRow loads table (confs table) row),
        .update (.storing table rows tables), none)
  | .query table unitag => .ok (confs, .answered, some ⟨table, confs table unitag⟩)
  | .answered => .error .assertion

/-- The maps are those of before the first update, or what a whole update has left. -/
def Whole (confs₀ confs : Confs J) : Prop :=
  confs = confs₀ ∨ ∃ fetched before, confs = updateConfs loads fetched before

/-- What the maps are under the lock: in an update the tables that come have empty maps, and
those that have been loaded what they are filled with in the end. -/
def UnderLock (confs₀ confs : Confs J) : Job → Prop
  | .update .start => Whole loads confs₀ confs
  | .update (.loading tables) => tables.Nodup ∧ ∃ fetched : Table → Fetched, ∀ table,
      confs table = if table ∈ tables then fun _ => none else (fetched table).map loads table
  | .update (.storing table _ tables) => (table :: tables).Nodup ∧
      ∃ stored, confs table = storeRows loads table (fun _ => none) stored ∧
      ∃ fetched : Table → Fetched, ∀ other, other ≠ table →
        confs other = if other ∈ tables then fun _ => none else (fetched other).map loads other
  | .query _ _ => Whole loads confs₀ confs
  | .answered => Whole loads confs₀ confs

variable {loads} {confs₀ confs confs' : Confs J}

theorem underLock_starts (job : Job) (hjob : job.Starts) (h : Whole loads confs₀ confs) :
    UnderLock loads confs₀ confs job := by
  match job, hjob with
  | .update .start, _ => exact h
  | .query _ _, _ => exact h

theorem underLock_done (job : Job) (hjob : job.Done) (h : UnderLock loads confs₀ confs job) :
    Whole loads confs₀ confs := by
  match job, hjob with
  | .answered, _ => exact h
  | .update (.loading []), _ =>
      obtain ⟨-, fetched, hall⟩ := h
      refine .inr ⟨fetched, confs₀, funext fun table => ?_⟩
      rw [hall, if_neg List.not_mem_nil, updateConfs_apply]

/-- Behind the load of a table. -/
theorem loaded_next {tables : List Table} (hnodup : (table :: tables).Nodup) (met : Fetched)
    (hself : confs table = met.map loads table)
    (hother : ∃ fetched : Table → Fetched, ∀ other, other ≠ table →
      confs other = if other ∈ tables then fun _ => none else (fetched other).map loads other) :
    UnderLock loads confs₀ confs (.update (.loading tables)) := by
  obtain ⟨hnot, hnodup⟩ := List.nodup_cons.mp hnodup
  obtain ⟨fetched, hother⟩ := hother
  refine ⟨hnodup, update fetched table met, fun other => ?_⟩
  by_cases hne : other = table
  · subst hne
    rw [if_neg hnot, update_self, hself]
  · rw [update_of_ne hne, hother other hne]

/-- One step keeps what the maps are under the lock. -/
theorem confStep_underLock (h : UnderLock loads confs₀ confs job)
    (hstep : confStep loads confs job fetched = .ok (confs', job', o)) :
    UnderLock loads confs₀ confs' job' := by
  match job with
  | .update .start =>
      cases hstep
      refine ⟨by decide, fun _ => .pingFailed, fun table => ?_⟩
      rw [if_pos (mem_loadOrder table)]
      rfl
  | .update (.loading []) => cases hstep
  | .update (.loading (table :: tables)) =>
      obtain ⟨hnodup, before, hall⟩ := h
      have hempty : confs table = fun _ => none := by rw [hall, if_pos List.mem_cons_self]
      have hother : ∀ other, other ≠ table →
          confs other =
            if other ∈ tables then fun _ => none else (before other).map loads other := by
        intro other hne
        rw [hall]
        simp [hne]
      cases fetched with
      | alldata rows =>
          cases hstep
          exact ⟨hnodup, [], hempty, before, hother⟩
      | pingFailed =>
          cases hstep
          exact loaded_next hnodup .pingFailed hempty ⟨before, hother⟩
      | queryFailed =>
          cases hstep
          exact loaded_next hnodup .queryFailed hempty ⟨before, hother⟩
  | .update (.storing table [] tables) =>
      cases hstep
      obtain ⟨hnodup, stored, hself, hother⟩ := h
      exact loaded_next hnodup (.alldata stored) hself hother
  | .update (.storing table (row :: rows) tables) =>
      cases hstep
      obtain ⟨hnodup, stored, hself, before, hother⟩ := h
      refine ⟨hnodup, stored ++ [row], ?_, before, fun other hne => ?_⟩
      · rw [update_self, hself, storeRows, List.foldl_append]
        rfl
      · rw [update_of_ne hne, hother other hne]
  | .query table unitag =>
      cases hstep
      exact h
  | .answered => cases hstep

variable (loads) (confs₀)

/-- The semaphore starts at one, and the maps as they are when the threads begin. -/
abbrev ConfRun (t : List (MutexOp Job Fetched ×
      Option (Option ((table : Table) × Option (Entry J table)))))
    (s : Guarded (Confs J) Job) : Prop :=
  Run (mutexStep (confStep loads)) (MutexOp.Enabled Job.Starts Job.Done) (Guarded.init confs₀) t s

/-- **No query sees a map that is partly filled**, however the threads take turns. -/
theorem query_sees_whole (hrun : ConfRun loads confs₀ t s)
    (hquery : s.inside tid = some (.query table unitag)) : Whole loads confs₀ s.shared := by
  have hheld := mutex_invariant (P := Whole loads confs₀) (Q := UnderLock loads confs₀)
    (fun _ job hjob h => underLock_starts job hjob h)
    (fun _ _ _ _ _ _ h hstep => confStep_underLock h hstep)
    (fun _ job hjob h => underLock_done job hjob h) (.inl rfl) hrun
  exact (hheld.of_inside hquery).2.2

end Threads

/-! ## a failed refresh -/

/-- How a load can fail. -/
inductive Failure
  | ping
  | query
  deriving Repr, DecidableEq

/-- What a load of a table meets that has these rows. -/
def fetchedOf (rows : List Row) : Option Failure → Fetched
  | none => .alldata rows
  | some .ping => .pingFailed
  | some .query => .queryFailed

/-- The map of a table with all its rows. -/
def newMap {J : Type} (loads : Str → Option (Option (Dict J))) (table : Table) (rows : List Row) :
    Str → Option (Entry J table) :=
  storeRows loads table (fun _ => none) rows

theorem storeRows_ne_none {J : Type} (loads : Str → Option (Option (Dict J))) (table : Table)
    {m : Str → Option (Entry J table)} {unitag : Str} (h : m unitag ≠ none) (rows : List Row) :
    storeRows loads table m rows unitag ≠ none := by
  induction rows generalizing m with
  | nil => exact h
  | cons row rows ih =>
      refine ih ?_
      rw [storeRow]
      by_cases heq : unitag = row 0
      · rw [heq, update_self]
        exact Option.some_ne_none _
      · rwa [update_of_ne heq]

/-- A table has an empty map only when it has no row. -/
theorem newMap_eq_empty_iff {J : Type} (loads : Str → Option (Option (Dict J))) (table : Table)
    (rows : List Row) : newMap loads table rows = (fun _ => none) ↔ rows = [] := by
  constructor
  · intro h
    cases rows with
    | nil => rfl
    | cons row rows =>
        refine absurd (congrFun h (row 0)) (storeRows_ne_none loads table ?_ rows)
        rw [storeRow, update_self]
        exact Option.some_ne_none _
  · rintro rfl
    rfl

/-- **A refresh keeps or replaces every map** exactly when each table whose load fails has no
rows or had an empty map before; and no query sees a map that is partly filled. -/
theorem update_confs_iff {J : Type} (loads : Str → Option (Option (Dict J)))
    (tables : Table → List Row) (failed : Table → Option Failure) (confs : Confs J) :
    ((∀ table,
        updateConfs loads (fun table => fetchedOf (tables table) (failed table)) confs table =
          newMap loads table (tables table) ∨
        updateConfs loads (fun table => fetchedOf (tables table) (failed table)) confs table =
          confs table) ↔
      ∀ table, failed table ≠ none → tables table = [] ∨ confs table = fun _ => none) ∧
    ∀ t s tid table unitag, ConfRun loads confs t s →
      s.inside tid = some (.query table unitag) → Whole loads confs s.shared := by
  refine ⟨forall_congr' fun table => ?_, fun t s tid table unitag hrun hquery =>
    query_sees_whole loads confs hrun hquery⟩
  rw [updateConfs_apply]
  cases hfailed : failed table with
  | none => exact iff_of_true (.inl rfl) fun h => absurd rfl h
  | some failure =>
      have hempty : (fetchedOf (tables table) (some failure)).map loads table = fun _ => none := by
        cases failure <;> rfl
      rw [hempty, ← newMap_eq_empty_iff loads table]
      simp only [ne_eq, reduceCtorEq, not_false_eq_true, true_imp_iff, eq_comm]

/-- A row with the same text in every column. -/
def rowOf (text : Str) : Row := fun _ => text

/-- After a refresh whose load of the scenes meets a failed `ping`, the scene that was in the
map, and is in the table, is gone. -/
theorem update_confs_loses_scene :
    let loads : Str → Option (Option (Dict Unit)) := fun _ => none
    let tables : Table → List Row := fun _ => [rowOf [97]]
    let before := updateConfs loads (fun table => .alldata (tables table)) fun _ _ => none
    let after := updateConfs loads
      (fun table => if table = .scene then .pingFailed else .alldata (tables table)) before
    (before .scene [97]).isSome ∧ ¬ (after .scene = newMap loads .scene (tables .scene) ∨
      after .scene = before .scene) := by
  dsimp only
  have hbefore := updateConfs_apply (fun _ => none : Str → Option (Option (Dict Unit)))
    (fun _ => .alldata [rowOf [97]]) (fun _ _ => none) .scene
  refine ⟨by rw [hbefore]; rfl, ?_⟩
  rw [hbefore, updateConfs_apply, if_pos rfl]
  rintro (h | h)
  · cases congrFun h [97]
  · cases congrFun h [97]

end TipsHandler
end PythonProjects
end MySrc
