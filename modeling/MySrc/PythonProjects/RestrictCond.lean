import MySrc.PythonProjects.DbConf
import MySrc.PythonProjects.TipsIsolation

/-!
# MySrc.PythonProjects.RestrictCond

The restricting conditions from their table to the answer of a scene: `update_restrict_cond_conf`
of `db.py` loads the rows, and the loop of `process_general_tips` looks them up by the tags
of the scene.

The loader names the columns `cond_key` and `cond_value`, and the loop asks for `key` and
`value`; so the first tag that is in the table would end the request with an exception
(`restrictMeans_iff`).  But a request ends before its first scene, so that none of its
scenes is passed or refused (`restrict_conditions_iff`).
-/

namespace MySrc
namespace PythonProjects
namespace TipsHandler

open Lib
open Function (update update_of_ne update_self)

/-! ## what the table says -/

/-- The row of a tag: the last one, where several have it. -/
def tableRow (rows : List Row) (tag : Str) : Option Row :=
  rows.reverse.find? fun row => row 0 = tag

/-- The request has the parameter of the row, with its value if there is one. -/
def CondMet (param_dict : StrMap) (row : Row) : Prop :=
  getStr param_dict (row 1) ≠ [] ∧ (row 2 ≠ [] → row 2 = getStr param_dict (row 1))

instance (param_dict : StrMap) (row : Row) : Decidable (CondMet param_dict row) :=
  inferInstanceAs (Decidable (_ ∧ (_ → _)))

/-- The id with which a tag refuses a scene. -/
def tagRefusal (rows : List Row) (param_dict : StrMap) (tag : Str) : Option TipsId :=
  match tableRow rows tag with
  | none => some .confError
  | some row => if CondMet param_dict row then none else some .filtLimit

/-- The tags of a scene that are not empty. -/
def condTags (confs_map : SceneConf) : List Str :=
  (split 124 confs_map.restrict_cond_tag).filter (· ≠ [])

theorem tagRefusal_eq_none_iff (rows : List Row) (param_dict : StrMap) (tag : Str) :
    tagRefusal rows param_dict tag = none ↔
      ∃ row, tableRow rows tag = some row ∧ CondMet param_dict row := by
  rw [tagRefusal]
  cases tableRow rows tag with
  | none => simp
  | some row => simp

/-- No tag refuses the scene when the request meets all conditions. -/
theorem condTags_met_iff (rows : List Row) (param_dict : StrMap) (confs_map : SceneConf) :
    (condTags confs_map).findSome? (tagRefusal rows param_dict) = none ↔
      ∀ tag ∈ condTags confs_map, ∃ row, tableRow rows tag = some row ∧ CondMet param_dict row := by
  rw [List.findSome?_eq_none_iff]
  exact forall₂_congr fun tag _ => tagRefusal_eq_none_iff rows param_dict tag

/-! ## what the code does -/

section

variable {J : Type}

/-- What the loop reads of the maps. -/
def Confs.dbConf (confs : Confs J) : DbConf J where
  m_business_conf := confs .business
  m_scene_conf := confs .scene
  m_restrict_cond_conf := confs .restrictCond
  m_unrestrict_cond_conf := confs .unrestrictCond
  m_task_conf := confs .task
  m_fixed_content_response_conf := confs .fixedContentResponse
  m_common_content_response_conf tag := (confs .commonContentResponse tag).map Prod.fst

variable [DecidableEq J] (conf : DbConf J) (svc : Services J) (param_dict : StrMap)

/-- The loop over the restricting conditions of a scene, with which `sceneCond` begins. -/
def restrictStage (confs_map : SceneConf) : Outcome :=
  (forTags (fun clusterid tag => (clusterid, restrictCond conf param_dict tag))
    (split 124 confs_map.restrict_cond_tag) (none : Option Str)).2

omit [DecidableEq J] in
theorem restrictStage_eq (confs_map : SceneConf) :
    restrictStage conf param_dict confs_map =
      stop (restrictCond conf param_dict) (split 124 confs_map.restrict_cond_tag) := by
  rw [restrictStage, forTags_check]

/-- A scene that the stage does not pass has only its id, or ends the request. -/
theorem runScene_of_restrictStage {scene : Str} {r : Outcome}
    (hstage : restrictStage conf param_dict (querySceneConf conf scene) = r) (hr : r ≠ .ok none)
    (s : LoopState J) :
    runScene conf svc param_dict s scene = (s, SceneRps.init.finish r) := by
  rw [restrictStage_eq] at hstage
  have hcond : sceneCond conf svc param_dict (querySceneConf conf scene) = (none, r) := by
    rw [sceneCond, forTags_check, hstage]
    cases r with
    | error e => rfl
    | ok jumpout =>
        cases jumpout with
        | none => exact absurd rfl hr
        | some id => rfl
  rw [runScene, sceneContent, hcond]
  cases r with
  | error e => rfl
  | ok jumpout =>
      cases jumpout with
      | none => exact absurd rfl hr
      | some id => rfl

/-- The loop goes on behind a scene that has an answer. -/
theorem runScenes_cons {scene : Str} {rps : SceneRps J} {s : LoopState J} (hscene : scene ≠ [])
    (hrun : runScene conf svc param_dict s scene = (s, .ok rps))
    (scenes : List Str) :
    runScenes conf svc param_dict (scene :: scenes) s =
      ((runScenes conf svc param_dict scenes s).1,
        (runScenes conf svc param_dict scenes s).2.map fun result_list =>
          rps :: result_list) := by
  rw [runScenes, if_neg hscene, hrun]
  dsimp only
  obtain ⟨s', results⟩ := runScenes conf svc param_dict scenes s
  cases results with
  | ok result_list => rfl
  | error e => rfl

/-! ## the tag that decides -/

/-- A loop that comes to no tag passes. -/
theorem stop_of_filter_eq_nil {check : Str → Outcome} {tags : List Str}
    (h : tags.filter (· ≠ []) = []) : stop check tags = .ok none := by
  induction tags with
  | nil => rfl
  | cons tag tags ih =>
      by_cases htag : tag = []
      · rw [stop, if_pos htag]
        exact ih (by simpa [htag] using h)
      · simp [htag] at h

/-- The first tag decides when it does not let the loop go on. -/
theorem stop_of_head {check : Str → Outcome} {tags : List Str} {tag : Str}
    (h : (tags.filter (· ≠ [])).head? = some tag) (hcheck : check tag ≠ .ok none) :
    stop check tags = check tag := by
  induction tags with
  | nil => cases h
  | cons t tags ih =>
      by_cases ht : t = []
      · rw [stop, if_pos ht]
        exact ih (by simpa [ht] using h)
      · obtain rfl : t = tag := by simpa [ht] using h
        rw [stop, if_neg ht]
        cases hends : check t with
        | error e => rfl
        | ok jumpout =>
            cases jumpout with
            | none => exact absurd hends hcheck
            | some id => rfl

end

/-! ## what is loaded -/

section

variable {J : Type} (loads : Str → Option (Option (Dict J)))

/-- A map holds of a tag the last row that has it. -/
theorem storeRows_apply (table : Table) (m : Str → Option (Entry J table)) (rows : List Row)
    (unitag : Str) :
    storeRows loads table m rows unitag =
      ((tableRow rows unitag).map fun row => keyMap loads row table).or (m unitag) := by
  induction rows generalizing m with
  | nil => rfl
  | cons row rows ih =>
      have hcons : storeRows loads table m (row :: rows) =
        storeRows loads table (storeRow loads table m row) rows := rfl
      have hlast : tableRow (row :: rows) unitag =
          (tableRow rows unitag).or (if row 0 = unitag then some row else none) := by
        rw [tableRow, List.reverse_cons, List.find?_append, ← tableRow]
        by_cases htag : row 0 = unitag
        · simp [htag]
        · simp [htag]
      rw [hcons, ih, hlast, storeRow]
      cases tableRow rows unitag with
      | some last => rfl
      | none =>
          by_cases htag : row 0 = unitag
          · simp [htag]
          · simp [htag, update_of_ne (Ne.symm htag)]

/-- The configuration behind a refresh that has read these restricting conditions, whatever
it has met at the other tables. -/
def restrictConf (fetched : Table → Fetched) (rows : List Row) (before : Confs J) : DbConf J :=
  (updateConfs loads (update fetched .restrictCond (.alldata rows)) before).dbConf

variable (fetched : Table → Fetched) (rows : List Row) (before : Confs J)

theorem restrictConf_apply (tag : Str) :
    (restrictConf loads fetched rows before).m_restrict_cond_conf tag =
      (tableRow rows tag).map fun row => row 1 := by
  have hmap := updateConfs_apply loads (update fetched .restrictCond (.alldata rows)) before
    .restrictCond
  rw [update_self] at hmap
  have htag := congrFun hmap tag
  rw [Fetched.map, storeRows_apply, Option.or_none] at htag
  exact htag

/-- A row that is loaded has no `key`. -/
theorem restrictCond_restrictConf (param_dict : StrMap) (tag : Str) :
    restrictCond (restrictConf loads fetched rows before) param_dict tag =
      match tableRow rows tag with
      | none => .ok (some .confError)
      | some _ => .error .keyError := by
  rw [restrictCond, restrictConf_apply]
  cases tableRow rows tag with
  | none => rfl
  | some row =>
      have hkey : getItem (condMap (row 1)) keyName = .error .keyError := by
        have hcond : keyName ≠ condKeyName := by decide
        have hvalue : keyName ≠ condValueName := by decide
        simp [getItem, condMap, StrMap.set, StrMap.empty, hcond, hvalue]
      simp only [Option.map_some, hkey]
      rfl

/-! ## the restrictions of a scene -/

/-- A first tag that is in the table ends the request. -/
theorem restrictStage_of_mem (param_dict : StrMap) {confs_map : SceneConf} {tag : Str} {row : Row}
    (hhead : (condTags confs_map).head? = some tag) (hrow : tableRow rows tag = some row) :
    restrictStage (restrictConf loads fetched rows before) param_dict confs_map =
      .error .keyError := by
  have hcheck : restrictCond (restrictConf loads fetched rows before) param_dict tag =
      .error .keyError := by
    rw [restrictCond_restrictConf, hrow]
  rw [restrictStage_eq, stop_of_head hhead (by rw [hcheck]; exact nofun), hcheck]

/-- A first tag that is not in the table gives the scene the id of a wrong configuration. -/
theorem restrictStage_of_notMem (param_dict : StrMap) {confs_map : SceneConf} {tag : Str}
    (hhead : (condTags confs_map).head? = some tag) (hrow : tableRow rows tag = none) :
    restrictStage (restrictConf loads fetched rows before) param_dict confs_map =
      .ok (some .confError) := by
  have hcheck : restrictCond (restrictConf loads fetched rows before) param_dict tag =
      .ok (some .confError) := by
    rw [restrictCond_restrictConf, hrow]
  rw [restrictStage_eq, stop_of_head hhead (by rw [hcheck]; exact nofun), hcheck]

variable [DecidableEq J] (conf : DbConf J) (svc : Services J) (param_dict : StrMap) (scene : Str)

/-- The conditions of a scene mean what the table says: they are passed when the request
meets all of them, and otherwise the scene has the id of the first that refuses it, and the
next scene has its turn. -/
structure RestrictMeans : Prop where
  passes : restrictStage conf param_dict (querySceneConf conf scene) = .ok none ↔
    ∀ tag ∈ condTags (querySceneConf conf scene),
      ∃ row, tableRow rows tag = some row ∧ CondMet param_dict row
  refuses : ∀ id s,
    (condTags (querySceneConf conf scene)).findSome? (tagRefusal rows param_dict) = some id →
      runScene conf svc param_dict s scene = (s, .ok { SceneRps.init with result := id }) ∧
      (scene ≠ [] → ∀ scenes, runScenes conf svc param_dict (scene :: scenes) s =
        ((runScenes conf svc param_dict scenes s).1,
          (runScenes conf svc param_dict scenes s).2.map fun result_list =>
            { SceneRps.init with result := id } :: result_list))

variable {loads fetched rows before conf svc param_dict scene}

theorem restrictMeans_of_no_tag (hnil : condTags (querySceneConf conf scene) = []) :
    RestrictMeans rows conf svc param_dict scene where
  passes := by
    simp only [hnil, List.not_mem_nil, false_imp_iff, implies_true, iff_true]
    rw [restrictStage_eq, stop_of_filter_eq_nil hnil]
  refuses id s hid := by
    rw [hnil] at hid
    cases hid

theorem restrictMeans_of_notMem {tag : Str} (hconf : conf = restrictConf loads fetched rows before)
    (hhead : (condTags (querySceneConf conf scene)).head? = some tag)
    (hrow : tableRow rows tag = none) : RestrictMeans rows conf svc param_dict scene := by
  subst hconf
  have hstage := restrictStage_of_notMem loads fetched rows before param_dict hhead hrow
  refine ⟨iff_of_false (by rw [hstage]; exact nofun) fun hall => ?_, fun id s hid => ?_⟩
  · obtain ⟨row, hsome, -⟩ := hall tag (List.mem_of_head? hhead)
    rw [hrow] at hsome
    cases hsome
  · obtain rfl : TipsId.confError = id := by
      obtain ⟨tags, htags⟩ := List.head?_eq_some_iff.mp hhead
      rw [htags, List.findSome?_cons, tagRefusal, hrow] at hid
      exact Option.some.inj hid
    have hrun := runScene_of_restrictStage _ svc param_dict hstage nofun s
    exact ⟨hrun, fun hscene scenes => runScenes_cons _ svc param_dict hscene hrun scenes⟩

theorem not_restrictMeans_of_mem {tag : Str} {row : Row}
    (hconf : conf = restrictConf loads fetched rows before)
    (hhead : (condTags (querySceneConf conf scene)).head? = some tag)
    (hrow : tableRow rows tag = some row) : ¬RestrictMeans rows conf svc param_dict scene := by
  subst hconf
  intro h
  have hstage := restrictStage_of_mem loads fetched rows before param_dict hhead hrow
  cases hid : (condTags (querySceneConf (restrictConf loads fetched rows before)
      scene)).findSome? (tagRefusal rows param_dict) with
  | none =>
      have hpass := h.passes.mpr ((condTags_met_iff rows param_dict _).mp hid)
      rw [hstage] at hpass
      cases hpass
  | some id =>
      have hrun := (h.refuses id ⟨none, fun _ => none⟩ hid).1
      rw [runScene_of_restrictStage _ svc param_dict hstage nofun] at hrun
      cases congrArg Prod.snd hrun

end

section

variable {J : Type} [DecidableEq J] (loads : Str → Option (Option (Dict J)))
  (fetched : Table → Fetched) (rows : List Row) (before : Confs J) (svc : Services J)
  (param_dict : StrMap)

/-- **The loop over the restrictions of a scene** does what the table says exactly when the
first tag of the scene, if it has one, is not in the table. -/
theorem restrictMeans_iff (scene : Str) :
    let conf := restrictConf loads fetched rows before
    RestrictMeans rows conf svc param_dict scene ↔
      ∀ tag, (condTags (querySceneConf conf scene)).head? = some tag →
        tableRow rows tag = none := by
  intro conf
  cases hhead : (condTags (querySceneConf conf scene)).head? with
  | none => exact iff_of_true (restrictMeans_of_no_tag (List.head?_eq_none_iff.mp hhead)) nofun
  | some tag =>
      simp only [Option.some.injEq, forall_eq']
      cases hrow : tableRow rows tag with
      | none => exact iff_of_true (restrictMeans_of_notMem rfl hhead hrow) rfl
      | some row => exact iff_of_false (not_restrictMeans_of_mem rfl hhead hrow) nofun

/-! ## the scenes of a request -/

/-- The scenes that a request is for: those of its business, when it has its parameters and
its session is found good. -/
def dueScenes (conf : DbConf J) : List Str :=
  let business := getStr param_dict businessName
  if business = [] ∨ getStr param_dict sessionidName = [] ∨ getStr param_dict uidName = [] then []
  else
    match checkSession svc param_dict with
    | .error _ => []
    | .ok result_int =>
        if result_int = some (-1) ∨ result_int = some 1 then []
        else
          ((conf.m_business_conf business).elim [] (split 124)).filter (· ≠ [])

/-- In the processing of a request the restrictions of a scene mean what the table says: the
loop comes to the scene, and does with it what they say. -/
structure RestrictServed (conf : DbConf J) (scene : Str) : Prop where
  comes : ∃ scenes, loopScenes conf svc param_dict = .ok (.ok scenes) ∧ scene ∈ scenes
  means : RestrictMeans rows conf svc param_dict scene

/-- **The restrictions of scenes mean what the table says** for a request exactly when the
request has no scene: each other request ends with an exception before its scenes. -/
theorem restrict_conditions_iff :
    (∀ scene ∈ dueScenes svc param_dict (restrictConf loads fetched rows before),
        RestrictServed rows svc param_dict (restrictConf loads fetched rows before) scene) ↔
      dueScenes svc param_dict (restrictConf loads fetched rows before) = [] := by
  constructor
  · intro hserved
    refine List.eq_nil_iff_forall_not_mem.mpr fun scene hscene => ?_
    obtain ⟨scenes, hscenes, -⟩ := (hserved scene hscene).comes
    exact loopScenes_ne_scenes _ svc param_dict scenes hscenes
  · intro hnil scene hscene
    rw [hnil] at hscene
    cases hscene

end

/-- The row of the table: the parameter `k` with the value `v`. -/
def restrictRow : Row := fun column =>
  if column = 0 then ascii ['t'] else if column = 1 then ascii ['k'] else ascii ['v']

/-- The configuration with that row, a scene `s` that has its tag, and a business `b` that has
the scene. -/
def restrictFetched : Table → Fetched
  | .scene => .alldata [fun column => if column = 0 then ascii ['s']
      else if column = 1 then ascii ['t'] else []]
  | .business => .alldata [fun column => if column = 0 then ascii ['b'] else ascii ['s']]
  | _ => .alldata []

/-- The parameters that a request needs, and `k` with the value `v`. -/
def restrictRequest : StrMap := fun key =>
  if key = ascii ['k'] then some (ascii ['v']) else tipsRequest (ascii ['b']) key

/-- A request that meets the only condition of its scene ends before the scene; and at the
scene it would end too. -/
theorem restrict_conditions_unbound :
    let conf := restrictConf (J := Str) (fun _ => none) restrictFetched [restrictRow]
      fun _ _ => none
    dueScenes tipsServices restrictRequest conf = [ascii ['s']] ∧
      CondMet restrictRequest restrictRow ∧
      (processGeneralTips conf tipsServices restrictRequest fun _ => none).2 =
        .error .unboundLocalError ∧
      ¬RestrictServed [restrictRow] tipsServices restrictRequest conf (ascii ['s']) ∧
      restrictStage conf restrictRequest (querySceneConf conf (ascii ['s'])) =
        .error .keyError := by
  intro conf
  have hhead : (condTags (querySceneConf conf (ascii ['s']))).head? = some (ascii ['t']) := by
    decide
  have hrow : tableRow [restrictRow] (ascii ['t']) = some restrictRow := rfl
  refine ⟨by decide, by decide, rfl, fun hserved => ?_, ?_⟩
  · obtain ⟨scenes, hscenes, -⟩ := hserved.comes
    exact loopScenes_ne_scenes conf tipsServices restrictRequest scenes hscenes
  · exact restrictStage_of_mem _ restrictFetched [restrictRow] _ restrictRequest hhead hrow

end TipsHandler
end PythonProjects
end MySrc
