import MySrc.TemplateHttp.HttpRequestPacket

/-!
# MySrc.PythonProjects.TipsHandler

`process_general_tips` of `python_projects/src/service/tips_handler.py`, over the
configuration that `db/db.py` has loaded: the checks of a request, and the loop over the
scenes of its business.

The check of the session is of a variable, `result`, that only the tasks of a scene assign;
so a request that has its parameters ends there (`loopScenes_of_params`), and the loop is
code that no request comes to.

A scene takes its content by reference out of the configuration and sets keys in it, so the
contents are state that outlives the request; `dayno` is a variable that outlives the scene.
Every other variable of the loop is assigned in a scene before it is read there.  An
exception ends the request, and what was written before it stays.

The remote services, redis and the conversions of Python are parameters.  JSON values are
of any type with decidable equality, and a text is one of them.

What a request, and a scene, leave behind for the next is in
`MySrc.PythonProjects.TipsIsolation`.
-/

namespace MySrc
namespace PythonProjects
namespace TipsHandler

open Lib
open Function (update)

/-! ## answers -/

/-- The ids of `service_common.py` that `process_general_tips` uses. -/
inductive TipsId
  | success
  | paramError
  | filtLimit
  | redisError
  | jsonOptError
  | invalidSession
  | visitPlatformError
  | noFoundBusiness
  | confError
  | clusterNoMatch
  deriving Repr, DecidableEq

/-- The exceptions of Python. -/
inductive PyError
  | keyError
  | typeError
  | attributeError
  | valueError
  /-- a local variable is read that is not assigned -/
  | unboundLocalError
  /-- of a connection -/
  | ioError
  deriving Repr, DecidableEq

/-- `d[key]` -/
def getItem (d : StrMap) (key : Str) : Except PyError Str :=
  match d key with
  | none => .error .keyError
  | some value => .ok value

/-- The value of a local variable. -/
def readLocal {α : Type} (v : Option α) : Except PyError α :=
  match v with
  | none => .error .unboundLocalError
  | some value => .ok value

/-- `d.get(key, '')` -/
def getStr (d : StrMap) (key : Str) : Str := (d key).getD []

/-- How a `float` compares with zero. -/
inductive FloatSign
  | negative
  | zero
  /-- positive, or not a number -/
  | other
  deriving Repr, DecidableEq

/-! ## names -/

def keyName : Str := ascii ['k', 'e', 'y']
def valueName : Str := ascii ['v', 'a', 'l', 'u', 'e']
def condKeyName : Str := ascii ['c', 'o', 'n', 'd', '_', 'k', 'e', 'y']
def condValueName : Str := ascii ['c', 'o', 'n', 'd', '_', 'v', 'a', 'l', 'u', 'e']
def uidName : Str := ascii ['u', 'i', 'd']
def pidName : Str := ascii ['p', 'i', 'd']
def sessionidName : Str := ascii ['s', 'e', 's', 's', 'i', 'o', 'n', 'i', 'd']
def callbackName : Str := ascii ['c', 'a', 'l', 'l', 'b', 'a', 'c', 'k']
def businessName : Str := ascii ['b', 'u', 's', 'i', 'n', 'e', 's', 's']
def clusteridName : Str := ascii ['c', 'l', 'u', 's', 't', 'e', 'r', 'i', 'd']
def gradeName : Str := ascii ['g', 'r', 'a', 'd', 'e']
def daynoName : Str := ascii ['d', 'a', 'y', 'n', 'o']
def gameidName : Str := ascii ['g', 'a', 'm', 'e', 'i', 'd']
def optName : Str := ascii ['o', 'p', 't']
def parameterName : Str := ascii ['p', 'a', 'r', 'a', 'm', 'e', 't', 'e', 'r']
def goldcardlevelName : Str :=
  ascii ['g', 'o', 'l', 'd', 'c', 'a', 'r', 'd', 'l', 'e', 'v', 'e', 'l']
def niuxgoldcouponName : Str :=
  ascii ['n', 'i', 'u', 'x', 'g', 'o', 'l', 'd', 'c', 'o', 'u', 'p', 'o', 'n']
def gameidtipsName : Str := ascii ['g', 'a', 'm', 'e', 'i', 'd', 't', 'i', 'p', 's']
def commonName : Str := ascii ['c', 'o', 'm', 'm', 'o', 'n']

/-! ## the configuration -/

/-- A row of the table of scenes. -/
structure SceneConf where
  restrict_cond_tag : Str
  unrestrict_cond_tag : Str
  task_conf_tag : Str
  fixed_rtn_tag : Str
  common_rtn_tag : Str

/-- What `get` finds in the empty dictionary of a scene that is not configured. -/
def SceneConf.none : SceneConf := ⟨[], [], [], [], []⟩

/-- A row of the table of conditions, as it is loaded: the key is its value too. -/
def condMap (cond_key : Str) : StrMap :=
  (StrMap.empty.set condKeyName cond_key).set condValueName cond_key

structure FixedRtn where
  content_key : Str
  content_value : Str

/-- A row of the table of common contents, but for its `content_value`. -/
structure CommonRtn where
  content_cond : Str
  content_key : Str

/-- A dictionary of JSON. -/
abbrev Dict (J : Type) := Str → Option J

/-- The `content_value`s of the common contents by their tags: a dictionary, or another
value of JSON, which has no items to set. -/
abbrev Contents (J : Type) := Str → Option (Dict J)

/-- What `db_conf` has loaded.  `task_limit` need not be a dictionary. -/
structure DbConf (J : Type) where
  m_business_conf : Str → Option Str
  m_scene_conf : Str → Option SceneConf
  m_restrict_cond_conf : Str → Option Str
  m_unrestrict_cond_conf : Str → Option Str
  m_task_conf : Str → Option (Option (Dict J))
  m_fixed_content_response_conf : Str → Option FixedRtn
  m_common_content_response_conf : Str → Option CommonRtn

def querySceneConf {J : Type} (conf : DbConf J) (unitag : Str) : SceneConf :=
  (conf.m_scene_conf unitag).getD .none

/-- The answers of the remote services and of redis, and the conversions of Python.
`check_web_sessionid` can return `None`. -/
structure Services (J : Type) where
  text : Str → J
  check_sessionid : Str → Str → Except PyError Int
  check_web_sessionid : Str → Str → Except PyError (Option Int)
  float : Str → Except PyError FloatSign
  long : Str → Option Int
  visit_dos_service : Str → Str → Except PyError (Option Str)
  visit_glodcardlevel_interface : Str → Except PyError Str
  visit_niuxgoldcoupon_interface : Str → Str → Except PyError Str
  exist_and_insert_4goldcardlevel : Str → Str → Except PyError Int
  exist_and_insert_4niuxgoldcoupon : Str → Str → Except PyError Int
  exist_and_insert : Str → Str → Except PyError Int
  common_exist_and_insert : Str → J → Str → Str → Int → Except PyError Int

/-! ## a scene -/

/-- `scene_rps_map['content']`: the dictionary that the scene has made, or one of the
configuration. -/
inductive Content (J : Type)
  | own (d : Dict J)
  | shared (tag : Str)

/-- `scene_rps_map`; `errinfo` is `dict_errcode` of the result. -/
structure SceneRps (J : Type) where
  result : TipsId
  clusterid : Option Str
  content : Content J

def SceneRps.init {J : Type} : SceneRps J := ⟨.success, .none, .own fun _ => .none⟩

/-- The variables of the loop that are read before they are assigned in a turn, and what a
turn builds. -/
structure Vars (J : Type) where
  dayno : Option Str
  contents : Contents J
  rps : SceneRps J

/-- What a part of a turn ends with: an exception, or `if_jumpout_loop` where it is set. -/
abbrev Outcome := Except PyError (Option TipsId)

/-- `for tag in tags.split('|')`, which a body that sets `if_jumpout_loop` breaks. -/
def forTags {σ : Type} (body : σ → Str → σ × Outcome) : List Str → σ → σ × Outcome
  | [], v => (v, .ok none)
  | tag :: tags, v =>
      if tag = [] then forTags body tags v
      else
        match body v tag with
        | (v, .ok none) => forTags body tags v
        | r => r

/-- What follows a part that has not set `if_jumpout_loop`. -/
def andThen {σ : Type} (r : σ × Outcome) (f : σ → σ × Outcome) : σ × Outcome :=
  match r with
  | (v, .ok none) => f v
  | r => r

section

variable {J : Type} [DecidableEq J] (conf : DbConf J) (svc : Services J) (param_dict : StrMap)

/-- The body of the loop over the restricting conditions. -/
def restrictCond (cond_tag : Str) : Outcome :=
  match conf.m_restrict_cond_conf cond_tag with
  | none => .ok (some .confError)
  | some row => do
      let cond_map := condMap row
      let key ← getItem cond_map keyName
      let isexist := getStr param_dict key
      if isexist = [] then return some .filtLimit
      let value ← getItem cond_map valueName
      if value ≠ [] ∧ value ≠ isexist then return some .filtLimit
      return none

/-- The `clusterid` that a condition asks the service for. -/
def visitCluster : Except PyError (Except TipsId Str) := do
  let uid := getStr param_dict uidName
  if uid = [] then return .error .paramError
  match ← svc.visit_dos_service uid (getStr param_dict businessName) with
  | none => return .error .clusterNoMatch
  | some clusterid =>
      if clusterid = ascii ['-', '2'] then return .error .jsonOptError
      if clusterid = ascii ['-', '1'] then return .error .clusterNoMatch
      return .ok clusterid

/-- The body of the loop over the other conditions, of which only `clusterid` is kept. -/
def unrestrictCond (clusterid : Option Str) (cond_tag : Str) : Option Str × Outcome :=
  match conf.m_unrestrict_cond_conf cond_tag with
  | none => (clusterid, .ok (some .confError))
  | some row =>
      match getItem (condMap row) condKeyName with
      | .error e => (clusterid, .error e)
      | .ok cond_key =>
          if cond_key = clusteridName then
            match visitCluster svc param_dict with
            | .error e => (clusterid, .error e)
            | .ok (.error id) => (clusterid, .ok (some id))
            | .ok (.ok answer) => (some answer, .ok none)
          else (clusterid, .ok none)

/-- A turn of the loop over its conditions, with the `clusterid` that they leave. -/
def sceneCond (confs_map : SceneConf) : Option Str × Outcome :=
  andThen (forTags (fun clusterid tag => (clusterid, restrictCond conf param_dict tag))
    (split 124 confs_map.restrict_cond_tag) none) fun clusterid =>
  forTags (unrestrictCond conf svc param_dict) (split 124 confs_map.unrestrict_cond_tag) clusterid

/-- `scene_rps_map['content'][key] = value` -/
def setContent (v : Vars J) (key : Str) (value : J) : Vars J × Outcome :=
  match v.rps.content with
  | .own d =>
      ({ v with rps := { v.rps with content := .own (update d key (some value)) } }, .ok none)
  | .shared tag =>
      match v.contents tag with
      | none => (v, .error .typeError)
      | some d =>
          ({ v with contents := update v.contents tag (some (update d key (some value))) },
            .ok none)

/-- The content of a row becomes that of the scene, with the `clusterid` set in it. -/
def takeContent (v : Vars J) (rtn_tag : Str) : Vars J × Outcome :=
  setContent { v with rps := { v.rps with content := .shared rtn_tag } } clusteridName
    (svc.text (v.rps.clusterid.getD []))

/-- What the key of a row asks of the request before its content is taken. -/
def checkRtn (clusterid : Option Str) (rtn_map : CommonRtn) : Outcome :=
  if rtn_map.content_key = gradeName then do
    let uid := getStr param_dict uidName
    if uid = [] then return some .paramError
    let goldcardlevel ← svc.visit_glodcardlevel_interface uid
    if (← svc.float goldcardlevel) = .negative then return some .visitPlatformError
    if goldcardlevel ≠ rtn_map.content_cond then return some .filtLimit
    return none
  else if rtn_map.content_key = daynoName then do
    let uid := getStr param_dict uidName
    if uid = [] then return some .paramError
    let dayno := rtn_map.content_cond
    if dayno = [] then return some .confError
    let overdue ← svc.visit_niuxgoldcoupon_interface uid dayno
    match ← svc.float overdue with
    | .negative => return some .visitPlatformError
    | .zero => return some .filtLimit
    | .other => return none
  else if rtn_map.content_key = gameidName then
    let gameid := getStr param_dict gameidName
    if gameid = [] then .ok (some .paramError)
    else if gameid ≠ rtn_map.content_cond then .ok (some .filtLimit)
    else .ok none
  else
    let clusterid_value := rtn_map.content_cond
    if clusterid_value = [] then .ok (some .confError)
    else if clusterid_value ≠ clusterid.getD [] then .ok (some .filtLimit)
    else .ok none

/-- The keys of the rows whose content may be taken. -/
def isRtnKey (rtn_key : Str) : Bool :=
  rtn_key = gradeName ∨ rtn_key = daynoName ∨ rtn_key = gameidName ∨ rtn_key = clusteridName

/-- The body of the loop over the common contents. -/
def commonRtn (v : Vars J) (rtn_tag : Str) : Vars J × Outcome :=
  match conf.m_common_content_response_conf rtn_tag with
  | none => (v, .ok (some .confError))
  | some rtn_map =>
      if isRtnKey rtn_map.content_key then
        -- the variable is assigned as soon as the request has a `uid`
        let v := if rtn_map.content_key = daynoName ∧ getStr param_dict uidName ≠ [] then
          { v with dayno := some rtn_map.content_cond } else v
        match checkRtn svc param_dict v.rps.clusterid rtn_map with
        | .ok none => takeContent svc v rtn_tag
        | r => (v, r)
      else (v, .ok none)

/-- The body of the loop over the fixed contents. -/
def fixedRtn (v : Vars J) (rtn_tag : Str) : Vars J × Outcome :=
  match conf.m_fixed_content_response_conf rtn_tag with
  | none => (v, .ok (some .confError))
  | some rtn_map => setContent v rtn_map.content_key (svc.text rtn_map.content_value)

/-- What redis says about a tip that is to be shown once. -/
def redisResult (result : Int) : Option TipsId :=
  if result = -1 then some .redisError else if result = 1 then some .filtLimit else none

/-- The body of the loop over the tasks. -/
def task (dayno : Option Str) (task_tag : Str) : Outcome :=
  match conf.m_task_conf task_tag with
  | none => .ok (some .confError)
  | some none => .error .attributeError
  | some (some task_limit) =>
      let opt := (task_limit optName).getD (svc.text [])
      let parameter := (task_limit parameterName).getD (svc.text [])
      if opt = svc.text goldcardlevelName then do
        let uid := getStr param_dict uidName
        if uid = [] then return some .paramError
        return redisResult (← svc.exist_and_insert_4goldcardlevel uid uid)
      else if opt = svc.text niuxgoldcouponName then do
        let uid := getStr param_dict uidName
        if uid = [] then return some .paramError
        return redisResult (← svc.exist_and_insert_4niuxgoldcoupon uid uid)
      else if opt = svc.text gameidtipsName then do
        let pid := getStr param_dict pidName
        if pid = [] then return some .paramError
        return redisResult (← svc.exist_and_insert pid pid)
      else if opt = svc.text commonName then do
        let param_value := getStr param_dict parameterName
        if param_value = [] then return some .paramError
        -- a variable that is not assigned yet raises an exception that is caught
        match dayno.bind fun dayno => (svc.long dayno).map fun dayno_int => (dayno, dayno_int) with
        | none => return some .confError
        | some (dayno, dayno_int) =>
            if dayno_int < 1 then return some .confError
            return redisResult (← svc.common_exist_and_insert (getStr param_dict businessName)
              parameter param_value dayno dayno_int)
      else .ok none

/-- A turn of the loop up to its tasks. -/
def sceneContent (v : Vars J) (confs_map : SceneConf) : Vars J × Outcome :=
  let (clusterid, outcome) := sceneCond conf svc param_dict confs_map
  andThen ({ v with rps := { v.rps with clusterid := clusterid } }, outcome) fun v =>
  andThen (forTags (commonRtn conf svc param_dict) (split 124 confs_map.common_rtn_tag) v) fun v =>
  forTags (fixedRtn conf svc) (split 124 confs_map.fixed_rtn_tag) v

/-- The tasks of a scene. -/
def sceneTasks (dayno : Option Str) (confs_map : SceneConf) : Outcome :=
  (forTags (fun _ tag => ((), task conf svc param_dict dayno tag))
    (split 124 confs_map.task_conf_tag) ()).2

/-- What the loop keeps from one scene to the next. -/
structure LoopState (J : Type) where
  dayno : Option Str
  contents : Contents J

/-- What becomes of the result when a part has set `if_jumpout_loop`. -/
def SceneRps.finish (rps : SceneRps J) : Outcome → Except PyError (SceneRps J)
  | .error e => .error e
  | .ok none => .ok rps
  | .ok (some id) => .ok { rps with result := id }

/-- One turn of the loop. -/
def runScene (s : LoopState J) (scene : Str) : LoopState J × Except PyError (SceneRps J) :=
  let confs_map := querySceneConf conf scene
  let (v, outcome) :=
    andThen (sceneContent conf svc param_dict ⟨s.dayno, s.contents, .init⟩ confs_map) fun v =>
    (v, sceneTasks conf svc param_dict v.dayno confs_map)
  (⟨v.dayno, v.contents⟩, v.rps.finish outcome)

/-- The loop over the scenes. -/
def runScenes : List Str → LoopState J → LoopState J × Except PyError (List (SceneRps J))
  | [], s => (s, .ok [])
  | scene :: scenes, s =>
      if scene = [] then runScenes scenes s
      else
        match runScene conf svc param_dict s scene with
        | (s, .error e) => (s, .error e)
        | (s, .ok rps) =>
            match runScenes scenes s with
            | (s, .error e) => (s, .error e)
            | (s, .ok result_list) => (s, .ok (rps :: result_list))

/-- A `scene_rps_map` with the items of its content. -/
structure Shown (J : Type) where
  result : TipsId
  clusterid : Option Str
  content : Option (Dict J)

/-- What a result is when the configuration has these contents. -/
def SceneRps.show (contents : Contents J) (rps : SceneRps J) : Shown J where
  result := rps.result
  clusterid := rps.clusterid
  content :=
    match rps.content with
    | .own d => some d
    | .shared tag => contents tag

/-- The loop over some scenes: the contents it leaves, and `result_list` as it is then, which
there is none of after an exception. -/
def processScenes (contents : Contents J) (scenes : List Str) :
    Contents J × Except PyError (List (Shown J)) :=
  let (s, results) := runScenes conf svc param_dict scenes ⟨none, contents⟩
  (s.contents, results.map fun result_list => result_list.map (SceneRps.show s.contents))

/-- The result of a scene as it is appended to `result_list`, after the scenes before it. -/
def sceneResult (contents : Contents J) (before : List Str) (scene : Str) : Option (Shown J) :=
  match runScenes conf svc param_dict before ⟨none, contents⟩ with
  | (_, .error _) => none
  | (s, .ok _) =>
      let (s, result) := runScene conf svc param_dict s scene
      result.toOption.map (SceneRps.show s.contents)

/-! ## a request -/

/-- `result_int`: what the check of the session returns, of a box or of a web page. -/
def checkSession : Except PyError (Option Int) :=
  let sessionid := getStr param_dict sessionidName
  let uid := getStr param_dict uidName
  if getStr param_dict callbackName = [] then (svc.check_sessionid sessionid uid).map some
  else svc.check_web_sessionid sessionid uid

/-- `process_general_tips` up to the loop: the id that is the only answer, or
`scenes['scene_tag'].split('|')`. -/
def loopScenes : Except PyError (Except TipsId (List Str)) := do
  -- a local variable of the function, assigned by the tasks of a scene
  let result : Option Int := none
  let business := getStr param_dict businessName
  if business = [] ∨ getStr param_dict sessionidName = [] ∨ getStr param_dict uidName = [] then
    return .error .paramError
  let _result_int ← checkSession svc param_dict
  let result ← readLocal result
  if result = -1 ∨ result = 1 then return .error .invalidSession
  match conf.m_business_conf business with
  | none => return .error .noFoundBusiness
  | some scene_tag => return .ok (split 124 scene_tag)

/-- `result_list` when it is serialised: one dictionary with an id and without content, or
the results of the scenes. -/
inductive Reply (J : Type)
  | refused (id : TipsId)
  | scenes (result_list : List (Shown J))

/-- The contents that a request leaves, and its answer. -/
def processGeneralTips (contents : Contents J) : Contents J × Except PyError (Reply J) :=
  match loopScenes conf svc param_dict with
  | .error e => (contents, .error e)
  | .ok (.error id) => (contents, .ok (.refused id))
  | .ok (.ok scenes) =>
      let (contents, results) := processScenes conf svc param_dict contents scenes
      (contents, results.map .scenes)

omit [DecidableEq J] in
/-- **No request comes to the loop**: without its parameters it is refused, and with them
it ends in an exception, of the check of its session or of the variable behind it. -/
theorem loopScenes_ne_scenes (scenes : List Str) :
    loopScenes conf svc param_dict ≠ .ok (.ok scenes) := by
  intro h
  unfold loopScenes at h
  simp only at h
  split at h
  · cases h
  · obtain ⟨result_int, -, h⟩ := bind_eq_ok.mp h
    cases h

omit [DecidableEq J] in
theorem loopScenes_of_params {result_int : Option Int}
    (hbusiness : getStr param_dict businessName ≠ [])
    (hsessionid : getStr param_dict sessionidName ≠ [])
    (huid : getStr param_dict uidName ≠ []) (hsession : checkSession svc param_dict = .ok result_int) :
    loopScenes conf svc param_dict = .error .unboundLocalError := by
  have hparams : ¬(getStr param_dict businessName = [] ∨ getStr param_dict sessionidName = [] ∨
      getStr param_dict uidName = []) := by
    simp [hbusiness, hsessionid, huid]
  simp only [loopScenes, if_neg hparams, hsession, ok_bind]
  rfl

end

end TipsHandler
end PythonProjects
end MySrc
