import MySrc.PythonProjects.TipsHandler

/-!
# MySrc.PythonProjects.TipsIsolation

What a request and a scene of `process_general_tips` leave behind for the next.

A *plan* says what the loop does without the state it shares: which items it sets in the
contents of the configuration, what it leaves in `dayno` and what it answers.  It reads
of the contents only which of them are dictionaries, which never changes.  The loop carries
out its plan from every state (`runScenes_eq`), so that two runs differ only in what the
shared contents had before and in a `dayno` that a scene reads and does not assign
(`loop_isolated_iff`).  As it stands the loop is never run, so that requests and scenes
cannot tell what came before them (`tips_isolated`).
-/

namespace MySrc
namespace PythonProjects
namespace TipsHandler

open Lib
open Function (update)

/-! ## items that are set -/

/-- `contents[tag][key] = value` -/
structure Assign (J : Type) where
  tag : Str
  key : Str
  value : J

section

variable {J : Type}

def Assign.apply (contents : Contents J) (a : Assign J) : Contents J :=
  update contents a.tag ((contents a.tag).map fun d => update d a.key (some a.value))

def assignAll (sets : List (Assign J)) (contents : Contents J) : Contents J :=
  sets.foldl Assign.apply contents

/-- The value that an item is given last. -/
def lastSet : List (Assign J) → Str → Str → Option J
  | [], _, _ => none
  | a :: sets, tag, key =>
      (lastSet sets tag key).or (if a.tag = tag ∧ a.key = key then some a.value else none)

/-- What an assignment changes: one key of one dictionary that is there. -/
theorem Assign.apply_apply (contents : Contents J) (a : Assign J) (tag : Str) :
    a.apply contents tag = (contents tag).map fun d key =>
      (if a.tag = tag ∧ a.key = key then some a.value else none).or (d key) := by
  by_cases htag : tag = a.tag
  · subst htag
    rw [Assign.apply, Function.update_self]
    congr 1
    funext d key
    by_cases hkey : key = a.key
    · simp [hkey]
    · simp [Function.update_of_ne hkey, Ne.symm hkey]
  · rw [Assign.apply, Function.update_of_ne htag]
    simp [Ne.symm htag]

/-- What is set last lies over what was there. -/
theorem assignAll_apply (sets : List (Assign J)) (contents : Contents J) (tag : Str) :
    assignAll sets contents tag =
      (contents tag).map fun d key => (lastSet sets tag key).or (d key) := by
  induction sets generalizing contents with
  | nil => simp [assignAll, lastSet]
  | cons a sets ih =>
      have hcons : assignAll (a :: sets) contents = assignAll sets (a.apply contents) := rfl
      rw [hcons, ih, a.apply_apply, Option.map_map]
      congr 1
      funext d key
      simp only [Function.comp, lastSet, Option.or_assoc]

theorem assignAll_append (sets sets' : List (Assign J)) (contents : Contents J) :
    assignAll (sets ++ sets') contents = assignAll sets' (assignAll sets contents) :=
  List.foldl_append

/-- Nothing becomes a dictionary, and nothing ceases to be one. -/
theorem assignAll_isSome (sets : List (Assign J)) (contents : Contents J) (tag : Str) :
    (assignAll sets contents tag).isSome = (contents tag).isSome := by
  rw [assignAll_apply, Option.isSome_map]

/-- Every item of a content that is set before, and not again after, had that value. -/
def NoTrace (contents : Contents J) (before after : List (Assign J)) (tag : Str) : Prop :=
  ∀ d, contents tag = some d → ∀ key value, lastSet after tag key = none →
    lastSet before tag key = some value → d key = some value

/-- Earlier assignments are seen in a dictionary exactly when they leave a trace. -/
theorem assignAll_eq_iff (contents : Contents J) (before after : List (Assign J)) (tag : Str) :
    assignAll after (assignAll before contents) tag = assignAll after contents tag ↔
      NoTrace contents before after tag := by
  rw [assignAll_apply, assignAll_apply, assignAll_apply, NoTrace, Option.map_map]
  cases contents tag with
  | none => simp
  | some d =>
      simp only [Option.map_some, Option.some.injEq, Function.comp, forall_eq']
      constructor
      · intro h key value hafter hbefore
        have hkey := congrFun h key
        simpa only [hafter, hbefore, Option.none_or, Option.some_or] using hkey.symm
      · intro h
        funext key
        cases hafter : lastSet after tag key with
        | some value => rfl
        | none =>
            cases hbefore : lastSet before tag key with
            | none => rfl
            | some value => exact (h key value hafter hbefore).symm

end

/-! ## loops over tags -/

/-- How a loop ends whose turns are decided by their tags alone. -/
def stop (check : Str → Outcome) : List Str → Outcome
  | [] => .ok none
  | tag :: tags =>
      if tag = [] then stop check tags
      else
        match check tag with
        | .ok none => stop check tags
        | r => r

/-- The tags that such a loop comes to. -/
def visited (check : Str → Outcome) : List Str → List Str
  | [] => []
  | tag :: tags =>
      if tag = [] then visited check tags
      else
        match check tag with
        | .ok none => tag :: visited check tags
        | _ => [tag]

/-- **Loop rule**: a body that does to the state what `act` says, and ends as `check` says
while the invariant holds, does so over the tags that the loop comes to. -/
theorem forTags_eq {σ : Type} {body : σ → Str → σ × Outcome} (check : Str → Outcome)
    (act : σ → Str → σ) (inv : σ → Prop)
    (hbody : ∀ v tag, inv v → body v tag = (act v tag, check tag))
    (hinv : ∀ v tag, inv v → check tag = .ok none → inv (act v tag)) (tags : List Str) (v : σ)
    (hv : inv v) :
    forTags body tags v = ((visited check tags).foldl act v, stop check tags) := by
  induction tags generalizing v with
  | nil => rfl
  | cons tag tags ih =>
      by_cases htag : tag = []
      · rw [forTags, stop, visited, if_pos htag, if_pos htag, if_pos htag, ih v hv]
      · rw [forTags, stop, visited, if_neg htag, if_neg htag, if_neg htag, hbody v tag hv]
        match hcheck : check tag with
        | .ok none => exact ih _ (hinv v tag hv hcheck)
        | .ok (some _) => rfl
        | .error _ => rfl

/-- A loop of checks that change nothing stops at the first that is not passed. -/
theorem forTags_check {σ : Type} (check : Str → Outcome) (tags : List Str) (v : σ) :
    forTags (fun v tag => (v, check tag)) tags v = (v, stop check tags) := by
  rw [forTags_eq check (fun v _ => v) (fun _ => True) (fun _ _ _ => rfl) (fun _ _ _ _ => trivial)
    tags v trivial, List.foldl_fixed]

/-- A loop that runs to its end has passed everything it came to. -/
theorem check_of_mem_visited {check : Str → Outcome} {tags : List Str}
    (hstop : stop check tags = .ok none) {tag : Str} (htag : tag ∈ visited check tags) :
    check tag = .ok none := by
  induction tags with
  | nil => cases htag
  | cons t tags ih =>
      rw [stop] at hstop
      rw [visited] at htag
      by_cases ht : t = []
      · rw [if_pos ht] at hstop htag
        exact ih hstop htag
      · rw [if_neg ht] at hstop htag
        match hcheck : check t with
        | .ok none =>
            simp only [hcheck] at hstop htag
            cases htag with
            | head => exact hcheck
            | tail _ hmem => exact ih hstop hmem
        | .ok (some _) => simp [hcheck] at hstop
        | .error _ => simp [hcheck] at hstop

/-! ## the plan of a scene -/

section

variable {J : Type} (conf : DbConf J) (svc : Services J) (param_dict : StrMap)
variable (dict : Str → Bool)

/-- The content of a row is taken. -/
def takes (clusterid : Option Str) (tag : Str) : Bool :=
  match conf.m_common_content_response_conf tag with
  | none => false
  | some rtn_map =>
      isRtnKey rtn_map.content_key &&
        match checkRtn svc param_dict clusterid rtn_map with
        | .ok none => true
        | _ => false

/-- How the turn of a row ends. -/
def rtnCheck (clusterid : Option Str) (tag : Str) : Outcome :=
  match conf.m_common_content_response_conf tag with
  | none => .ok (some .confError)
  | some rtn_map =>
      if isRtnKey rtn_map.content_key then
        match checkRtn svc param_dict clusterid rtn_map with
        | .ok none => if dict tag then .ok none else .error .typeError
        | r => r
      else .ok none

/-- What a row assigns to `dayno`. -/
def daynoOf (tag : Str) : Option Str :=
  match conf.m_common_content_response_conf tag with
  | none => none
  | some rtn_map =>
      if rtn_map.content_key = daynoName ∧ getStr param_dict uidName ≠ [] then
        some rtn_map.content_cond
      else none

/-- The item that is set in a content that is taken. -/
def clusterSet (clusterid : Option Str) (tag : Str) : Assign J :=
  ⟨tag, clusteridName, svc.text (clusterid.getD [])⟩

def fixedCheck (tag : Str) : Outcome :=
  match conf.m_fixed_content_response_conf tag with
  | none => .ok (some .confError)
  | some _ => .ok none

/-- The items that rows of the fixed contents set in a content of the configuration. -/
def fixedSets (content : Content J) (rows : List FixedRtn) : List (Assign J) :=
  match content with
  | .own _ => []
  | .shared tag => rows.map fun row => ⟨tag, row.content_key, svc.text row.content_value⟩

/-- What such rows make of the content of a scene. -/
def fixedContent (content : Content J) (rows : List FixedRtn) : Content J :=
  match content with
  | .own d =>
      .own (rows.foldl (fun d row => update d row.content_key (some (svc.text row.content_value))) d)
  | .shared tag => .shared tag

/-- What a turn of the loop does up to its tasks: the `dayno` it assigns, the items it sets
in the contents of the configuration, its result and how it ends. -/
structure Plan (J : Type) where
  dayno : Option Str
  sets : List (Assign J)
  rps : SceneRps J
  outcome : Outcome

/-- The common contents. -/
def commonPlan (clusterid : Option Str) (tags : List Str) : Plan J :=
  let check := rtnCheck conf svc param_dict dict clusterid
  let taken := (visited check tags).filter (takes conf svc param_dict clusterid)
  { dayno := ((visited check tags).filterMap (daynoOf conf param_dict)).getLast?
    sets := taken.map (clusterSet svc clusterid)
    rps := ⟨.success, clusterid, taken.getLast?.elim (.own fun _ => none) .shared⟩
    outcome := stop check tags }

/-- The fixed contents after them. -/
def Plan.fixed (p : Plan J) (tags : List Str) : Plan J :=
  let rows := (visited (fixedCheck conf) tags).filterMap conf.m_fixed_content_response_conf
  { p with
    sets := p.sets ++ fixedSets svc p.rps.content rows
    rps := { p.rps with content := fixedContent svc p.rps.content rows }
    outcome := stop (fixedCheck conf) tags }

def scenePlan (confs_map : SceneConf) : Plan J :=
  match sceneCond conf svc param_dict confs_map with
  | (clusterid, .ok none) =>
      let p := commonPlan conf svc param_dict dict clusterid (split 124 confs_map.common_rtn_tag)
      match p.outcome with
      | .ok none => p.fixed conf svc (split 124 confs_map.fixed_rtn_tag)
      | _ => p
  | (clusterid, r) => ⟨none, [], { SceneRps.init with clusterid := clusterid }, r⟩

/-! ## the loop carries out its plan -/

/-- The contents are dictionaries where `dict` says so. -/
def DictsAre (contents : Contents J) : Prop := ∀ tag, (contents tag).isSome = dict tag

variable {dict}

/-- Assignments change the values in the dictionaries, not which dictionaries there are. -/
theorem DictsAre.assignAll {contents : Contents J} (h : DictsAre dict contents)
    (sets : List (Assign J)) : DictsAre dict (assignAll sets contents) := by
  intro tag
  rw [assignAll_isSome, h tag]

/-- A content that is no dictionary stays as it is. -/
theorem Assign.apply_of_none {contents : Contents J} {a : Assign J}
    (h : contents a.tag = none) : a.apply contents = contents := by
  rw [Assign.apply, h, Option.map_none, ← h, Function.update_eq_self]

/-- A value that is set in a shared dictionary is set for all scenes that share it. -/
theorem setContent_shared {v : Vars J} {tag : Str} (hv : v.rps.content = .shared tag)
    (key : Str) (value : J) :
    setContent v key value =
      ({ v with contents := Assign.apply v.contents ⟨tag, key, value⟩ },
        if (v.contents tag).isSome then .ok none else .error .typeError) := by
  rw [setContent, hv]
  cases htag : v.contents tag with
  | none =>
      have hsame := Assign.apply_of_none (a := ⟨tag, key, value⟩) htag
      simp [htag, hsame]
  | some d => simp [htag, Assign.apply]

/-- A value that is set in the own dictionary of a scene is set for this scene only. -/
theorem setContent_own {v : Vars J} {d : Dict J} (hv : v.rps.content = .own d)
    (key : Str) (value : J) :
    setContent v key value =
      ({ v with rps := { v.rps with content := .own (update d key (some value)) } },
        .ok none) := by
  rw [setContent, hv]

/-- What a row of the common contents does. -/
def commonAct (clusterid : Option Str) (v : Vars J) (tag : Str) : Vars J where
  dayno := (daynoOf conf param_dict tag).or v.dayno
  contents :=
    if takes conf svc param_dict clusterid tag then (clusterSet svc clusterid tag).apply v.contents
    else v.contents
  rps :=
    if takes conf svc param_dict clusterid tag then { v.rps with content := .shared tag } else v.rps

/-- The variable is assigned in a row whose content may be taken. -/
theorem daynoOf_or {rtn_map : CommonRtn} {tag : Str}
    (hrow : conf.m_common_content_response_conf tag = some rtn_map) (v : Vars J) :
    (if rtn_map.content_key = daynoName ∧ getStr param_dict uidName ≠ [] then
      { v with dayno := some rtn_map.content_cond } else v) =
      { v with dayno := (daynoOf conf param_dict tag).or v.dayno } := by
  simp only [daynoOf, hrow]
  split
  · rfl
  · rfl

/-- A common return is what it does, and a check that knows only which dictionaries there are.
-/
theorem commonRtn_eq {v : Vars J} {clusterid : Option Str} (hv : DictsAre dict v.contents)
    (hid : v.rps.clusterid = clusterid) (tag : Str) :
    commonRtn conf svc param_dict v tag =
      (commonAct conf svc param_dict clusterid v tag,
        rtnCheck conf svc param_dict dict clusterid tag) := by
  subst hid
  cases hrow : conf.m_common_content_response_conf tag with
  | none => simp [commonRtn, commonAct, rtnCheck, daynoOf, takes, hrow]
  | some rtn_map =>
      have hdayno := daynoOf_or conf param_dict hrow v
      by_cases hkey : isRtnKey rtn_map.content_key = true
      · simp only [commonRtn, hrow, commonAct, rtnCheck, takes, hkey, if_true, Bool.true_and]
        rw [hdayno]
        cases checkRtn svc param_dict v.rps.clusterid rtn_map with
        | error e => rfl
        | ok jumpout =>
            cases jumpout with
            | some id => rfl
            | none =>
                simp only [takeContent, if_true]
                rw [setContent_shared rfl, hv tag]
                rfl
      · have hno : daynoOf conf param_dict tag = none := by
          have hne : rtn_map.content_key ≠ daynoName := fun h => hkey (by simp [isRtnKey, h])
          simp [daynoOf, hrow, hne]
        simp [commonRtn, hrow, commonAct, rtnCheck, takes, hkey, hno]

/-- The last of a list is that of its tail, unless there is none. -/
theorem getLast?_cons_or {α : Type} (a : α) (l : List α) :
    (a :: l).getLast? = l.getLast?.or (some a) := by
  rw [List.getLast?_cons]
  cases l.getLast? with
  | none => rfl
  | some _ => rfl

/-- What a loop over common returns does is the plan of its assignments. -/
theorem foldl_commonAct (clusterid : Option Str) (tags : List Str) (v : Vars J) :
    tags.foldl (commonAct conf svc param_dict clusterid) v =
      { dayno := (tags.filterMap (daynoOf conf param_dict)).getLast?.or v.dayno
        contents := assignAll ((tags.filter (takes conf svc param_dict clusterid)).map
          (clusterSet svc clusterid)) v.contents
        rps := { v.rps with
          content := (tags.filter (takes conf svc param_dict clusterid)).getLast?.elim
            v.rps.content .shared } } := by
  induction tags generalizing v with
  | nil => rfl
  | cons tag tags ih =>
      rw [List.foldl_cons, ih]
      have hdayno : ((tag :: tags).filterMap (daynoOf conf param_dict)).getLast? =
          (tags.filterMap (daynoOf conf param_dict)).getLast?.or (daynoOf conf param_dict tag) := by
        cases hd : daynoOf conf param_dict tag with
        | none => rw [List.filterMap_cons_none hd, Option.or_none]
        | some d => rw [List.filterMap_cons_some hd, getLast?_cons_or]
      rw [hdayno, Option.or_assoc]
      by_cases htake : takes conf svc param_dict clusterid tag = true
      · rw [List.filter_cons_of_pos htake, getLast?_cons_or]
        cases (tags.filter (takes conf svc param_dict clusterid)).getLast? with
        | none => simp [commonAct, htake, assignAll]
        | some _ => simp [commonAct, htake, assignAll]
      · rw [List.filter_cons_of_neg htake]
        simp [commonAct, htake]

/-- The variables when a plan has been carried out. -/
def Plan.vars (p : Plan J) (dayno : Option Str) (contents : Contents J) : Vars J :=
  ⟨p.dayno.or dayno, assignAll p.sets contents, p.rps⟩

/-- The loop over the common returns carries out its plan. -/
theorem forTags_commonRtn {contents : Contents J} (h : DictsAre dict contents)
    (dayno clusterid : Option Str) (tags : List Str) :
    let p := commonPlan conf svc param_dict dict clusterid tags
    forTags (commonRtn conf svc param_dict) tags
        ⟨dayno, contents, { SceneRps.init with clusterid := clusterid }⟩ =
      (p.vars dayno contents, p.outcome) := by
  have hloop := forTags_eq (rtnCheck conf svc param_dict dict clusterid)
    (commonAct conf svc param_dict clusterid)
    (fun v => DictsAre dict v.contents ∧ v.rps.clusterid = clusterid)
    (fun v tag hv => commonRtn_eq conf svc param_dict hv.1 hv.2 tag) ?_ tags
    ⟨dayno, contents, { SceneRps.init with clusterid := clusterid }⟩ ⟨h, rfl⟩
  · rw [hloop, foldl_commonAct]
    rfl
  · intro v tag hv _
    refine ⟨?_, ?_⟩
    · rw [commonAct]
      split
      · exact hv.1.assignAll [_]
      · exact hv.1
    · rw [commonAct]
      split
      · exact hv.2
      · exact hv.2

/-- The content of the configuration that a scene has taken is a dictionary. -/
def TakesDict (v : Vars J) : Prop :=
  ∀ tag, v.rps.content = .shared tag → (v.contents tag).isSome

/-- What a row of the fixed contents does. -/
def fixedAct (v : Vars J) (tag : Str) : Vars J :=
  let rows := (conf.m_fixed_content_response_conf tag).toList
  { v with
    contents := assignAll (fixedSets svc v.rps.content rows) v.contents
    rps := { v.rps with content := fixedContent svc v.rps.content rows } }

theorem fixedContent_nil (content : Content J) : fixedContent svc content [] = content := by
  cases content with
  | own d => rfl
  | shared tag => rfl

theorem fixedSets_nil (content : Content J) : fixedSets svc content [] = [] := by
  cases content with
  | own d => rfl
  | shared tag => rfl

/-- A fixed return is what it does, and a check of the configuration. -/
theorem fixedRtn_eq {v : Vars J} (hv : TakesDict v) (tag : Str) :
    fixedRtn conf svc v tag = (fixedAct conf svc v tag, fixedCheck conf tag) := by
  cases hrow : conf.m_fixed_content_response_conf tag with
  | none =>
      simp only [fixedRtn, fixedAct, fixedCheck, hrow, Option.toList_none, fixedContent_nil,
        fixedSets_nil]
      rfl
  | some rtn_map =>
      simp only [fixedRtn, fixedAct, fixedCheck, hrow, Option.toList_some]
      cases hcontent : v.rps.content with
      | own d =>
          rw [setContent_own hcontent]
          rfl
      | shared t =>
          have hsame : fixedContent svc (.shared t) [rtn_map] = v.rps.content := hcontent.symm
          rw [setContent_shared hcontent, if_pos (hv t hcontent), hsame]
          rfl

/-- Behind a fixed return a scene still takes a dictionary. -/
theorem fixedAct_takesDict {v : Vars J} (hv : TakesDict v) (tag : Str) :
    TakesDict (fixedAct conf svc v tag) := by
  intro t ht
  have hcontent : v.rps.content = .shared t := by
    cases hc : v.rps.content with
    | own d => simp [fixedAct, hc, fixedContent] at ht
    | shared t' => simpa [fixedAct, hc, fixedContent] using ht
  rw [fixedAct, assignAll_isSome]
  exact hv t hcontent

/-- What a loop over fixed returns does is the plan of its assignments. -/
theorem foldl_fixedAct (tags : List Str) (v : Vars J) :
    tags.foldl (fixedAct conf svc) v =
      { v with
        contents := assignAll (fixedSets svc v.rps.content
          (tags.filterMap conf.m_fixed_content_response_conf)) v.contents
        rps := { v.rps with
          content := fixedContent svc v.rps.content
            (tags.filterMap conf.m_fixed_content_response_conf) } } := by
  induction tags generalizing v with
  | nil => simp [fixedSets_nil, fixedContent_nil, assignAll]
  | cons tag tags ih =>
      rw [List.foldl_cons, ih, fixedAct]
      cases hrow : conf.m_fixed_content_response_conf tag with
      | none =>
          simp [List.filterMap_cons_none hrow, fixedSets_nil, fixedContent_nil, assignAll]
      | some row =>
          rw [List.filterMap_cons_some hrow]
          cases hc : v.rps.content with
          | own d => simp [fixedSets, fixedContent, assignAll]
          | shared t => simp [fixedSets, fixedContent, assignAll]

/-- The loop over the fixed returns carries out its plan. -/
theorem forTags_fixedRtn {p : Plan J} {dayno : Option Str} {contents : Contents J}
    (h : TakesDict (p.vars dayno contents)) (tags : List Str) :
    forTags (fixedRtn conf svc) tags (p.vars dayno contents) =
      ((p.fixed conf svc tags).vars dayno contents, (p.fixed conf svc tags).outcome) := by
  have hloop := forTags_eq (fixedCheck conf) (fixedAct conf svc) TakesDict
    (fun v tag hv => fixedRtn_eq conf svc hv tag)
    (fun v tag hv _ => fixedAct_takesDict conf svc hv tag) tags (p.vars dayno contents) h
  rw [hloop, foldl_fixedAct]
  simp only [Plan.vars, Plan.fixed, assignAll_append]

/-- Where the common contents have been gone through, the one taken is a dictionary. -/
theorem commonPlan_takesDict {contents : Contents J} (h : DictsAre dict contents)
    (dayno clusterid : Option Str) {tags : List Str}
    (hend : (commonPlan conf svc param_dict dict clusterid tags).outcome = .ok none) :
    TakesDict ((commonPlan conf svc param_dict dict clusterid tags).vars dayno contents) := by
  intro tag htag
  rw [Plan.vars, assignAll_isSome, h tag]
  have hlast : tag ∈ (visited (rtnCheck conf svc param_dict dict clusterid) tags).filter
      (takes conf svc param_dict clusterid) := by
    refine List.mem_of_getLast? ?_
    simp only [Plan.vars, commonPlan] at htag
    cases hl : ((visited (rtnCheck conf svc param_dict dict clusterid) tags).filter
      (takes conf svc param_dict clusterid)).getLast? with
    | none => simp [hl] at htag
    | some t => simpa [hl] using htag
  obtain ⟨hmem, htakes⟩ := List.mem_filter.mp hlast
  have hcheck := check_of_mem_visited hend hmem
  cases hrow : conf.m_common_content_response_conf tag with
  | none => simp [takes, hrow] at htakes
  | some rtn_map =>
      simp only [takes, hrow, Bool.and_eq_true] at htakes
      obtain ⟨hkey, hok⟩ := htakes
      simp only [rtnCheck, hrow, if_pos hkey] at hcheck
      match hrtn : checkRtn svc param_dict clusterid rtn_map with
      | .ok none => simpa [hrtn] using hcheck
      | .ok (some _) => simp [hrtn] at hok
      | .error _ => simp [hrtn] at hok

/-- **The content of a scene**: from every state it is what its plan says. -/
theorem sceneContent_eq {contents : Contents J} (h : DictsAre dict contents)
    (dayno : Option Str) (confs_map : SceneConf) :
    let p := scenePlan conf svc param_dict dict confs_map
    sceneContent conf svc param_dict ⟨dayno, contents, .init⟩ confs_map =
      (p.vars dayno contents, p.outcome) := by
  intro p
  match hcond : sceneCond conf svc param_dict confs_map with
  | (clusterid, .ok none) =>
      have hcommon := forTags_commonRtn conf svc param_dict h dayno clusterid
        (split 124 confs_map.common_rtn_tag)
      simp only [p, scenePlan, hcond, sceneContent, andThen]
      rw [hcommon]
      match hout : (commonPlan conf svc param_dict dict clusterid
        (split 124 confs_map.common_rtn_tag)).outcome with
      | .ok none =>
          exact forTags_fixedRtn conf svc
            (commonPlan_takesDict conf svc param_dict h dayno clusterid hout) _
      | .ok (some _) => simp [hout]
      | .error _ => simp [hout]
  | (clusterid, .ok (some _)) =>
      simp only [p, scenePlan, hcond, sceneContent, andThen, Plan.vars]
      rfl
  | (clusterid, .error _) =>
      simp only [p, scenePlan, hcond, sceneContent, andThen, Plan.vars]
      rfl

/-- The result is set where the turn ends. -/
theorem scenePlan_result (dict : Str → Bool) (confs_map : SceneConf) :
    (scenePlan conf svc param_dict dict confs_map).rps.result = .success := by
  rw [scenePlan]
  split
  · simp only
    split
    · rfl
    · rfl
  · rfl

theorem finish_ok (rps : SceneRps J) (jumpout : Option TipsId) :
    rps.finish (.ok jumpout) = .ok { rps with result := jumpout.getD rps.result } := by
  cases jumpout with
  | none => rfl
  | some id => rfl

/-- Two contents show the same result when they agree on the dictionary that it shares. -/
theorem show_eq_iff (rps : SceneRps J) (contents contents' : Contents J) :
    rps.show contents = rps.show contents' ↔
      ∀ tag, rps.content = .shared tag → contents tag = contents' tag := by
  cases hc : rps.content with
  | own d => simp [SceneRps.show, hc]
  | shared t => simp [SceneRps.show, hc]

/-- Which contents are dictionaries. -/
def dicts (contents : Contents J) : Str → Bool := fun tag => (contents tag).isSome

theorem dictsAre_dicts (contents : Contents J) : DictsAre (dicts contents) contents :=
  fun _ => rfl

/-- A `dayno` that a task does not take for an error of the configuration. -/
def Usable (dayno : Option Str) : Prop :=
  ∃ text n, dayno = some text ∧ svc.long text = some n ∧ 1 ≤ n

theorem not_usable_none : ¬Usable svc none := fun ⟨_, _, hd, _⟩ => nomatch hd

/-! ## the plan of a request -/

variable [DecidableEq J]
variable (dict)

/-- How a scene ends, after scenes that have left a `dayno`. -/
def Plan.ends (p : Plan J) (confs_map : SceneConf) (dayno : Option Str) : Outcome :=
  match p.outcome with
  | .ok none => sceneTasks conf svc param_dict (p.dayno.or dayno) confs_map
  | r => r

/-- What the scenes of a request do. -/
structure ScenesPlan (J : Type) where
  dayno : Option Str
  sets : List (Assign J)
  results : Except PyError (List (SceneRps J))

def scenesPlan : List Str → Option Str → ScenesPlan J
  | [], dayno => ⟨dayno, [], .ok []⟩
  | scene :: scenes, dayno =>
      if scene = [] then scenesPlan scenes dayno
      else
        let confs_map := querySceneConf conf scene
        let p := scenePlan conf svc param_dict dict confs_map
        match p.rps.finish (p.ends conf svc param_dict confs_map dayno) with
        | .error e => ⟨p.dayno.or dayno, p.sets, .error e⟩
        | .ok rps =>
            let q := scenesPlan scenes (p.dayno.or dayno)
            ⟨q.dayno, p.sets ++ q.sets, q.results.map (rps :: ·)⟩

variable {dict}

/-- **A turn of the loop** carries out its plan. -/
theorem runScene_eq {contents : Contents J} (h : DictsAre dict contents) (dayno : Option Str)
    (scene : Str) :
    let p := scenePlan conf svc param_dict dict (querySceneConf conf scene)
    runScene conf svc param_dict ⟨dayno, contents⟩ scene =
      (⟨p.dayno.or dayno, assignAll p.sets contents⟩,
        p.rps.finish (p.ends conf svc param_dict (querySceneConf conf scene) dayno)) := by
  intro p
  have hcontent := sceneContent_eq conf svc param_dict h dayno (querySceneConf conf scene)
  simp only [runScene]
  rw [hcontent]
  match hout : p.outcome with
  | .ok none => simp only [p, andThen, hout, Plan.ends, Plan.vars]
  | .ok (some _) => simp only [p, andThen, hout, Plan.ends, Plan.vars]
  | .error _ => simp only [p, andThen, hout, Plan.ends, Plan.vars]

/-- **The loop** carries out its plan. -/
theorem runScenes_eq {contents : Contents J} (h : DictsAre dict contents) (scenes : List Str)
    (dayno : Option Str) :
    let q := scenesPlan conf svc param_dict dict scenes dayno
    runScenes conf svc param_dict scenes ⟨dayno, contents⟩ =
      (⟨q.dayno, assignAll q.sets contents⟩, q.results) := by
  induction scenes generalizing dayno contents with
  | nil => rfl
  | cons scene scenes ih =>
      by_cases hscene : scene = []
      · simp only [runScenes, scenesPlan, if_pos hscene]
        exact ih h dayno
      · simp only [runScenes, scenesPlan, if_neg hscene]
        rw [runScene_eq conf svc param_dict h]
        cases hres : SceneRps.finish _ _ with
        | error e => rfl
        | ok rps =>
            simp only
            rw [ih (h.assignAll _)]
            cases hq : (scenesPlan conf svc param_dict dict scenes _).results with
            | error e => simp [assignAll_append, Except.map]
            | ok rs => simp [assignAll_append, Except.map]

/-! ## what a scene reads of `dayno` -/

/-- The task asks redis with `dayno`. -/
def asksDayno (task_tag : Str) : Bool :=
  match conf.m_task_conf task_tag with
  | some (some task_limit) =>
      let opt := (task_limit optName).getD (svc.text [])
      decide (opt = svc.text commonName) &&
        decide (opt ∉ [goldcardlevelName, niuxgoldcouponName, gameidtipsName].map svc.text)
  | _ => false

/-- The tasks of a scene come to one that reads `dayno`. -/
def ReadsDayno : List Str → Prop
  | [] => False
  | tag :: tags =>
      if tag = [] then ReadsDayno tags
      else if asksDayno conf svc tag then getStr param_dict parameterName ≠ []
      else
        match task conf svc param_dict none tag with
        | .ok none => ReadsDayno tags
        | _ => False

/-- A task that does not ask for the day number does not depend on it. -/
theorem task_of_not_asksDayno {tag : Str} (h : asksDayno conf svc tag = false)
    (dayno : Option Str) :
    task conf svc param_dict dayno tag = task conf svc param_dict none tag := by
  match hrow : conf.m_task_conf tag with
  | none => simp [task, hrow]
  | some none => simp [task, hrow]
  | some (some task_limit) =>
      simp only [asksDayno, hrow, List.map_cons, List.map_nil, List.mem_cons, List.not_mem_nil,
        or_false, not_or, Bool.and_eq_false_iff, decide_eq_false_iff_not] at h
      simp only [task, hrow]
      by_cases hgold : (task_limit optName).getD (svc.text []) = svc.text goldcardlevelName
      · simp only [if_pos hgold]
      by_cases hniux : (task_limit optName).getD (svc.text []) = svc.text niuxgoldcouponName
      · simp only [if_neg hgold, if_pos hniux]
      by_cases hgame : (task_limit optName).getD (svc.text []) = svc.text gameidtipsName
      · simp only [if_neg hgold, if_neg hniux, if_pos hgame]
      have hcommon := h.resolve_right (not_not_intro ⟨hgold, hniux, hgame⟩)
      simp only [if_neg hgold, if_neg hniux, if_neg hgame, if_neg hcommon]

/-- A task that asks for the day number stops without the parameter, and without a usable
number. -/
theorem task_of_asksDayno {tag : Str} (h : asksDayno conf svc tag = true) (dayno : Option Str) :
    (getStr param_dict parameterName = [] →
      task conf svc param_dict dayno tag = .ok (some .paramError)) ∧
    (getStr param_dict parameterName ≠ [] → ¬Usable svc dayno →
      task conf svc param_dict dayno tag = .ok (some .confError)) := by
  match hrow : conf.m_task_conf tag with
  | none => simp [asksDayno, hrow] at h
  | some none => simp [asksDayno, hrow] at h
  | some (some task_limit) =>
      simp only [asksDayno, hrow, List.map_cons, List.map_nil, List.mem_cons, List.not_mem_nil,
        or_false, not_or, Bool.and_eq_true, decide_eq_true_eq] at h
      obtain ⟨hcommon, hgold, hniux, hgame⟩ := h
      simp only [task, hrow, if_neg hgold, if_neg hniux, if_neg hgame, if_pos hcommon]
      refine ⟨fun hparam => ?_, fun hparam huse => ?_⟩
      · rw [if_pos hparam]
        rfl
      · rw [if_neg hparam]
        cases dayno with
        | none => rfl
        | some text =>
            cases hlong : svc.long text with
            | none => simp [hlong, pure, Except.pure]
            | some n =>
                have hn : n < 1 := by
                  by_contra hle
                  exact huse ⟨text, n, rfl, hlong, by omega⟩
                simp [hlong, hn, pure, Except.pure]

/-- Without a `dayno`, a task that reads it is an error of the configuration. -/
theorem stop_task_of_reads {tags : List Str} (h : ReadsDayno conf svc param_dict tags) :
    stop (task conf svc param_dict none) tags = .ok (some .confError) := by
  induction tags with
  | nil => exact h.elim
  | cons tag tags ih =>
      rw [ReadsDayno] at h
      by_cases htag : tag = []
      · rw [if_pos htag] at h
        rw [stop, if_pos htag, ih h]
      · rw [if_neg htag] at h
        rw [stop, if_neg htag]
        by_cases hasks : asksDayno conf svc tag = true
        · rw [if_pos hasks] at h
          rw [(task_of_asksDayno conf svc param_dict hasks none).2 h (not_usable_none svc)]
        · rw [if_neg hasks] at h
          match htask : task conf svc param_dict none tag with
          | .ok none =>
              simp only [htask] at h
              exact ih h
          | .ok (some _) => simp [htask] at h
          | .error _ => simp [htask] at h

/-- A `dayno` that is not read, or of no use, is as good as none. -/
theorem stop_task_eq {dayno : Option Str} {tags : List Str}
    (h : ¬(ReadsDayno conf svc param_dict tags ∧ Usable svc dayno)) :
    stop (task conf svc param_dict dayno) tags = stop (task conf svc param_dict none) tags := by
  induction tags with
  | nil => rfl
  | cons tag tags ih =>
      rw [ReadsDayno] at h
      by_cases htag : tag = []
      · rw [if_pos htag] at h
        rw [stop, stop, if_pos htag, if_pos htag, ih h]
      · rw [if_neg htag] at h
        rw [stop, stop, if_neg htag, if_neg htag]
        by_cases hasks : asksDayno conf svc tag = true
        · rw [if_pos hasks] at h
          have htask := task_of_asksDayno conf svc param_dict hasks
          by_cases hparam : getStr param_dict parameterName = []
          · rw [(htask dayno).1 hparam, (htask none).1 hparam]
          · have huse : ¬Usable svc dayno := fun hd => h ⟨hparam, hd⟩
            rw [(htask dayno).2 hparam huse, (htask none).2 hparam (not_usable_none svc)]
        · rw [if_neg hasks] at h
          rw [task_of_not_asksDayno conf svc param_dict (by simpa using hasks) dayno]
          match htask : task conf svc param_dict none tag with
          | .ok none =>
              simp only [htask] at h
              exact ih h
          | .ok (some _) => rfl
          | .error _ => rfl

/-- The tasks of a scene are gone through until one stops. -/
theorem sceneTasks_eq (dayno : Option Str) (confs_map : SceneConf) :
    sceneTasks conf svc param_dict dayno confs_map =
      stop (task conf svc param_dict dayno) (split 124 confs_map.task_conf_tag) := by
  rw [sceneTasks, forTags_check]

/-- A scene that assigns no `dayno` comes to a task that reads it.  By itself that is an
error of the configuration, and with what the scenes before have left there is none. -/
def DaynoTells (p : Plan J) (confs_map : SceneConf) (dayno : Option Str) : Prop :=
  p.outcome = .ok none ∧ p.dayno = none ∧
    ReadsDayno conf svc param_dict (split 124 confs_map.task_conf_tag) ∧ Usable svc dayno ∧
    sceneTasks conf svc param_dict dayno confs_map ≠ .ok (some .confError)

/-- Where the day number tells, the tasks end with `CONF_ERROR_ID` without it. -/
theorem DaynoTells.ends_none {p : Plan J} {confs_map : SceneConf} {dayno : Option Str}
    (h : DaynoTells conf svc param_dict p confs_map dayno) :
    p.ends conf svc param_dict confs_map none = .ok (some .confError) := by
  obtain ⟨hout, hdayno, hreads, -, -⟩ := h
  simp only [Plan.ends, hout, hdayno, Option.or_none]
  rw [sceneTasks_eq, stop_task_of_reads conf svc param_dict hreads]

/-- Where the day number tells, the tasks end in another way with it. -/
theorem DaynoTells.ends_ne {p : Plan J} {confs_map : SceneConf} {dayno : Option Str}
    (h : DaynoTells conf svc param_dict p confs_map dayno) :
    p.ends conf svc param_dict confs_map dayno ≠ .ok (some .confError) := by
  obtain ⟨hout, hdayno, -, -, hne⟩ := h
  simpa only [Plan.ends, hout, hdayno, Option.none_or] using hne

/-- Where the day number does not tell, the tasks end as they do without it. -/
theorem Plan.ends_eq {p : Plan J} {confs_map : SceneConf} {dayno : Option Str}
    (h : ¬DaynoTells conf svc param_dict p confs_map dayno) :
    p.ends conf svc param_dict confs_map dayno = p.ends conf svc param_dict confs_map none := by
  match hout : p.outcome with
  | .ok (some _) => simp only [Plan.ends, hout]
  | .error _ => simp only [Plan.ends, hout]
  | .ok none =>
      simp only [Plan.ends, hout]
      cases hdayno : p.dayno with
      | some _ => rfl
      | none =>
          rw [Option.none_or, Option.none_or]
          by_cases hread : ReadsDayno conf svc param_dict (split 124 confs_map.task_conf_tag) ∧
              Usable svc dayno
          · have hnone := stop_task_of_reads conf svc param_dict hread.1
            rw [← sceneTasks_eq] at hnone
            rw [hnone]
            by_contra hne
            exact h ⟨hout, hdayno, hread.1, hread.2, hne⟩
          · rw [sceneTasks_eq, sceneTasks_eq, stop_task_eq conf svc param_dict hread]

/-! ## isolation -/

/-- What the loop of a request over some scenes does. -/
def requestPlan (contents : Contents J) (scenes : List Str) : ScenesPlan J :=
  scenesPlan conf svc param_dict (dicts contents) scenes none

/-- The scenes of a request carry out their plans, one after the other. -/
theorem processScenes_eq {contents contents' : Contents J}
    (h : DictsAre (dicts contents) contents') (scenes : List Str) :
    let q := requestPlan conf svc param_dict contents scenes
    processScenes conf svc param_dict contents' scenes =
      (assignAll q.sets contents', q.results.map fun result_list =>
        result_list.map (SceneRps.show (assignAll q.sets contents'))) := by
  simp only [processScenes]
  rw [runScenes_eq conf svc param_dict h]
  rfl

/-- The result of a scene is what its plan shows behind the plans before it. -/
theorem sceneResult_eq (contents : Contents J) (before : List Str) (scene : Str) :
    let q := scenesPlan conf svc param_dict (dicts contents) before none
    let p := scenePlan conf svc param_dict (dicts contents) (querySceneConf conf scene)
    sceneResult conf svc param_dict contents before scene =
      match q.results with
      | .error _ => none
      | .ok _ =>
          (p.rps.finish (p.ends conf svc param_dict (querySceneConf conf scene)
            q.dayno)).toOption.map
              (SceneRps.show (assignAll p.sets (assignAll q.sets contents))) := by
  intro q p
  have hdicts := dictsAre_dicts contents
  rw [sceneResult, runScenes_eq conf svc param_dict hdicts]
  match q.results with
  | .error _ => rfl
  | .ok _ =>
      simp only
      rw [runScene_eq conf svc param_dict (hdicts.assignAll _)]

/-- The results that the loop has for the scenes of a request are the same after it was run
for another one. -/
def RequestIsolated (before request : StrMap) (beforeScenes scenes : List Str)
    (contents : Contents J) : Prop :=
  (processScenes conf svc request (processScenes conf svc before contents beforeScenes).1
      scenes).2 =
    (processScenes conf svc request contents scenes).2

/-- The result of a scene is the same after others. -/
def SceneIsolated (before : List Str) (scene : Str) (contents : Contents J) : Prop :=
  sceneResult conf svc param_dict contents before scene =
    sceneResult conf svc param_dict contents [] scene

/-- What the other request sets in a content that is shown is set again, or was there. -/
def RequestUntouched (before request : StrMap) (beforeScenes scenes : List Str)
    (contents : Contents J) : Prop :=
  ∀ result_list, (requestPlan conf svc request contents scenes).results = .ok result_list →
    ∀ rps ∈ result_list, ∀ tag, rps.content = .shared tag →
      NoTrace contents (requestPlan conf svc before contents beforeScenes).sets
        (requestPlan conf svc request contents scenes).sets tag

/-- A scene raises an exception by itself, or those before it raise none, leave nothing in
the content that it takes and no `dayno` that makes a difference to it. -/
def SceneUntouched (before : List Str) (scene : Str) (contents : Contents J) : Prop :=
  let confs_map := querySceneConf conf scene
  let p := scenePlan conf svc param_dict (dicts contents) confs_map
  let q := scenesPlan conf svc param_dict (dicts contents) before none
  (∃ e, p.ends conf svc param_dict confs_map none = .error e) ∨
    (∃ result_list, q.results = .ok result_list) ∧
    ¬DaynoTells conf svc param_dict p confs_map q.dayno ∧
    ∀ tag, p.rps.content = .shared tag → NoTrace contents q.sets p.sets tag

/-- A request is isolated exactly when none of its scenes is touched by the request before. -/
theorem requestIsolated_iff (before request : StrMap) (beforeScenes scenes : List Str)
    (contents : Contents J) :
    RequestIsolated conf svc before request beforeScenes scenes contents ↔
      RequestUntouched conf svc before request beforeScenes scenes contents := by
  have hdicts := dictsAre_dicts contents
  rw [RequestIsolated, RequestUntouched, processScenes_eq conf svc before hdicts,
    processScenes_eq conf svc request (hdicts.assignAll _),
    processScenes_eq conf svc request hdicts]
  cases (requestPlan conf svc request contents scenes).results with
  | error e => simp [Except.map]
  | ok result_list =>
      simp only [Except.map, Except.ok.injEq, List.map_inj_left, forall_eq']
      refine forall₂_congr fun rps _ => ?_
      rw [show_eq_iff]
      exact forall₂_congr fun tag _ => assignAll_eq_iff contents _ _ tag

/-- The result tells that a task has read the `dayno` of the scenes before. -/
theorem DaynoTells.show_ne {p : Plan J} {confs_map : SceneConf} {dayno : Option Str}
    (h : DaynoTells conf svc param_dict p confs_map dayno) (hresult : p.rps.result = .success)
    (contents contents' : Contents J) :
    (p.rps.finish (p.ends conf svc param_dict confs_map dayno)).toOption.map
        (SceneRps.show contents) ≠
      (p.rps.finish (p.ends conf svc param_dict confs_map none)).toOption.map
        (SceneRps.show contents') := by
  rw [DaynoTells.ends_none conf svc param_dict h, finish_ok]
  have hne := DaynoTells.ends_ne conf svc param_dict h
  cases hends : p.ends conf svc param_dict confs_map dayno with
  | error e => simp [SceneRps.finish, Except.toOption]
  | ok jumpout =>
      rw [finish_ok]
      intro heq
      have hid : jumpout.getD p.rps.result = .confError :=
        congrArg Shown.result (Option.some.inj heq)
      cases jumpout with
      | none => simp [hresult] at hid
      | some id => exact hne (by rw [hends, ← hid, Option.getD_some])

/-- A scene is isolated exactly when the scenes before it do not touch it. -/
theorem sceneIsolated_iff (before : List Str) (scene : Str) (contents : Contents J) :
    SceneIsolated conf svc param_dict before scene contents ↔
      SceneUntouched conf svc param_dict before scene contents := by
  have hresult := scenePlan_result conf svc param_dict (dicts contents)
    (querySceneConf conf scene)
  rw [SceneIsolated, SceneUntouched, sceneResult_eq, sceneResult_eq]
  simp only [scenesPlan]
  generalize querySceneConf conf scene = confs_map at hresult ⊢
  generalize scenePlan conf svc param_dict (dicts contents) confs_map = p at hresult ⊢
  generalize scenesPlan conf svc param_dict (dicts contents) before none = q
  by_cases htells : DaynoTells conf svc param_dict p confs_map q.dayno
  · have hnone := DaynoTells.ends_none conf svc param_dict htells
    cases q.results with
    | error e => simp [htells, hnone, finish_ok, Except.toOption]
    | ok result_list =>
        simp only [htells, hnone, not_true, false_and, and_false, or_false, reduceCtorEq,
          exists_false, iff_false]
        rw [← hnone]
        exact DaynoTells.show_ne conf svc param_dict htells hresult _ _
  · rw [Plan.ends_eq conf svc param_dict htells]
    cases p.ends conf svc param_dict confs_map none with
    | error e =>
        cases q.results with
        | error _ => simp [SceneRps.finish, Except.toOption]
        | ok _ => simp [SceneRps.finish, Except.toOption]
    | ok jumpout =>
        rw [finish_ok]
        cases q.results with
        | error _ => simp [Except.toOption]
        | ok result_list =>
            simp only [Except.toOption, Option.map_some, Option.some.injEq, htells, not_false_iff,
              true_and, reduceCtorEq, exists_false, false_or, Except.ok.injEq, exists_eq']
            rw [show_eq_iff]
            exact forall₂_congr fun tag _ => assignAll_eq_iff contents _ _ tag

/-- **Isolation of the loop**: exactly when the loop answers a request, and a scene, as if
nothing had come before them. -/
theorem loop_isolated_iff (conf : DbConf J) (svc : Services J) (contents : Contents J) :
    (∀ (before request : StrMap) (beforeScenes scenes : List Str),
      RequestIsolated conf svc before request beforeScenes scenes contents ↔
        RequestUntouched conf svc before request beforeScenes scenes contents) ∧
    (∀ (request : StrMap) (before : List Str) (scene : Str),
      SceneIsolated conf svc request before scene contents ↔
        SceneUntouched conf svc request before scene contents) := by
  refine ⟨fun before request beforeScenes scenes => ?_, fun request before scene => ?_⟩
  · exact requestIsolated_iff conf svc before request beforeScenes scenes contents
  · exact sceneIsolated_iff conf svc request before scene contents

end

/-! ## requests and scenes that tell what came before -/

/-- Scene `A` takes the content `t` and sets an item of it, and scene `B` takes it as it is;
scene `C` takes the content `d` for a coupon of three days, and scene `D` has only a task. -/
def tipsConf : DbConf Str where
  m_business_conf business :=
    if business = ascii ['1'] then some (ascii ['A', '|', 'B'])
    else if business = ascii ['2'] then some (ascii ['B'])
    else none
  m_scene_conf scene :=
    if scene = ascii ['A'] then some ⟨[], [], [], ascii ['f'], ascii ['t']⟩
    else if scene = ascii ['B'] then some ⟨[], [], [], [], ascii ['t']⟩
    else if scene = ascii ['C'] then some ⟨[], [], [], [], ascii ['d']⟩
    else if scene = ascii ['D'] then some ⟨[], [], ascii ['k'], [], []⟩
    else none
  m_restrict_cond_conf _ := none
  m_unrestrict_cond_conf _ := none
  m_task_conf tag :=
    if tag = ascii ['k'] then
      some (some fun key => if key = optName then some commonName else none)
    else none
  m_fixed_content_response_conf tag :=
    if tag = ascii ['f'] then some ⟨ascii ['x'], ascii ['y']⟩ else none
  m_common_content_response_conf tag :=
    if tag = ascii ['t'] then some ⟨ascii ['g'], gameidName⟩
    else if tag = ascii ['d'] then some ⟨ascii ['3'], daynoName⟩
    else none

def tipsContents : Contents Str := fun tag =>
  if tag = ascii ['t'] ∨ tag = ascii ['d'] then some fun _ => none else none

/-- One coupon is about to expire, and redis has not seen the tip. -/
def tipsServices : Services Str where
  text s := s
  float _ := .ok .other
  long s := if s = ascii ['3'] then some 3 else none
  check_sessionid _ _ := .ok 0
  check_web_sessionid _ _ := .ok (some 0)
  visit_dos_service _ _ := .ok none
  visit_glodcardlevel_interface _ := .ok (ascii ['1'])
  visit_niuxgoldcoupon_interface _ _ := .ok (ascii ['1'])
  exist_and_insert_4goldcardlevel _ _ := .ok 0
  exist_and_insert_4niuxgoldcoupon _ _ := .ok 0
  exist_and_insert _ _ := .ok 0
  common_exist_and_insert _ _ _ _ _ := .ok 0

def tipsRequest (business : Str) : StrMap := fun key =>
  if key = businessName then some business
  else if key = sessionidName then some (ascii ['s'])
  else if key = uidName then some (ascii ['u'])
  else if key = gameidName then some (ascii ['g'])
  else if key = parameterName then some (ascii ['p'])
  else none

/-- The loop by itself: the item that scene `A` sets shows in scene `B`, of the next request
as of the same, and the `dayno` of scene `C` makes the task of scene `D` succeed. -/
theorem scenes_tell_before :
    ¬RequestIsolated tipsConf tipsServices (tipsRequest (ascii ['1'])) (tipsRequest (ascii ['2']))
      [ascii ['A']] [ascii ['B']] tipsContents ∧
    ¬SceneIsolated tipsConf tipsServices (tipsRequest (ascii ['1'])) [ascii ['A']] (ascii ['B'])
      tipsContents ∧
    ¬SceneIsolated tipsConf tipsServices (tipsRequest (ascii ['1'])) [ascii ['C']] (ascii ['D'])
      tipsContents := by
  refine ⟨fun h => ?_, fun h => ?_, fun h => ?_⟩
  · have hitem := congrArg (fun results => results.toOption.bind fun result_list =>
      result_list.head?.bind fun shown => shown.content.bind (· (ascii ['x']))) h
    exact absurd hitem (by decide)
  · have hitem := congrArg (fun result => result.bind fun shown =>
      shown.content.bind (· (ascii ['x']))) h
    exact absurd hitem (by decide)
  · have hid := congrArg (fun result => result.map Shown.result) h
    exact absurd hid (by decide)

end TipsHandler
end PythonProjects
end MySrc
