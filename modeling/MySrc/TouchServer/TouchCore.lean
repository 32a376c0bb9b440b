import MySrc.TouchServer.FilterConfig

/-!
# MySrc.TouchServer.TouchCore

The filters of `xlgame_touch_server/src/filters`, and `touch_core` of
`xlgame_touch_server/src/main/dispatcher.cpp`, which runs them in four periods.  The filters pass
on what they have found in the response map, and the last ones remove it again.

`reward_eligible_iff` says when a configuration that is granted is one that the request is
eligible for, and `response_clean_iff` when nothing of the configuration is left in the response.
-/

namespace MySrc
namespace TouchServer

open Lib

/-! ## filters -/

/-- The results of the filters. -/
inductive ReturnCode
  /-- `SUCCESS` -/
  | success
  /-- `FILT_FAIL_IN_RESTRICT_COND_PERIORD` -/
  | filtFailInRestrictCondPeriord
  /-- `FILT_FAIL_IN_ENTRY_BUSINESS_PERIORD` -/
  | filtFailInEntryBusinessPeriord
  deriving Repr, DecidableEq

/-- What a request meets outside of the server. -/
structure Env where
  redis : RedisSets
  incrby : Nat → Str → Int
  now : Int
  m_time_stamp : Int

/-- The state of a request: the configuration, the response map, and the configuration that was
granted. -/
structure Touch where
  config : FilterConfig
  response_map_param : StringMap
  granted : Option BusinessConfig

/-- `do_filt` of a filter. -/
abbrev Filter := Env → StringMap → Touch → Except Fault (ReturnCode × Touch)

/-- A tag that was found is appended behind a bar. -/
def appendTag (conf configid : Str) : Str :=
  if configid = [] then conf
  else if conf = [] then configid
  else conf ++ 124 :: configid

/-- The tags that the parameters of a request find. -/
def restrictTags (config : FilterConfig) (mapParam : StringMap) : List Str :=
  mapParam.entries.map fun e =>
    doFindInRestrictCondConfig config.m_restrict_cond_config e.1 e.2

def unrestrictTags (redis : RedisSets) (config : FilterConfig) (mapParam : StringMap) : List Str :=
  mapParam.entries.map fun e =>
    doFindInUnrestrictCondConfig redis config.m_unrestrict_cond_config e.1 e.2

/-- `insert`, unless there is nothing to insert. -/
def insertConf (response_map_param : StringMap) (key conf : Str) : StringMap :=
  if conf = [] then response_map_param else response_map_param.insertNew key conf

/-- `restrict_cond_filter::do_filt` -/
def restrictCondFilter : Filter := fun _ mapParam s =>
  let tags := restrictTags s.config mapParam
  let regular_conf := tags.foldl appendTag []
  let num := tags.countP (· ≠ [])
  let s := { s with
    response_map_param := insertConf s.response_map_param regularConfKey regular_conf }
  if num ≠ 0 then .ok (.success, s) else .ok (.filtFailInRestrictCondPeriord, s)

/-- `common_cond_filter::do_filt` -/
def commonCondFilter : Filter := fun env mapParam s =>
  let tags := unrestrictTags env.redis s.config mapParam
  let unregular_conf := tags.foldl appendTag []
  .ok (.success, { s with
    response_map_param := insertConf s.response_map_param unregularConfKey unregular_conf })

/-- `entry_business_filter::do_filt` -/
def entryBusinessFilter : Filter := fun env _ s => do
  let m_business_config := s.config.m_business_config
  let (ret, vconfigid) ←
    doFiltTimeLimitInBusinessConfig env.now env.m_time_stamp m_business_config
  if ret ≠ 0 then return (.filtFailInEntryBusinessPeriord, s)
  let (ret, vconfigid) ← doFiltInputLimit m_business_config s.response_map_param vconfigid
  let s := { s with response_map_param := .empty }
  if ret ≠ 0 then return (.filtFailInEntryBusinessPeriord, s)
  let (m_business_config, granted) := outputLimitLoop env.incrby m_business_config 0 vconfigid
  let s := { s with config := { s.config with m_business_config := m_business_config } }
  match granted with
  | none => return (.filtFailInEntryBusinessPeriord, s)
  | some bconfig =>
      return (.success, { s with
        response_map_param := grantedResponse s.response_map_param bconfig
        granted := some bconfig })

/-- The loop of `fixed_content_response_filter::do_filt`. -/
def insertFixed (m_fixed_content_config : OrdMap Str FixedContentResponseConfig)
    (response_map_param : StringMap) (rs : List Str) : StringMap :=
  rs.foldl (fun response_map_param r =>
    response_map_param.insertNew (doFindInFixedContentConfig m_fixed_content_config r).1
      (doFindInFixedContentConfig m_fixed_content_config r).2) response_map_param

/-- `fixed_content_response_filter::do_filt` -/
def fixedContentResponseFilter : Filter := fun _ _ s =>
  let reglular_rtn_content_conf := getValue reglularRtnContentConfKey s.response_map_param
  .ok (.success, { s with
    response_map_param := insertFixed s.config.m_fixed_content_config
      (s.response_map_param.erase reglularRtnContentConfKey)
      (split 124 reglular_rtn_content_conf) })

/-- The key that `common_response_filter` erases. -/
def unreglularRtnContentConfKey : Str :=
  ascii ['u', 'n', 'r', 'e', 'g', 'l', 'u', 'l', 'a', 'r', '_', 'r', 't', 'n', '_', 'c', 'o', 'n',
    't', 'e', 'n', 't', '_', 'c', 'o', 'n', 'f']

/-- `common_response_filter::do_filt` -/
def commonResponseFilter : Filter := fun _ _ s =>
  .ok (.success, { s with
    response_map_param := s.response_map_param.erase unreglularRtnContentConfKey })

/-- `common_task_filter::do_filt` -/
def commonTaskFilter : Filter := fun _ _ s =>
  .ok (.success, { s with response_map_param := s.response_map_param.erase taskConfKey })

/-! ## periods -/

/-- `filter_ctx::do_filt` and the loop of `touch_core`: one after the other, up to one that
fails. -/
def doFilt : List Filter → Filter
  | [], _, _, s => .ok (.success, s)
  | f :: filters, env, mapParam, s => do
      let (ret, s) ← f env mapParam s
      if ret ≠ .success then return (ret, s) else doFilt filters env mapParam s

/-- `COND_PERIOD` -/
def condEvent : Filter := doFilt [restrictCondFilter, commonCondFilter]

/-- `BUSINESS_PERIOD` -/
def businessEvent : Filter := doFilt [entryBusinessFilter]

/-- `RESPONSE_PERIOD` -/
def responseEvent : Filter := doFilt [fixedContentResponseFilter, commonResponseFilter]

/-- `TASK_PERIOD` -/
def taskEvent : Filter := doFilt [commonTaskFilter]

/-- `touch_core` with the events of the dispatcher. -/
def touchCore : Filter := doFilt [condEvent, businessEvent, responseEvent, taskEvent]

/-- A request at the beginning. -/
def Touch.init (config : FilterConfig) : Touch := ⟨config, .empty, none⟩

/-! ## tags and tokens -/

section

variable (config : FilterConfig) (redis : RedisSets) (mapParam : StringMap)

variable {config redis mapParam}

end

/-! ## the first two periods -/

/-- The response map after the first period. -/
def condResponse (env : Env) (config : FilterConfig) (mapParam : StringMap) : StringMap :=
  insertConf (insertConf .empty regularConfKey ((restrictTags config mapParam).foldl appendTag []))
    unregularConfKey ((unrestrictTags env.redis config mapParam).foldl appendTag [])

/-- Filters succeed one after the other. -/
theorem doFilt_cons_eq_success {f : Filter} {filters : List Filter} {env : Env}
    {mapParam : StringMap} {s s' : Touch} :
    doFilt (f :: filters) env mapParam s = .ok (.success, s') ↔
      ∃ s₁, f env mapParam s = .ok (.success, s₁) ∧
        doFilt filters env mapParam s₁ = .ok (.success, s') := by
  rw [doFilt, bind_eq_ok]
  constructor
  · rintro ⟨⟨ret, s₁⟩, hf, h⟩
    simp only at h
    split at h
    · next hret =>
        cases h
        exact absurd rfl hret
    · next hret =>
        rw [not_not.mp hret] at hf
        exact ⟨s₁, hf, h⟩
  · rintro ⟨s₁, hf, h⟩
    exact ⟨(.success, s₁), hf, h⟩

/-- Without filters a request passes and changes nothing. -/
theorem doFilt_nil_eq_success {env : Env} {mapParam : StringMap} {s s' : Touch} :
    doFilt [] env mapParam s = .ok (.success, s') ↔ s = s' := by
  simp [doFilt]

/-- The first period succeeds when a restrict condition is found. -/
theorem condEvent_eq_success {env : Env} {config : FilterConfig} {mapParam : StringMap} {s : Touch}
    (h : condEvent env mapParam (Touch.init config) = .ok (.success, s)) :
    (∃ tag ∈ restrictTags config mapParam, tag ≠ []) ∧
      s = ⟨config, condResponse env config mapParam, none⟩ := by
  simp only [condEvent, doFilt_cons_eq_success, doFilt_nil_eq_success] at h
  obtain ⟨s₁, hrestrict, s₂, hcommon, rfl⟩ := h
  simp only [restrictCondFilter] at hrestrict
  split at hrestrict
  · next hnum =>
      cases hrestrict
      cases hcommon
      refine ⟨?_, rfl⟩
      obtain ⟨tag, htag, hne⟩ := List.countP_pos_iff.mp (Nat.pos_of_ne_zero hnum)
      exact ⟨tag, htag, of_decide_eq_true hne⟩
  · cases hrestrict

/-- What the second period grants has passed the input limit. -/
theorem businessEvent_eq_success {env : Env} {mapParam : StringMap} {s s' : Touch}
    (h : businessEvent env mapParam s = .ok (.success, s')) :
    ∃ bconfig,
      tokensAllowed bconfig.m_regular_conf (getValue regularConfKey s.response_map_param) = true ∧
      tokensAllowed bconfig.m_unregular_conf
        (getValue unregularConfKey s.response_map_param) = true ∧
      s'.granted = some bconfig ∧
      s'.response_map_param = grantedResponse .empty bconfig ∧
      s'.config.m_fixed_content_config = s.config.m_fixed_content_config := by
  simp only [businessEvent, doFilt_cons_eq_success, doFilt_nil_eq_success] at h
  obtain ⟨s₁, h, rfl⟩ := h
  obtain ⟨⟨ret, vconfigid⟩, -, h⟩ := bind_eq_ok.mp h
  simp only at h
  split at h
  · cases h
  · obtain ⟨⟨ret', passed⟩, hinput, h⟩ := bind_eq_ok.mp h
    simp only at h
    split at h
    · cases h
    · next hret' =>
        rw [not_not.mp hret'] at hinput
        obtain ⟨⟨m_business_config, granted⟩, hloop⟩ :
            ∃ r, outputLimitLoop env.incrby s.config.m_business_config 0 passed = r := ⟨_, rfl⟩
        rw [hloop] at h
        cases granted with
        | none => cases h
        | some bconfig =>
            cases h
            obtain ⟨configid, hid, hfind⟩ := outputLimitLoop_granted hloop
            obtain ⟨bconfig', hfind', hallowed⟩ := doFiltInputLimit_passes hinput configid hid
            rw [hfind] at hfind'
            cases hfind'
            exact ⟨bconfig, hallowed.1, hallowed.2, rfl, rfl, rfl⟩

/-! ## eligibility -/

section

variable (config : FilterConfig) (redis : RedisSets) (mapParam : StringMap)

variable {config redis mapParam}

end

/-- A configuration that asks for the conditions `r` and `u`. -/
def rewardConfig : BusinessConfig where
  m_configid := ascii ['c']
  m_valid_start_unixtime := []
  m_regular_conf := ascii ['r']
  m_unregular_conf := ascii ['u']
  m_regular_rtn_content_conf := ascii ['x']
  m_unregular_rtn_content_conf := ascii ['y']
  m_task_conf := []
  m_volumn := ascii ['5']

/-- The restrict condition `r`, and `conds` as the unrestrict conditions. -/
def rewardFilterConfig (conds : OrdMap Str CondConfig) : FilterConfig where
  m_fixed_content_config := .empty
  m_restrict_cond_config := .insertNew .empty (ascii ['r']) ⟨ascii ['r'], ascii ['a'], ascii ['1']⟩
  m_business_config := .insertNew .empty (ascii ['c']) (some rewardConfig)
  m_unrestrict_cond_config := conds

/-- Every set contains everything, and every counter was at zero. -/
def rewardEnv : Env := ⟨⟨fun _ _ => true, fun _ _ => false⟩, fun _ _ => 1, 0, 600⟩

def rewardRequest : StringMap := .insertNew .empty (ascii ['a']) (ascii ['1'])

section

variable (m_fixed_content_config : OrdMap Str FixedContentResponseConfig)
  (bconfig : BusinessConfig)

/-- A fixed content that a configuration names. -/
def Named (fixed : FixedContentResponseConfig) : Prop :=
  ∃ r ∈ split 124 bconfig.m_regular_rtn_content_conf, m_fixed_content_config.find r = some fixed

/-- The keys with which the filters pass on what they have found. -/
def workingKeys : List Str :=
  [regularConfKey, unregularConfKey, reglularRtnContentConfKey, unregularRtnContentConfKey,
    taskConfKey]

/-- The response has the fixed contents that the configuration names, and nothing else. -/
def Clean (response_map_param : StringMap) : Prop :=
  (∀ key value, response_map_param.find key = some value →
    ∃ fixed, Named m_fixed_content_config bconfig fixed ∧ fixed.m_type = key ∧
      fixed.m_estimated_value = value) ∧
  ∀ key ∈ workingKeys, response_map_param.find key ≠ none →
    ∃ r fixed, m_fixed_content_config.find r = some fixed ∧ fixed.m_type = key

/-- The response of a configuration after the last two periods. -/
def response : StringMap :=
  ((insertFixed m_fixed_content_config
      ((grantedResponse .empty bconfig).erase reglularRtnContentConfKey)
      (split 124 bconfig.m_regular_rtn_content_conf)).erase unreglularRtnContentConfKey).erase
    taskConfKey

variable {m_fixed_content_config bconfig}

theorem getValue_grantedResponse :
    getValue reglularRtnContentConfKey (grantedResponse .empty bconfig) =
      bconfig.m_regular_rtn_content_conf := by
  simp [getValue, grantedResponse, OrdMap.find_insertNew]

/-- What `fixed_content_response_filter` finds in the map besides its own key. -/
theorem find_grantedResponse_erase (q : Str) :
    ((grantedResponse .empty bconfig).erase reglularRtnContentConfKey).find q =
      if q = unregularRtnContentConfKey then some bconfig.m_unregular_rtn_content_conf
      else if q = taskConfKey then some bconfig.m_task_conf
      else none := by
  have hunregular : unregularRtnContentConfKey ≠ reglularRtnContentConfKey := by decide
  have htask : taskConfKey ≠ reglularRtnContentConfKey := by decide
  simp only [grantedResponse, OrdMap.find_erase, OrdMap.find_insertNew, OrdMap.find_empty,
    Option.none_or]
  by_cases hq : q = reglularRtnContentConfKey
  · rw [if_pos hq, hq, if_neg (Ne.symm hunregular), if_neg (Ne.symm htask)]
  · rw [if_neg hq, if_neg hq, Option.none_or]
    split_ifs <;> rfl

/-- What the response has for each key. -/
theorem find_response (q : Str) :
    (response m_fixed_content_config bconfig).find q =
      if q = taskConfKey ∨ q = unreglularRtnContentConfKey then none
      else if q = unregularRtnContentConfKey then some bconfig.m_unregular_rtn_content_conf
      else ((split 124 bconfig.m_regular_rtn_content_conf).find? fun r =>
          (doFindInFixedContentConfig m_fixed_content_config r).1 = q).map fun r =>
        (doFindInFixedContentConfig m_fixed_content_config r).2 := by
  rw [response, OrdMap.find_erase, OrdMap.find_erase, insertFixed, OrdMap.find_foldl_insertNew,
    find_grantedResponse_erase]
  by_cases htask : q = taskConfKey
  · rw [if_pos htask, if_pos (.inl htask)]
  by_cases htypo : q = unreglularRtnContentConfKey
  · rw [if_neg htask, if_pos htypo, if_pos (.inr htypo)]
  rw [if_neg htask, if_neg htypo, if_neg (not_or.mpr ⟨htask, htypo⟩)]
  by_cases hq : q = unregularRtnContentConfKey
  · rw [if_pos hq, if_pos hq, Option.some_or]
  · rw [if_neg hq, if_neg hq, if_neg htask, Option.none_or]

/-- What a token gives: a fixed content that is named, or an empty entry. -/
theorem doFindInFixedContentConfig_cases
    (m_fixed_content_config : OrdMap Str FixedContentResponseConfig) {r : Str}
    (hr : r ∈ split 124 bconfig.m_regular_rtn_content_conf) :
    (∃ fixed, Named m_fixed_content_config bconfig fixed ∧
        doFindInFixedContentConfig m_fixed_content_config r =
          (fixed.m_type, fixed.m_estimated_value)) ∨
      m_fixed_content_config.find r = none ∧
        doFindInFixedContentConfig m_fixed_content_config r = ([], []) := by
  unfold doFindInFixedContentConfig
  cases hfind : m_fixed_content_config.find r with
  | none => exact .inr ⟨rfl, rfl⟩
  | some fixed => exact .inl ⟨fixed, ⟨r, hr, hfind⟩, rfl⟩

/-- The response is clean exactly when what is left under `unregular_rtn_content_conf` looks like
a fixed content, and so does the empty entry that a token without a fixed content leaves. -/
theorem clean_response_iff :
    Clean m_fixed_content_config bconfig (response m_fixed_content_config bconfig) ↔
      (∃ fixed, Named m_fixed_content_config bconfig fixed ∧
        fixed.m_type = unregularRtnContentConfKey ∧
        fixed.m_estimated_value = bconfig.m_unregular_rtn_content_conf) ∧
      ∀ r, ((split 124 bconfig.m_regular_rtn_content_conf).find? fun r =>
          (doFindInFixedContentConfig m_fixed_content_config r).1 = []) = some r →
        m_fixed_content_config.find r = none →
        ∃ fixed, Named m_fixed_content_config bconfig fixed ∧ fixed.m_type = [] ∧
          fixed.m_estimated_value = [] := by
  have hunregular : (response m_fixed_content_config bconfig).find unregularRtnContentConfKey =
      some bconfig.m_unregular_rtn_content_conf := by
    rw [find_response, if_neg (by decide), if_pos rfl]
  have hempty : (response m_fixed_content_config bconfig).find [] =
      ((split 124 bconfig.m_regular_rtn_content_conf).find? fun r =>
          (doFindInFixedContentConfig m_fixed_content_config r).1 = []).map fun r =>
        (doFindInFixedContentConfig m_fixed_content_config r).2 := by
    rw [find_response, if_neg (by decide), if_neg (by decide)]
  constructor
  · rintro ⟨hclean, -⟩
    refine ⟨hclean _ _ hunregular, fun r hr hnone => ?_⟩
    refine hclean [] [] ?_
    rw [hempty, hr, Option.map_some]
    simp [doFindInFixedContentConfig, hnone]
  · rintro ⟨hkey, htoken⟩
    have hentries : ∀ key value, (response m_fixed_content_config bconfig).find key = some value →
        ∃ fixed, Named m_fixed_content_config bconfig fixed ∧ fixed.m_type = key ∧
          fixed.m_estimated_value = value := by
      intro key value hfind
      by_cases hq : key = unregularRtnContentConfKey
      · subst hq
        rw [hunregular] at hfind
        cases hfind
        exact hkey
      · rw [find_response] at hfind
        split_ifs at hfind
        obtain ⟨r, hr, rfl⟩ := Option.map_eq_some_iff.mp hfind
        have htype : (doFindInFixedContentConfig m_fixed_content_config r).1 = key := by
          simpa using List.find?_some hr
        rcases doFindInFixedContentConfig_cases m_fixed_content_config
          (List.mem_of_find?_eq_some hr) with ⟨fixed, hnamed, heq⟩ | ⟨hnone, heq⟩
        · rw [heq] at htype ⊢
          exact ⟨fixed, hnamed, htype, rfl⟩
        · rw [heq] at htype ⊢
          subst htype
          exact htoken r hr hnone
    refine ⟨hentries, fun key _ hfind => ?_⟩
    obtain ⟨value, hvalue⟩ := Option.ne_none_iff_exists'.mp hfind
    obtain ⟨fixed, ⟨r, -, hr⟩, htype, -⟩ := hentries key value hvalue
    exact ⟨r, fixed, hr, htype⟩

end

/-- All four periods succeed with the response of the configuration that was granted. -/
theorem touchCore_eq_success {env : Env} {config : FilterConfig} {mapParam : StringMap} {s : Touch}
    (h : touchCore env mapParam (Touch.init config) = .ok (.success, s)) :
    ∃ bconfig, s.granted = some bconfig ∧
      s.response_map_param = response config.m_fixed_content_config bconfig := by
  simp only [touchCore, doFilt_cons_eq_success, doFilt_nil_eq_success] at h
  obtain ⟨s₁, hcond, s₂, hbusiness, s₃, hresponse, s₄, htask, rfl⟩ := h
  obtain ⟨-, rfl⟩ := condEvent_eq_success hcond
  obtain ⟨bconfig, -, -, hgranted, hmap, hfixed⟩ := businessEvent_eq_success hbusiness
  simp only [responseEvent, taskEvent, doFilt_cons_eq_success, doFilt_nil_eq_success,
    fixedContentResponseFilter, commonResponseFilter, commonTaskFilter] at hresponse htask
  obtain ⟨s₅, hresponse, s₆, hcommon, rfl⟩ := hresponse
  obtain ⟨s₇, htask, rfl⟩ := htask
  cases hresponse
  cases hcommon
  cases htask
  refine ⟨bconfig, hgranted, ?_⟩
  simp only [hmap, hfixed, getValue_grantedResponse, response]

/-- Nothing of the configuration that was granted is left in the response, exactly when one of the
fixed contents that it names has the type `unregular_rtn_content_conf` and the value of that
field, and, where the first token without a type has no fixed content, one has an empty type and
an empty value. -/
theorem response_clean_iff {env : Env} {config : FilterConfig} {mapParam : StringMap} {s : Touch}
    {bconfig : BusinessConfig}
    (h : touchCore env mapParam (Touch.init config) = .ok (.success, s))
    (hgranted : s.granted = some bconfig) :
    Clean config.m_fixed_content_config bconfig s.response_map_param ↔
      (∃ fixed, Named config.m_fixed_content_config bconfig fixed ∧
        fixed.m_type = unregularRtnContentConfKey ∧
        fixed.m_estimated_value = bconfig.m_unregular_rtn_content_conf) ∧
      ∀ r, ((split 124 bconfig.m_regular_rtn_content_conf).find? fun r =>
          (doFindInFixedContentConfig config.m_fixed_content_config r).1 = []) = some r →
        config.m_fixed_content_config.find r = none →
        ∃ fixed, Named config.m_fixed_content_config bconfig fixed ∧ fixed.m_type = [] ∧
          fixed.m_estimated_value = [] := by
  obtain ⟨bconfig', hgranted', hresponse⟩ := touchCore_eq_success h
  rw [hgranted] at hgranted'
  cases hgranted'
  rw [hresponse]
  exact clean_response_iff

/-- A fixed content `x` of a type, with the value `y`. -/
def rewardFixed (m_type : Str) : FilterConfig :=
  { rewardFilterConfig .empty with
    m_fixed_content_config :=
      .insertNew .empty (ascii ['x']) ⟨ascii ['x'], m_type, ascii ['y']⟩ }

/-- A fixed content of the type `unregular_rtn_content_conf` hides what is left. -/
theorem response_clean_hidden :
    ∃ s, touchCore rewardEnv rewardRequest
        (Touch.init (rewardFixed unregularRtnContentConfKey)) = .ok (.success, s) ∧
      Clean (rewardFixed unregularRtnContentConfKey).m_fixed_content_config rewardConfig
        s.response_map_param := by
  have heval : ((touchCore rewardEnv rewardRequest
        (Touch.init (rewardFixed unregularRtnContentConfKey))).toOption.map
      fun r => (r.1, r.2.granted)) = some (.success, some rewardConfig) := by decide +kernel
  obtain ⟨⟨ret, s⟩, hs, hend⟩ := Option.map_eq_some_iff.mp heval
  obtain ⟨rfl, hgranted⟩ := Prod.mk.inj hend
  refine ⟨s, eq_ok_of_toOption hs, (response_clean_iff (eq_ok_of_toOption hs) hgranted).mpr
    ⟨⟨_, ⟨ascii ['x'], by decide, rfl⟩, rfl, rfl⟩, fun r hr => ?_⟩⟩
  have hnone : ((split 124 rewardConfig.m_regular_rtn_content_conf).find? fun r =>
      (doFindInFixedContentConfig (rewardFixed unregularRtnContentConfKey).m_fixed_content_config
        r).1 = []) = none := by decide
  rw [hnone] at hr
  cases hr

/-- With a fixed content of another type, `unregular_rtn_content_conf` is sent to the client. -/
theorem response_leaks :
    ∃ s, touchCore rewardEnv rewardRequest (Touch.init (rewardFixed (ascii ['t']))) =
        .ok (.success, s) ∧
      s.granted = some rewardConfig ∧
      s.response_map_param.find unregularRtnContentConfKey =
        some rewardConfig.m_unregular_rtn_content_conf ∧
      ¬ Clean (rewardFixed (ascii ['t'])).m_fixed_content_config rewardConfig
        s.response_map_param := by
  have heval : ((touchCore rewardEnv rewardRequest
        (Touch.init (rewardFixed (ascii ['t'])))).toOption.map
      fun r => (r.1, r.2.granted, r.2.response_map_param.find unregularRtnContentConfKey)) =
        some (.success, some rewardConfig, some (ascii ['y'])) := by decide +kernel
  obtain ⟨⟨ret, s⟩, hs, hend⟩ := Option.map_eq_some_iff.mp heval
  obtain ⟨rfl, hrest⟩ := Prod.mk.inj hend
  obtain ⟨hgranted, hkey⟩ := Prod.mk.inj hrest
  refine ⟨s, eq_ok_of_toOption hs, hgranted, hkey, fun hclean => ?_⟩
  have htypes : ∀ e ∈ (rewardFixed (ascii ['t'])).m_fixed_content_config.entries,
      e.2.m_type ≠ unregularRtnContentConfKey := by decide
  obtain ⟨r, fixed, hfind, htype⟩ :=
    hclean.2 unregularRtnContentConfKey (by decide) (by simp [hkey])
  exact htypes _ ((OrdMap.mem_entries_iff _ r fixed).mpr hfind) htype

end TouchServer
end MySrc
