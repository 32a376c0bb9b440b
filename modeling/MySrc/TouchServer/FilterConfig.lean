import MySrc.TemplateHttp.Split
import MySrc.Lib.OrdMap

/-!
# MySrc.TouchServer.FilterConfig

`xlgame_touch_server/src/filters/filter_config.cpp`, less `do_update_configs`
(`MySrc.TouchServer.UpdateConfigs`): the configuration, and the questions that the filters ask.

The values of `m_business_config` are pointers, and one of the functions below may put a null
pointer there.  Those of the other maps always point to something and are modelled by what they
point to.
-/

namespace MySrc
namespace TouchServer

open Lib

/-! ## the configuration -/

/-- `fixed_content_response_config` -/
structure FixedContentResponseConfig where
  m_uniq_tag : Str
  m_type : Str
  m_estimated_value : Str
  deriving Repr, DecidableEq

/-- `restrict_cond_config` and `unrestrict_cond_config` -/
structure CondConfig where
  m_uniq_tag : Str
  m_control_identity : Str
  m_estimated_value : Str
  deriving Repr, DecidableEq

/-- `business_config` -/
structure BusinessConfig where
  m_configid : Str
  m_valid_start_unixtime : Str
  m_regular_conf : Str
  m_unregular_conf : Str
  m_regular_rtn_content_conf : Str
  m_unregular_rtn_content_conf : Str
  m_task_conf : Str
  m_volumn : Str
  deriving Repr, DecidableEq

/-- `m_business_config`, of pointers. -/
abbrev BusinessMap := OrdMap Str (Option BusinessConfig)

/-- `filter_config` -/
structure FilterConfig where
  m_fixed_content_config : OrdMap Str FixedContentResponseConfig
  m_restrict_cond_config : OrdMap Str CondConfig
  m_business_config : BusinessMap
  m_unrestrict_cond_config : OrdMap Str CondConfig

/-- `std::map<std::string, std::string>` -/
abbrev StringMap := OrdMap Str Str

/-- `get_value` -/
def getValue (key : Str) (map_get : StringMap) : Str := (map_get.find key).getD []

/-- `REDIS_HEAD_FOR_BUSINESS` -/
def redisHeadForBusiness : Str := ascii ['1', '0', '0', '0', '1']

/-- `REDIS_HEAD_FOR_UNRESTRICT_COND` -/
def redisHeadForUnrestrictCond : Str := ascii ['1', '0', '0', '0', '2']

/-! ## conditions -/

/-- `do_find_in_fixed_content_config`: the type, and the value. -/
def doFindInFixedContentConfig (m_fixed_content_config : OrdMap Str FixedContentResponseConfig)
    (key : Str) : Str × Str :=
  match m_fixed_content_config.find key with
  | some tmp => (tmp.m_type, tmp.m_estimated_value)
  | none => ([], [])

/-- `do_find_in_restrict_cond_config` -/
def doFindInRestrictCondConfig (m_restrict_cond_config : OrdMap Str CondConfig)
    (key value : Str) : Str :=
  match m_restrict_cond_config.entries.find? fun e =>
      value = e.2.m_estimated_value && key = e.2.m_control_identity with
  | some e => e.2.m_uniq_tag
  | none => []

/-- The sets in redis, and which of the queries of a request fail: the query for a parameter and
a condition is known by the name of the one and the tag of the other. -/
structure RedisSets where
  members : Str → Str → Bool
  fails : Str → Str → Bool

/-- The key of the set of a condition. -/
def unrestrictKey (tmp : CondConfig) : Str :=
  redisHeadForUnrestrictCond ++ tmp.m_uniq_tag ++ tmp.m_control_identity

/-- `do_redis_sismember`, which takes the `c_str` of its arguments. -/
def doRedisSismember (redis : RedisSets) (name : Str) (tmp : CondConfig) (value : Str) : Int :=
  if redis.fails name tmp.m_uniq_tag then -1
  else if redis.members (cStr (unrestrictKey tmp)) (cStr value) then 1
  else 0

/-- The loop of `do_find_in_unrestrict_cond_config`. -/
def findUnrestrict (redis : RedisSets) (key value : Str) : List (Str × CondConfig) → Str
  | [] => []
  | e :: rest =>
      if key = e.2.m_control_identity then
        if doRedisSismember redis key e.2 value = -1 then []
        else if doRedisSismember redis key e.2 value = 1 then e.2.m_uniq_tag
        else findUnrestrict redis key value rest
      else findUnrestrict redis key value rest

/-- `do_find_in_unrestrict_cond_config` -/
def doFindInUnrestrictCondConfig (redis : RedisSets)
    (m_unrestrict_cond_config : OrdMap Str CondConfig) (key value : Str) : Str :=
  findUnrestrict redis key value m_unrestrict_cond_config.entries

/-! ## business -/

/-- `atouint64` -/
def atouint64 (str : Str) : Nat :=
  (str.takeWhile isdigit).foldl (fun value c => (10 * value + (c.toNat - 48)) % 2 ^ 64) 0

/-- `now` is outside the time of a configuration. -/
def timeLimited (now m_time_stamp : Int) (bconfig : BusinessConfig) : Bool :=
  let time_limit := (atouint64 bconfig.m_valid_start_unixtime : Int).bmod (2 ^ 64)
  bconfig.m_valid_start_unixtime ≠ [] && (time_limit > now || time_limit + m_time_stamp < now)

/-- A pointer is followed. -/
def deref (p : Option α) : Except Fault α :=
  match p with
  | some a => .ok a
  | none => .error .nullDeref

/-- The loop of `do_filt_time_limit_in_business_config`. -/
def timeLimitLoop (now m_time_stamp : Int) :
    List (Str × Option BusinessConfig) → List Str → Except Fault (List Str)
  | [], vconfigid => .ok vconfigid
  | e :: rest, vconfigid => do
      let bconfig ← deref e.2
      if timeLimited now m_time_stamp bconfig then timeLimitLoop now m_time_stamp rest vconfigid
      else timeLimitLoop now m_time_stamp rest (vconfigid ++ [bconfig.m_configid])

/-- `do_filt_time_limit_in_business_config`: the result, and `vconfigid`. -/
def doFiltTimeLimitInBusinessConfig (now m_time_stamp : Int) (m_business_config : BusinessMap) :
    Except Fault (Int × List Str) := do
  let vconfigid ← timeLimitLoop now m_time_stamp m_business_config.entries []
  if vconfigid = [] ∧ m_business_config.entries ≠ [] then return (-1, vconfigid)
  else return (0, vconfigid)

/-- The flag stays down: nothing is asked for, nothing is known of the request, or every token
that is asked for is among those of the request. -/
def tokensAllowed (conf conf_value : Str) : Bool :=
  conf = [] || conf_value = [] ||
    (split 124 conf).all fun rindex => rindex = [] || (split 124 conf_value).contains rindex

/-- The loop of `do_filt_input_limit`. -/
def inputLimitLoop (m_business_config : BusinessMap)
    (regular_conf_value unregular_conf_value : Str) :
    List Str → List Str → Except Fault (List Str)
  | [], new_vconfigid => .ok new_vconfigid
  | configid :: rest, new_vconfigid =>
      match m_business_config.find configid with
      | none => inputLimitLoop m_business_config regular_conf_value unregular_conf_value rest
          new_vconfigid
      | some p => do
          let bconfig ← deref p
          inputLimitLoop m_business_config regular_conf_value unregular_conf_value rest
            (if tokensAllowed bconfig.m_regular_conf regular_conf_value &&
                tokensAllowed bconfig.m_unregular_conf unregular_conf_value
              then new_vconfigid ++ [configid] else new_vconfigid)

/-- `"regular_conf"`, a key of the response map. -/
def regularConfKey : Str :=
  ascii ['r', 'e', 'g', 'u', 'l', 'a', 'r', '_', 'c', 'o', 'n', 'f']

def unregularConfKey : Str :=
  ascii ['u', 'n', 'r', 'e', 'g', 'u', 'l', 'a', 'r', '_', 'c', 'o', 'n', 'f']

/-- `do_filt_input_limit`: the result, and `vconfigid`.  The response map is empty after it. -/
def doFiltInputLimit (m_business_config : BusinessMap) (response_map_param : StringMap)
    (vconfigid : List Str) : Except Fault (Int × List Str) := do
  let new_vconfigid ← inputLimitLoop m_business_config
    (getValue regularConfKey response_map_param) (getValue unregularConfKey response_map_param)
    vconfigid []
  if new_vconfigid = [] then return (-1, vconfigid) else return (0, new_vconfigid)

/-! ### the output limit -/

/-- `m_business_config[configid]`, which puts a null pointer where there is nothing. -/
def lookupBusiness (m_business_config : BusinessMap) (configid : Str) :
    BusinessMap × Option BusinessConfig :=
  match m_business_config.find configid with
  | some p => (m_business_config, p)
  | none => (m_business_config.insertNew configid none, none)

/-- The key of the counter of a configuration. -/
def businessKey (bconfig : BusinessConfig) : Str :=
  redisHeadForBusiness ++ bconfig.m_valid_start_unixtime ++ bconfig.m_configid

/-- `int limit = SDUtility::atouint32(bconfig->m_volumn)` -/
def volumnLimit (bconfig : BusinessConfig) : Int := i32 (atouint32 bconfig.m_volumn)

/-- What `do_filt_output_limit` does with the result of `do_redis_incrby`. -/
inductive Verdict
  /-- `return -1` -/
  | error
  /-- the next configuration is tried -/
  | next
  /-- the configuration is granted -/
  | granted
  deriving DecidableEq

def outputVerdict (bconfig : BusinessConfig) (result : Int) : Verdict :=
  if result = -1 then .error
  else if volumnLimit bconfig < result then .next
  else .granted

/-- The key under which `do_filt_output_limit` puts `m_regular_rtn_content_conf`. -/
def reglularRtnContentConfKey : Str :=
  ascii ['r', 'e', 'g', 'l', 'u', 'l', 'a', 'r', '_', 'r', 't', 'n', '_', 'c', 'o', 'n', 't', 'e',
    'n', 't', '_', 'c', 'o', 'n', 'f']

def unregularRtnContentConfKey : Str :=
  ascii ['u', 'n', 'r', 'e', 'g', 'u', 'l', 'a', 'r', '_', 'r', 't', 'n', '_', 'c', 'o', 'n', 't',
    'e', 'n', 't', '_', 'c', 'o', 'n', 'f']

def taskConfKey : Str := ascii ['t', 'a', 's', 'k', '_', 'c', 'o', 'n', 'f']

/-- What is put into the response map for a configuration that is granted. -/
def grantedResponse (response_map_param : StringMap) (bconfig : BusinessConfig) : StringMap :=
  ((response_map_param.insertNew reglularRtnContentConfKey bconfig.m_regular_rtn_content_conf)
    |>.insertNew unregularRtnContentConfKey bconfig.m_unregular_rtn_content_conf)
    |>.insertNew taskConfKey bconfig.m_task_conf

/-- The loop of `do_filt_output_limit` for a request that nothing comes between, up to the
configuration that is granted.  `incrby` is what each of the commands of the loop returns. -/
def outputLimitLoop (incrby : Nat → Str → Int) :
    BusinessMap → Nat → List Str → BusinessMap × Option BusinessConfig
  | m_business_config, _, [] => (m_business_config, none)
  | m_business_config, i, configid :: rest =>
      let found := lookupBusiness m_business_config configid
      match found.2 with
      | none => outputLimitLoop incrby found.1 (i + 1) rest
      | some bconfig =>
          match outputVerdict bconfig (incrby i (businessKey bconfig)) with
          | .error => (found.1, none)
          | .next => outputLimitLoop incrby found.1 (i + 1) rest
          | .granted => (found.1, some bconfig)

/-! ## what is granted -/

theorem deref_eq_ok {p : Option α} {a : α} : deref p = .ok a ↔ p = some a := by
  cases p <;> simp [deref]

/-- A configuration that passes the input limit is there, and asks for tokens of the request. -/
def PassesInput (m_business_config : BusinessMap) (regular_conf_value unregular_conf_value : Str)
    (configid : Str) : Prop :=
  ∃ bconfig, m_business_config.find configid = some (some bconfig) ∧
    tokensAllowed bconfig.m_regular_conf regular_conf_value = true ∧
    tokensAllowed bconfig.m_unregular_conf unregular_conf_value = true

theorem inputLimitLoop_passes {m_business_config : BusinessMap}
    {regular_conf_value unregular_conf_value : Str} {vconfigid new_vconfigid passed : List Str}
    (hnew : ∀ configid ∈ new_vconfigid,
      PassesInput m_business_config regular_conf_value unregular_conf_value configid)
    (h : inputLimitLoop m_business_config regular_conf_value unregular_conf_value vconfigid
      new_vconfigid = .ok passed) :
    ∀ configid ∈ passed,
      PassesInput m_business_config regular_conf_value unregular_conf_value configid := by
  induction vconfigid generalizing new_vconfigid with
  | nil =>
      cases h
      exact hnew
  | cons configid rest ih =>
      rw [inputLimitLoop] at h
      split at h
      · exact ih hnew h
      · next p hfind =>
          obtain ⟨bconfig, hp, h⟩ := bind_eq_ok.mp h
          rw [deref_eq_ok] at hp
          subst hp
          refine ih ?_ h
          split
          · next hallowed =>
              intro id hid
              rcases List.mem_append.mp hid with hid | hid
              · exact hnew id hid
              · rw [List.mem_singleton.mp hid]
                exact ⟨bconfig, hfind, Bool.and_eq_true_iff.mp hallowed⟩
          · exact hnew

theorem doFiltInputLimit_passes {m_business_config : BusinessMap} {response_map_param : StringMap}
    {vconfigid passed : List Str}
    (h : doFiltInputLimit m_business_config response_map_param vconfigid = .ok (0, passed)) :
    ∀ configid ∈ passed, PassesInput m_business_config
      (getValue regularConfKey response_map_param) (getValue unregularConfKey response_map_param)
      configid := by
  obtain ⟨new_vconfigid, hloop, h⟩ := bind_eq_ok.mp h
  have hpasses := inputLimitLoop_passes (by simp) hloop
  split at h
  · cases h
  · cases h
    exact hpasses

/-- A lookup leaves what is there where it is. -/
theorem find_lookupBusiness (m_business_config : BusinessMap) (configid q : Str) :
    (lookupBusiness m_business_config configid).1.find q =
      (m_business_config.find q).or (if q = configid then some none else none) := by
  unfold lookupBusiness
  cases hfind : m_business_config.find configid with
  | none => exact OrdMap.find_insertNew _ _ _ _
  | some p =>
      by_cases hq : q = configid
      · simp [hq, hfind]
      · simp [hq]

theorem lookupBusiness_eq_some {m_business_config : BusinessMap} {configid : Str}
    {bconfig : BusinessConfig} :
    (lookupBusiness m_business_config configid).2 = some bconfig ↔
      m_business_config.find configid = some (some bconfig) := by
  unfold lookupBusiness
  cases m_business_config.find configid <;> simp

/-- What is granted is one of the candidates, as it was when the loop began. -/
theorem outputLimitLoop_granted {incrby : Nat → Str → Int} {vconfigid : List Str}
    {m_business_config m_business_config' : BusinessMap} {i : Nat} {bconfig : BusinessConfig}
    (h : outputLimitLoop incrby m_business_config i vconfigid =
      (m_business_config', some bconfig)) :
    ∃ configid ∈ vconfigid, m_business_config.find configid = some (some bconfig) := by
  induction vconfigid generalizing m_business_config i with
  | nil => cases h
  | cons configid rest ih =>
      have hrest : outputLimitLoop incrby (lookupBusiness m_business_config configid).1 (i + 1)
          rest = (m_business_config', some bconfig) →
          ∃ id ∈ configid :: rest, m_business_config.find id = some (some bconfig) := by
        intro hloop
        obtain ⟨id, hid, hfind⟩ := ih hloop
        rw [find_lookupBusiness, Option.or_eq_some_iff] at hfind
        rcases hfind with hfind | ⟨-, hfind⟩
        · exact ⟨id, List.mem_cons_of_mem configid hid, hfind⟩
        · split at hfind <;> cases hfind
      rw [outputLimitLoop] at h
      split at h
      · exact hrest h
      · next found hfound =>
          split at h
          · cases h
          · exact hrest h
          · cases h
            exact ⟨configid, List.mem_cons_self, lookupBusiness_eq_some.mp hfound⟩

end TouchServer
end MySrc
