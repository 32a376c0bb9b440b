import MySrc.TouchServer.UpdateConfigs
import MySrc.Lib.Run

/-!
# MySrc.TouchServer.Requests

Requests in `entry_business_filter`, and refreshes of the configuration, at the same time.  Each
section under `m_rwlock` and each command of redis is one step, with any number of steps of others
between the steps of a request.

`volumn_bounded` bounds how often a configuration is granted as long as its counter fits an `int`,
and `business_nonnull` keeps null pointers out of `m_business_config` as long as every candidate
is still there when it is looked up.
-/

namespace MySrc
namespace TouchServer
namespace Requests

open Lib
open Function (update update_of_ne update_self)

/-! ## the machine -/

/-- The counters in redis; one that is not there counts from zero. -/
abbrev Counters := Str → Nat

/-- What becomes of a command. -/
inductive Reply
  /-- it is carried out, and the reply arrives -/
  | answered
  /-- it is carried out, and the connection breaks before the reply -/
  | lost
  /-- it is not carried out -/
  | failed
  deriving DecidableEq

/-- `INCRBY` with `1`, which redis refuses where the counter would overflow. -/
def incrby (counters : Counters) (key : Str) : Counters × Option Nat :=
  if counters key + 1 < 2 ^ 63 then
    (update counters key (counters key + 1), some (counters key + 1))
  else (counters, none)

/-- `do_redis_incrby`: the reply is put into an `int`. -/
def doRedisIncrby (counters : Counters) (key : Str) : Reply → Counters × Int
  | .answered =>
      match incrby counters (cStr key) with
      | (counters, some value) => (counters, i32 value)
      | (counters, none) => (counters, -1)
  | .lost => ((incrby counters (cStr key)).1, -1)
  | .failed => (counters, -1)

/-- Where a request is. -/
inductive Phase
  /-- it has not come yet -/
  | idle
  /-- before `do_filt_time_limit_in_business_config` -/
  | timeLimit (response_map_param : StringMap)
  /-- before the lock of `do_filt_input_limit` -/
  | inputLimit (response_map_param : StringMap) (vconfigid : List Str)
  /-- in the loop of `do_filt_output_limit`, before the lock, with the candidates left -/
  | lookup (vconfigid : List Str)
  /-- in the loop, before `do_redis_incrby` -/
  | incrby (bconfig : BusinessConfig) (vconfigid : List Str)
  /-- it has left `entry_business_filter` -/
  | done

structure Server where
  config : FilterConfig
  counters : Counters
  requests : Nat → Phase

inductive Act
  | arrive (request : Nat) (response_map_param : StringMap)
  | timeLimit (request : Nat) (now m_time_stamp : Int)
  | inputLimit (request : Nat)
  | lookup (request : Nat)
  | incrby (request : Nat) (reply : Reply)
  /-- `do_update_configs`, from its lock on; a deletion that fails may be carried out -/
  | update (remote : Remote) (lost : Bool)

inductive Event
  | granted (request : Nat) (bconfig : BusinessConfig)
  | nothing
  deriving DecidableEq

/-- The counters after the deletions of a refresh. -/
def delCounters (lost : Bool) : (Nat → Str → Int) → List (Str × Option BusinessConfig) →
    Counters → Counters
  | _, [], counters => counters
  | _, (_, none) :: _, counters => counters
  | del, (_, some bconfig) :: rest, counters =>
      if del 0 (businessKey bconfig) = -1 then
        if lost then update counters (cStr (businessKey bconfig)) 0 else counters
      else delCounters lost (fun i => del (i + 1)) rest
        (update counters (cStr (businessKey bconfig)) 0)

def Server.goto (s : Server) (request : Nat) (phase : Phase) : Server :=
  { s with requests := update s.requests request phase }

/-- The section of `do_filt_time_limit_in_business_config`. -/
def timeLimitStep (s : Server) (request : Nat) (now m_time_stamp : Int)
    (response_map_param : StringMap) : Except Fault (Server × Event) := do
  let (ret, vconfigid) ←
    doFiltTimeLimitInBusinessConfig now m_time_stamp s.config.m_business_config
  if ret ≠ 0 then return (s.goto request .done, .nothing)
  else return (s.goto request (.inputLimit response_map_param vconfigid), .nothing)

/-- The section of `do_filt_input_limit`. -/
def inputLimitStep (s : Server) (request : Nat) (response_map_param : StringMap)
    (vconfigid : List Str) : Except Fault (Server × Event) := do
  let (ret, vconfigid) ←
    doFiltInputLimit s.config.m_business_config response_map_param vconfigid
  if ret ≠ 0 then return (s.goto request .done, .nothing)
  else return (s.goto request (.lookup vconfigid), .nothing)

/-- The section in the loop of `do_filt_output_limit`. -/
def lookupStep (s : Server) (request : Nat) : List Str → Server
  | [] => s.goto request .done
  | configid :: vconfigid =>
      let found := lookupBusiness s.config.m_business_config configid
      let s := { s with config := { s.config with m_business_config := found.1 } }
      match found.2 with
      | none => s.goto request (.lookup vconfigid)
      | some bconfig => s.goto request (.incrby bconfig vconfigid)

/-- The rest of the loop of `do_filt_output_limit`. -/
def incrbyStep (s : Server) (request : Nat) (bconfig : BusinessConfig) (vconfigid : List Str)
    (reply : Reply) : Server × Event :=
  let result := doRedisIncrby s.counters (businessKey bconfig) reply
  let s := { s with counters := result.1 }
  match outputVerdict bconfig result.2 with
  | .error => (s.goto request .done, .nothing)
  | .next => (s.goto request (.lookup vconfigid), .nothing)
  | .granted => (s.goto request .done, .granted request bconfig)

/-- A refresh: an exception that leaves `do_update_configs` is caught nowhere. -/
def updateStep (s : Server) (remote : Remote) (lost : Bool) : Except Fault (Server × Event) :=
  let updated := doUpdateConfigs remote s.config
  match updated.ending with
  | .returns _ => .ok ({ s with
      config := updated.config
      counters := if load remote = none then s.counters
        else delCounters lost remote.del s.config.m_business_config.entries s.counters }, .nothing)
  | .throws => .error .outOfBounds
  | .faults fault => .error fault

/-- An action of a request that is elsewhere does nothing. -/
def step (s : Server) : Act → Except Fault (Server × Event)
  | .arrive request response_map_param =>
      match s.requests request with
      | .idle => .ok (s.goto request (.timeLimit response_map_param), .nothing)
      | _ => .ok (s, .nothing)
  | .timeLimit request now m_time_stamp =>
      match s.requests request with
      | .timeLimit response_map_param =>
          timeLimitStep s request now m_time_stamp response_map_param
      | _ => .ok (s, .nothing)
  | .inputLimit request =>
      match s.requests request with
      | .inputLimit response_map_param vconfigid =>
          inputLimitStep s request response_map_param vconfigid
      | _ => .ok (s, .nothing)
  | .lookup request =>
      match s.requests request with
      | .lookup vconfigid => .ok (lookupStep s request vconfigid, .nothing)
      | _ => .ok (s, .nothing)
  | .incrby request reply =>
      match s.requests request with
      | .incrby bconfig vconfigid => .ok (incrbyStep s request bconfig vconfigid reply)
      | _ => .ok (s, .nothing)
  | .update remote lost => updateStep s remote lost

/-- The server before the first refresh. -/
def Server.init : Server := ⟨⟨.empty, .empty, .empty, .empty⟩, fun _ => 0, fun _ => .idle⟩

/-! ## what a step can do -/

/-- A step leaves everything as it is, moves one request, or is a lookup, an `INCRBY` or a
refresh. -/
theorem step_cases {s s' : Server} {act : Act} {event : Event}
    (hs : step s act = .ok (s', event)) :
    (s' = s ∧ event = .nothing) ∨
      (∃ request phase, s.requests request ≠ .done ∧ s' = s.goto request phase ∧
        event = .nothing) ∨
      (∃ request vconfigid, act = .lookup request ∧ s.requests request = .lookup vconfigid ∧
        s' = lookupStep s request vconfigid ∧ event = .nothing) ∨
      (∃ request reply bconfig vconfigid, act = .incrby request reply ∧
        s.requests request = .incrby bconfig vconfigid ∧
        (s', event) = incrbyStep s request bconfig vconfigid reply) ∨
      ∃ remote lost, act = .update remote lost ∧ updateStep s remote lost = .ok (s', event) := by
  cases act with
  | arrive request response_map_param =>
      simp only [step] at hs
      split at hs
      · next hphase =>
          cases hs
          exact .inr (.inl ⟨request, _, by simp [hphase], rfl, rfl⟩)
      · cases hs
        exact .inl ⟨rfl, rfl⟩
  | timeLimit request now m_time_stamp =>
      simp only [step] at hs
      split at hs
      · next hphase =>
          obtain ⟨⟨ret, vconfigid⟩, -, hs⟩ := bind_eq_ok.mp hs
          simp only at hs
          split at hs
          · cases hs
            exact .inr (.inl ⟨request, _, by simp [hphase], rfl, rfl⟩)
          · cases hs
            exact .inr (.inl ⟨request, _, by simp [hphase], rfl, rfl⟩)
      · cases hs
        exact .inl ⟨rfl, rfl⟩
  | inputLimit request =>
      simp only [step] at hs
      split at hs
      · next hphase =>
          obtain ⟨⟨ret, vconfigid⟩, -, hs⟩ := bind_eq_ok.mp hs
          simp only at hs
          split at hs
          · cases hs
            exact .inr (.inl ⟨request, _, by simp [hphase], rfl, rfl⟩)
          · cases hs
            exact .inr (.inl ⟨request, _, by simp [hphase], rfl, rfl⟩)
      · cases hs
        exact .inl ⟨rfl, rfl⟩
  | lookup request =>
      simp only [step] at hs
      split at hs
      · next vconfigid hphase =>
          cases hs
          exact .inr (.inr (.inl ⟨request, vconfigid, rfl, hphase, rfl, rfl⟩))
      · cases hs
        exact .inl ⟨rfl, rfl⟩
  | incrby request reply =>
      simp only [step] at hs
      split at hs
      · next bconfig vconfigid hphase =>
          exact .inr (.inr (.inr (.inl
            ⟨request, reply, bconfig, vconfigid, rfl, hphase, (Except.ok.inj hs).symm⟩)))
      · cases hs
        exact .inl ⟨rfl, rfl⟩
  | update remote lost => exact .inr (.inr (.inr (.inr ⟨remote, lost, rfl, hs⟩)))

/-- A lookup moves its request, and changes the map of the configurations only. -/
theorem lookupStep_cases (s : Server) (request : Nat) (vconfigid : List Str) :
    (lookupStep s request vconfigid).counters = s.counters ∧
      (∃ phase, (lookupStep s request vconfigid).requests = update s.requests request phase) ∧
      ((lookupStep s request vconfigid).config = s.config ∨
        ∃ configid rest, vconfigid = configid :: rest ∧
          (lookupStep s request vconfigid).config.m_business_config =
            (lookupBusiness s.config.m_business_config configid).1) := by
  cases vconfigid with
  | nil => exact ⟨rfl, ⟨_, rfl⟩, .inl rfl⟩
  | cons configid rest =>
      rw [lookupStep]
      split
      · exact ⟨rfl, ⟨_, rfl⟩, .inr ⟨configid, rest, rfl, rfl⟩⟩
      · exact ⟨rfl, ⟨_, rfl⟩, .inr ⟨configid, rest, rfl, rfl⟩⟩

/-- An `INCRBY` moves its request and counts; what is granted is the configuration that was
looked up, for a result up to its limit. -/
theorem incrbyStep_cases {s s' : Server} {request : Nat} {bconfig : BusinessConfig}
    {vconfigid : List Str} {reply : Reply} {event : Event}
    (h : (s', event) = incrbyStep s request bconfig vconfigid reply) :
    s'.config = s.config ∧
      s'.counters = (doRedisIncrby s.counters (businessKey bconfig) reply).1 ∧
      (∃ phase, s'.requests = update s.requests request phase) ∧
      (event = .nothing ∨
        event = .granted request bconfig ∧ s'.requests request = .done ∧
          (doRedisIncrby s.counters (businessKey bconfig) reply).2 ≠ -1 ∧
          (doRedisIncrby s.counters (businessKey bconfig) reply).2 ≤ volumnLimit bconfig) := by
  simp only [incrbyStep] at h
  generalize doRedisIncrby s.counters (businessKey bconfig) reply = result at h
  obtain ⟨counters, value⟩ := result
  cases hverdict : outputVerdict bconfig value with
  | error =>
      rw [hverdict] at h
      cases h
      exact ⟨rfl, rfl, ⟨_, rfl⟩, .inl rfl⟩
  | next =>
      rw [hverdict] at h
      cases h
      exact ⟨rfl, rfl, ⟨_, rfl⟩, .inl rfl⟩
  | granted =>
      rw [hverdict] at h
      cases h
      refine ⟨rfl, rfl, ⟨_, rfl⟩, .inr ⟨rfl, update_self .., ?_⟩⟩
      unfold outputVerdict at hverdict
      split_ifs at hverdict with herror hlimit
      exact ⟨herror, Int.not_lt.mp hlimit⟩

theorem granted_incrbyStep {s : Server} {request : Nat} {bconfig : BusinessConfig}
    {vconfigid : List Str} {reply : Reply}
    (hne : (doRedisIncrby s.counters (businessKey bconfig) reply).2 ≠ -1)
    (hle : (doRedisIncrby s.counters (businessKey bconfig) reply).2 ≤ volumnLimit bconfig) :
    (incrbyStep s request bconfig vconfigid reply).2 = .granted request bconfig := by
  simp only [incrbyStep, outputVerdict, if_neg hne, if_neg (Int.not_lt.mpr hle)]

/-- `INCRBY` fails, or counts one more. -/
theorem doRedisIncrby_cases (counters : Counters) (key : Str) (reply : Reply) :
    doRedisIncrby counters key reply = (counters, -1) ∨
      (doRedisIncrby counters key reply).1 =
          update counters (cStr key) (counters (cStr key) + 1) ∧
        ((doRedisIncrby counters key reply).2 = -1 ∨
          (doRedisIncrby counters key reply).2 = i32 (counters (cStr key) + 1 : Nat)) := by
  by_cases hroom : counters (cStr key) + 1 < 2 ^ 63
  · have hincr : incrby counters (cStr key) =
        (update counters (cStr key) (counters (cStr key) + 1), some (counters (cStr key) + 1)) :=
      if_pos hroom
    cases reply with
    | answered => exact .inr (by simp [doRedisIncrby, hincr])
    | lost => exact .inr (by simp [doRedisIncrby, hincr])
    | failed => exact .inl rfl
  · have hincr : incrby counters (cStr key) = (counters, none) := if_neg hroom
    refine .inl ?_
    cases reply with
    | answered => simp only [doRedisIncrby, hincr]
    | lost => simp only [doRedisIncrby, hincr]
    | failed => rfl

/-- A refresh that returns has filled the maps, or not, and deleted counters. -/
theorem updateStep_cases {s s' : Server} {remote : Remote} {lost : Bool} {event : Event}
    (h : updateStep s remote lost = .ok (s', event)) :
    event = .nothing ∧ s'.requests = s.requests ∧
      s'.config = (doUpdateConfigs remote s.config).config ∧
      s'.counters = if load remote = none then s.counters
        else delCounters lost remote.del s.config.m_business_config.entries s.counters := by
  simp only [updateStep] at h
  split at h
  · cases h
    exact ⟨rfl, rfl, rfl, rfl⟩
  · cases h
  · cases h

/-! ## the limit -/

/-- How many times a configuration is granted to a request, of those with a property. -/
def grants (p : Nat → BusinessConfig → Bool) (t : List (Act × Event)) : Nat :=
  t.countP fun q => match q.2 with
    | .granted request bconfig => p request bconfig
    | .nothing => false

theorem grants_append (p : Nat → BusinessConfig → Bool) (t : List (Act × Event)) (act : Act)
    (event : Event) :
    grants p (t ++ [(act, event)]) = grants p t + match event with
      | .granted request bconfig => if p request bconfig then 1 else 0
      | .nothing => 0 := by
  rw [grants, List.countP_append, List.countP_singleton]
  cases event <;> simp [grants]

/-- A configuration that is granted is granted to a request that is done with it. -/
def OneInv (t : List (Act × Event)) (s : Server) : Prop :=
  ∀ request, grants (fun r _ => r = request) t = 0 ∨
    grants (fun r _ => r = request) t = 1 ∧ s.requests request = .done

/-- After each step a request has one grant at most, and is done with it. -/
theorem OneInv.step {t : List (Act × Event)} {s s' : Server} {act : Act} {event : Event}
    (h : OneInv t s) (hs : Requests.step s act = .ok (s', event)) :
    OneInv (t ++ [(act, event)]) s' := by
  -- a request that is done is moved no more
  have hmoved : ∀ request, s.requests request ≠ .done → ∀ phase, event = .nothing →
      s'.requests = update s.requests request phase → OneInv (t ++ [(act, event)]) s' := by
    rintro request hphase phase rfl hrequests r
    rw [grants_append, hrequests]
    rcases h r with hzero | ⟨hone, hdone⟩
    · exact .inl hzero
    · have hne : r ≠ request := by
        rintro rfl
        exact hphase hdone
      exact .inr ⟨hone, by rw [update_of_ne hne, hdone]⟩
  rcases step_cases hs with ⟨rfl, rfl⟩ | ⟨request, phase, hphase, rfl, rfl⟩ |
    ⟨request, vconfigid, rfl, hphase, rfl, rfl⟩ | ⟨request, reply, bconfig, vconfigid, rfl, hphase,
      hincrby⟩ | ⟨remote, lost, rfl, hupdate⟩
  · intro request
    rw [grants_append]
    exact h request
  · exact hmoved request hphase phase rfl rfl
  · obtain ⟨-, ⟨phase, hrequests⟩, -⟩ := lookupStep_cases s request vconfigid
    exact hmoved request (by simp [hphase]) phase rfl hrequests
  · obtain ⟨-, -, ⟨phase, hrequests⟩, rfl | ⟨rfl, hdone, -⟩⟩ := incrbyStep_cases hincrby
    · exact hmoved request (by simp [hphase]) phase rfl hrequests
    · intro r
      rw [grants_append]
      by_cases hr : request = r
      · subst hr
        rcases h request with hzero | ⟨-, hdone'⟩
        · exact .inr ⟨by simp [hzero], hdone⟩
        · rw [hphase] at hdone'
          cases hdone'
      · simp only [hr, decide_false, Bool.false_eq_true, if_false, Nat.add_zero]
        rw [hrequests, update_of_ne (Ne.symm hr)]
        exact h r
  · obtain ⟨rfl, hrequests, -⟩ := updateStep_cases hupdate
    intro request
    rw [grants_append, hrequests]
    exact h request

/-- The counter of the configurations with a start time and an id. -/
def counterKey (valid_start_unixtime configid : Str) : Str :=
  cStr (redisHeadForBusiness ++ valid_start_unixtime ++ configid)

/-- A configuration with a start time and an id, and a limit up to a given one. -/
def limitedTo (valid_start_unixtime configid : Str) (limit : Nat) (bconfig : BusinessConfig) :
    Bool :=
  bconfig.m_valid_start_unixtime = valid_start_unixtime && bconfig.m_configid = configid &&
    atouint32 bconfig.m_volumn ≤ limit

/-- A refresh does not reset a counter. -/
def keepsCounter (key : Str) (s : Server) : Act → Bool
  | .update remote lost => load remote = none ||
      delCounters lost remote.del s.config.m_business_config.entries s.counters key =
        s.counters key
  | _ => true

/-- An `INCRBY` of a counter brings it to a value that fits an `int`. -/
def fitsInt (key : Str) (s : Server) : Act → Bool
  | .incrby request _ =>
      match s.requests request with
      | .incrby bconfig _ => cStr (businessKey bconfig) ≠ key || s.counters key + 1 < 2 ^ 31
      | _ => true
  | _ => true

/-- The limit as an `int` is not above the limit. -/
theorem volumnLimit_of_limitedTo {valid_start_unixtime configid : Str} {limit : Nat}
    {bconfig : BusinessConfig}
    (h : limitedTo valid_start_unixtime configid limit bconfig = true) :
    cStr (businessKey bconfig) = counterKey valid_start_unixtime configid ∧
      volumnLimit bconfig ≤ limit := by
  simp only [limitedTo, Bool.and_eq_true, decide_eq_true_eq] at h
  obtain ⟨⟨hstart, hid⟩, hle⟩ := h
  refine ⟨by rw [businessKey, hstart, hid, counterKey], ?_⟩
  calc
    volumnLimit bconfig ≤ (atouint32 bconfig.m_volumn : Int) := i32_natCast_le _
    _ ≤ limit := Int.ofNat_le.mpr hle

/-- The configurations that are granted were counted, and are within the limit. -/
def VolumnInv (valid_start_unixtime configid : Str) (limit : Nat) (t : List (Act × Event))
    (s : Server) : Prop :=
  grants (fun _ => limitedTo valid_start_unixtime configid limit) t ≤ limit ∧
    grants (fun _ => limitedTo valid_start_unixtime configid limit) t ≤
      s.counters (counterKey valid_start_unixtime configid)

theorem le_update_succ (counters : Counters) (key q : Str) :
    counters q ≤ update counters key (counters key + 1) q := by
  by_cases hq : q = key
  · rw [hq, update_self]
    exact Nat.le_succ _
  · rw [update_of_ne hq]

/-- Each step keeps the grants of a configuration within its counter and its limit. -/
theorem VolumnInv.step {valid_start_unixtime configid : Str} {limit : Nat}
    {t : List (Act × Event)} {s s' : Server} {act : Act} {event : Event}
    (h : VolumnInv valid_start_unixtime configid limit t s)
    (hkeeps : keepsCounter (counterKey valid_start_unixtime configid) s act = true)
    (hfits : fitsInt (counterKey valid_start_unixtime configid) s act = true)
    (hs : Requests.step s act = .ok (s', event)) :
    VolumnInv valid_start_unixtime configid limit (t ++ [(act, event)]) s' := by
  obtain ⟨hle, hcounted⟩ := h
  unfold VolumnInv
  rw [grants_append]
  rcases step_cases hs with ⟨rfl, rfl⟩ | ⟨request, phase, -, rfl, rfl⟩ |
    ⟨request, vconfigid, rfl, -, rfl, rfl⟩ | ⟨request, reply, bconfig, vconfigid, rfl, hphase,
      hincrby⟩ | ⟨remote, lost, rfl, hupdate⟩
  · exact ⟨hle, hcounted⟩
  · exact ⟨hle, hcounted⟩
  · rw [(lookupStep_cases s request vconfigid).1]
    exact ⟨hle, hcounted⟩
  · obtain ⟨-, hcounters, -, hevent⟩ := incrbyStep_cases hincrby
    rw [hcounters]
    have hfits : cStr (businessKey bconfig) = counterKey valid_start_unixtime configid →
        s.counters (counterKey valid_start_unixtime configid) + 1 < 2 ^ 31 := by
      intro hkey
      simpa [fitsInt, hphase, hkey] using hfits
    rcases doRedisIncrby_cases s.counters (businessKey bconfig) reply with
      hfailed | ⟨hincr, hresult⟩
    · rcases hevent with rfl | ⟨-, -, hne, -⟩
      · rw [hfailed]
        exact ⟨hle, hcounted⟩
      · rw [hfailed] at hne
        exact absurd rfl hne
    · rw [hincr]
      have hmono := le_update_succ s.counters (cStr (businessKey bconfig))
        (counterKey valid_start_unixtime configid)
      rcases hevent with rfl | ⟨rfl, -, hne, hwithin⟩
      · exact ⟨hle, le_trans hcounted hmono⟩
      · by_cases hlimited : limitedTo valid_start_unixtime configid limit bconfig = true
        · obtain ⟨hkey, hlimit⟩ := volumnLimit_of_limitedTo hlimited
          have hroom := hfits hkey
          rw [hkey] at hresult ⊢
          rw [hresult.resolve_left hne, i32_eq_self (by constructor <;> omega)] at hwithin
          simp only [hlimited, if_true, update_self]
          omega
        · simp only [hlimited, Bool.false_eq_true, if_false, Nat.add_zero]
          exact ⟨hle, le_trans hcounted hmono⟩
  · obtain ⟨rfl, -, -, hcounters⟩ := updateStep_cases hupdate
    have hkept : s'.counters (counterKey valid_start_unixtime configid) =
        s.counters (counterKey valid_start_unixtime configid) := by
      rw [hcounters]
      split
      · rfl
      · next hload => simpa [keepsCounter, hload] using hkeeps
    rw [hkept]
    exact ⟨hle, hcounted⟩

/-- **Volume limit**: in every run in which the counter of a start time and an id is not reset,
and is brought to values that fit an `int` only, the configurations with them are granted no more
often than their limit says, and a request is granted at most one. -/
theorem volumn_bounded {s₀ s : Server} {t : List (Act × Event)}
    (valid_start_unixtime configid : Str) (limit : Nat)
    (h : Run Requests.step (fun s act =>
        keepsCounter (counterKey valid_start_unixtime configid) s act = true ∧
          fitsInt (counterKey valid_start_unixtime configid) s act = true) s₀ t s) :
    grants (fun _ => limitedTo valid_start_unixtime configid limit) t ≤ limit ∧
      ∀ request, grants (fun r _ => r = request) t ≤ 1 := by
  have hvolumn : VolumnInv valid_start_unixtime configid limit t s := by
    refine h.invariant ⟨Nat.zero_le _, Nat.zero_le _⟩ ?_
    intro t s act s' event hI hok hs
    exact hI.step hok.1 hok.2 hs
  have hone : OneInv t s := by
    refine h.invariant (fun request => .inl rfl) ?_
    intro t s act s' event hI _ hs
    exact hI.step hs
  refine ⟨hvolumn.1, fun request => ?_⟩
  rcases hone request with hzero | ⟨hone, -⟩
  · omega
  · omega

/-- A row with a configuration of which a number is to be granted. -/
def volumnRow (volumn : Str) : Row :=
  (OrdMap.empty.insertNew configidColumn (ascii ['c'])).insertNew volumnColumn volumn

/-- A refresh with configurations only. -/
def businessRemote (reply_3 : TouchServer.Reply) : Remote where
  reply_1 := some []
  reply_2 := some []
  reply_3 := some reply_3
  reply_4 := some []
  select := fun _ _ => some []
  sadd := fun _ _ _ _ => 1
  expire := fun _ _ => 1
  del := fun _ _ => 1

/-- The steps of a request up to its `INCRBY`. -/
def requestActs (request : Nat) : List Act :=
  [.arrive request .empty, .timeLimit request 0 600, .inputLimit request, .lookup request,
    .incrby request .answered]

/-- Of two requests for the one thing that is to be granted, one is granted. -/
theorem volumn_bounded_one :
    ∃ t s, Run step (fun s act => keepsCounter (counterKey [] (ascii ['c'])) s act = true ∧
        fitsInt (counterKey [] (ascii ['c'])) s act = true) Server.init t s ∧
      t.map (·.2) = List.replicate 5 .nothing ++
        [.granted 0 (businessConfigOfRow (volumnRow (ascii ['1'])))] ++
        List.replicate 5 .nothing ∧
      grants (fun _ => limitedTo [] (ascii ['c']) 1) t ≤ 1 ∧
      ∀ request, grants (fun r _ => r = request) t ≤ 1 := by
  have hreplay : (replay step (fun s act =>
        keepsCounter (counterKey [] (ascii ['c'])) s act = true ∧
          fitsInt (counterKey [] (ascii ['c'])) s act = true) Server.init
      ([.update (businessRemote [volumnRow (ascii ['1'])]) false] ++ requestActs 0 ++
        requestActs 1)).map (fun r => r.1.map (·.2)) =
      some (List.replicate 5 .nothing ++
        [.granted 0 (businessConfigOfRow (volumnRow (ascii ['1'])))] ++
        List.replicate 5 .nothing) := by
    decide +kernel
  obtain ⟨⟨t, s⟩, hs, hevents⟩ := Option.map_eq_some_iff.mp hreplay
  have hrun := Run.nil.replay hs
  obtain ⟨hvolumn, hone⟩ := volumn_bounded [] (ascii ['c']) 1 hrun
  exact ⟨t, s, hrun, hevents, hvolumn, hone⟩

/-! ### a counter that does not fit -/

/-- A configuration of which there is nothing to grant. -/
def zeroConfig : BusinessConfig := businessConfigOfRow (volumnRow (ascii ['0']))

def zeroRemote : Remote := businessRemote [volumnRow (ascii ['0'])]

def zeroFilterConfig : FilterConfig := (doUpdateConfigs zeroRemote Server.init.config).config

def zeroKey : Str := counterKey [] (ascii ['c'])

section

variable {s : Server} {request : Nat}

@[simp] theorem goto_requests (s : Server) (request : Nat) (phase : Phase) :
    (s.goto request phase).requests = update s.requests request phase := rfl

@[simp] theorem goto_config (s : Server) (request : Nat) (phase : Phase) :
    (s.goto request phase).config = s.config := rfl

@[simp] theorem goto_counters (s : Server) (request : Nat) (phase : Phase) :
    (s.goto request phase).counters = s.counters := rfl

theorem step_arrive (h : s.requests request = .idle) (response_map_param : StringMap) :
    step s (.arrive request response_map_param) =
      .ok (s.goto request (.timeLimit response_map_param), .nothing) := by
  simp only [step, h]

theorem step_timeLimit {response_map_param : StringMap} {now m_time_stamp : Int}
    {vconfigid : List Str} (h : s.requests request = .timeLimit response_map_param)
    (htime : doFiltTimeLimitInBusinessConfig now m_time_stamp s.config.m_business_config =
      .ok (0, vconfigid)) :
    step s (.timeLimit request now m_time_stamp) =
      .ok (s.goto request (.inputLimit response_map_param vconfigid), .nothing) := by
  simp [step, h, timeLimitStep, htime]

theorem step_inputLimit {response_map_param : StringMap} {vconfigid passed : List Str}
    (h : s.requests request = .inputLimit response_map_param vconfigid)
    (hinput : doFiltInputLimit s.config.m_business_config response_map_param vconfigid =
      .ok (0, passed)) :
    step s (.inputLimit request) = .ok (s.goto request (.lookup passed), .nothing) := by
  simp [step, h, inputLimitStep, hinput]

theorem step_lookup {configid : Str} {vconfigid : List Str} {bconfig : BusinessConfig}
    (h : s.requests request = .lookup (configid :: vconfigid))
    (hfind : s.config.m_business_config.find configid = some (some bconfig)) :
    step s (.lookup request) = .ok (s.goto request (.incrby bconfig vconfigid), .nothing) := by
  simp [step, h, lookupStep, lookupBusiness, hfind]

end

/-- The first three sections of a request, one after the other. -/
theorem zero_sections :
    doFiltTimeLimitInBusinessConfig 0 600 zeroFilterConfig.m_business_config =
        .ok (0, [ascii ['c']]) ∧
      doFiltInputLimit zeroFilterConfig.m_business_config .empty [ascii ['c']] =
        .ok (0, [ascii ['c']]) ∧
      zeroFilterConfig.m_business_config.find (ascii ['c']) = some (some zeroConfig) := by
  refine ⟨eq_ok_of_toOption ?_, eq_ok_of_toOption ?_, ?_⟩
  · decide
  · decide
  · decide

/-- A request alone counts, and is granted what there is not when the counter is cut to a negative
`int`. -/
theorem Run.request {s₀ s : Server} {t : List (Act × Event)} {request : Nat}
    (h : Run step (fun s act => keepsCounter zeroKey s act = true) s₀ t s)
    (hconfig : s.config = zeroFilterConfig) (hidle : s.requests request = .idle)
    (hroom : s.counters zeroKey + 1 < 2 ^ 63) :
    ∃ t' s' event,
      Run step (fun s act => keepsCounter zeroKey s act = true) s₀
        (t' ++ [(.incrby request .answered, event)]) s' ∧
      s'.config = zeroFilterConfig ∧ s'.counters zeroKey = s.counters zeroKey + 1 ∧
      (∀ r, r ≠ request → s'.requests r = s.requests r) ∧
      (i32 (s.counters zeroKey + 1 : Nat) < -1 → event = .granted request zeroConfig) := by
  obtain ⟨htime, hinput, hlookup⟩ := zero_sections
  rw [← hconfig] at htime hinput hlookup
  have h₁ := h.snoc (i := .arrive request .empty) rfl (step_arrive hidle .empty)
  have h₂ := h₁.snoc (i := .timeLimit request 0 600) rfl
    (step_timeLimit (s := s.goto request _) (update_self ..) htime)
  have h₃ := h₂.snoc (i := .inputLimit request) rfl
    (step_inputLimit (s := (s.goto request _).goto request _) (update_self ..) hinput)
  have h₄ := h₃.snoc (i := .lookup request) rfl
    (step_lookup (s := ((s.goto request _).goto request _).goto request _) (update_self ..) hlookup)
  generalize hs₄ : Server.goto _ request (.incrby zeroConfig []) = s₄ at h₄
  have hphase : s₄.requests request = .incrby zeroConfig [] := by simp [← hs₄]
  have hothers : ∀ r, r ≠ request → s₄.requests r = s.requests r := by
    intro r hr
    simp [← hs₄, update_of_ne hr]
  have hcounters₄ : s₄.counters = s.counters := by simp [← hs₄]
  have hconfig₄ : s₄.config = s.config := by simp [← hs₄]
  obtain ⟨⟨s', event⟩, hincrby⟩ :
      ∃ r, r = incrbyStep s₄ request zeroConfig [] .answered := ⟨_, rfl⟩
  have hstep : step s₄ (.incrby request .answered) = .ok (s', event) := by
    simp only [step, hphase, hincrby]
  have h₅ := h₄.snoc rfl hstep
  obtain ⟨hconfig', hcounters, ⟨phase, hrequests⟩, -⟩ := incrbyStep_cases hincrby
  have hresult : doRedisIncrby s₄.counters (businessKey zeroConfig) .answered =
      (update s.counters zeroKey (s.counters zeroKey + 1),
        i32 (s.counters zeroKey + 1 : Nat)) := by
    have hkey : cStr (businessKey zeroConfig) = zeroKey := by decide
    simp only [doRedisIncrby, hkey, incrby, hcounters₄, if_pos hroom]
  refine ⟨_, s', event, h₅, by rw [hconfig', hconfig₄, hconfig], ?_, fun r hr => ?_, fun hneg => ?_⟩
  · simp only [hcounters, hresult, update_self]
  · rw [hrequests, update_of_ne hr, hothers r hr]
  · have hlimit : volumnLimit zeroConfig = 0 := by decide +kernel
    have hevent := congrArg Prod.snd hincrby
    rw [granted_incrbyStep] at hevent
    · exact hevent
    · rw [hresult]
      exact Int.ne_of_lt hneg
    · rw [hresult, hlimit]
      exact Int.le_of_lt (Int.lt_trans hneg (by decide))

/-- Any number of requests, one after the other. -/
theorem reaches_counter (n : Nat) (hn : n < 2 ^ 63) :
    ∃ t s, Run step (fun s act => keepsCounter zeroKey s act = true) Server.init t s ∧
      s.config = zeroFilterConfig ∧ s.counters zeroKey = n ∧
      ∀ request, n ≤ request → s.requests request = .idle := by
  induction n with
  | zero =>
      have hend : (doUpdateConfigs zeroRemote Server.init.config).ending = .returns 0 := by
        decide
      have hrefresh : step Server.init (.update zeroRemote false) =
          .ok ({ Server.init with config := zeroFilterConfig }, .nothing) := by
        have hcounters : delCounters false zeroRemote.del
            Server.init.config.m_business_config.entries Server.init.counters =
              Server.init.counters := rfl
        simp only [step, updateStep, hend, hcounters, ite_self, zeroFilterConfig]
      exact ⟨_, _, Run.nil.snoc rfl hrefresh, rfl, rfl, fun _ _ => rfl⟩
  | succ n ih =>
      obtain ⟨t, s, hrun, hconfig, hcounter, hidle⟩ := ih (by omega)
      obtain ⟨t', s', event, hrun', hconfig', hcounter', hrequests, -⟩ :=
        Run.request hrun hconfig (hidle n le_rfl) (by omega)
      refine ⟨_, s', hrun', hconfig', by omega, fun request hle => ?_⟩
      rw [hrequests request (by omega)]
      exact hidle request (by omega)

/-- After enough requests that were refused, the counter is cut to a negative `int`, and a request
is granted a configuration of which there is nothing to grant. -/
theorem volumn_exceeded :
    ∃ t s, Run step (fun s act => keepsCounter zeroKey s act = true) Server.init t s ∧
      0 < grants (fun _ => limitedTo [] (ascii ['c']) 0) t := by
  obtain ⟨t, s, hrun, hconfig, hcounter, hidle⟩ := reaches_counter (2 ^ 31 - 1) (by omega)
  obtain ⟨t', s', event, hrun', -, -, -, hevent⟩ :=
    Run.request hrun hconfig (hidle _ le_rfl) (by omega)
  have hneg : i32 (s.counters zeroKey + 1 : Nat) < -1 := by
    rw [hcounter, i32_of_overflow (by omega) (by omega)]
    omega
  refine ⟨_, s', hrun', ?_⟩
  have hlimited : limitedTo [] (ascii ['c']) 0 zeroConfig = true := by decide
  rw [grants_append, hevent hneg]
  simp only [hlimited, if_true]
  omega

/-! ## null pointers -/

/-- Every configuration in the map is there. -/
def NonNull (m_business_config : BusinessMap) : Prop := ∀ e ∈ m_business_config.entries, e.2 ≠ none

/-- A candidate is still there when it is looked up. -/
def candidateThere (s : Server) : Act → Bool
  | .lookup request =>
      match s.requests request with
      | .lookup (configid :: _) => (s.config.m_business_config.find configid).isSome
      | _ => true
  | _ => true

/-- The time filter and the deletions follow no null pointer. -/
theorem timeLimitLoop_of_nonNull {now m_time_stamp : Int}
    {entries : List (Str × Option BusinessConfig)} (h : ∀ e ∈ entries, e.2 ≠ none)
    (vconfigid : List Str) :
    ∃ passed, timeLimitLoop now m_time_stamp entries vconfigid = .ok passed := by
  induction entries generalizing vconfigid with
  | nil => exact ⟨vconfigid, rfl⟩
  | cons e entries ih =>
      obtain ⟨bconfig, hbconfig⟩ := Option.ne_none_iff_exists'.mp (h e List.mem_cons_self)
      rw [timeLimitLoop, deref_eq_ok.mpr hbconfig, ok_bind]
      have hrest := ih fun e' he' => h e' (List.mem_cons_of_mem e he')
      split
      · exact hrest _
      · exact hrest _

/-- Entries that are no NULL are deleted without a fault. -/
theorem delLoop_of_nonNull (del : Nat → Str → Int) {entries : List (Str × Option BusinessConfig)}
    (h : ∀ e ∈ entries, e.2 ≠ none) : ∃ finished, delLoop del entries = .ok finished := by
  rcases delLoop_cases del entries with ⟨hok, -⟩ | ⟨hok, -⟩ | ⟨-, i, key, hi, -⟩
  · exact ⟨true, hok⟩
  · exact ⟨false, hok⟩
  · exact absurd rfl (h _ (List.mem_of_getElem? hi))

/-- A refresh puts no null pointer into the map, and follows none. -/
theorem doUpdateConfigs_nonNull {remote : Remote} {config : FilterConfig}
    (h : NonNull config.m_business_config) :
    NonNull (doUpdateConfigs remote config).config.m_business_config ∧
      ∀ fault, (doUpdateConfigs remote config).ending ≠ .faults fault := by
  obtain ⟨finished, hdel⟩ := delLoop_of_nonNull remote.del h
  unfold doUpdateConfigs
  cases load remote with
  | none => exact ⟨h, by simp⟩
  | some replies =>
      obtain ⟨reply_1, reply_2, reply_3, reply_4⟩ := replies
      simp only [hdel]
      cases finished with
      | false => exact ⟨h, by simp⟩
      | true =>
          simp only [refill]
          split
          · refine ⟨?_, by simp⟩
            rintro ⟨configid, p⟩ he
            rw [OrdMap.mem_entries_iff, holds_foldl] at he
            obtain ⟨row, -, rfl⟩ := Option.map_eq_some_iff.mp he
            simp
          · exact ⟨by simp [NonNull, OrdMap.empty], by simp⟩

/-- The lookup of a key that is there changes nothing. -/
theorem lookupBusiness_of_isSome {m_business_config : BusinessMap} {configid : Str}
    (h : (m_business_config.find configid).isSome = true) :
    (lookupBusiness m_business_config configid).1 = m_business_config := by
  obtain ⟨p, hp⟩ := Option.isSome_iff_exists.mp h
  rw [lookupBusiness, hp]

/-- A step that looks up only keys that are there keeps NULL out of the map. -/
theorem nonNull_step {s s' : Server} {act : Act} {event : Event}
    (h : NonNull s.config.m_business_config) (hthere : candidateThere s act = true)
    (hs : step s act = .ok (s', event)) : NonNull s'.config.m_business_config := by
  rcases step_cases hs with ⟨rfl, rfl⟩ | ⟨request, phase, -, rfl, rfl⟩ |
    ⟨request, vconfigid, rfl, hphase, rfl, rfl⟩ | ⟨request, reply, bconfig, vconfigid, rfl, -,
      hincrby⟩ | ⟨remote, lost, rfl, hupdate⟩
  · exact h
  · exact h
  · obtain ⟨-, -, hconfig | ⟨configid, rest, rfl, hconfig⟩⟩ := lookupStep_cases s request vconfigid
    · rw [hconfig]
      exact h
    · rw [hconfig, lookupBusiness_of_isSome (by simpa [candidateThere, hphase] using hthere)]
      exact h
  · rw [(incrbyStep_cases hincrby).1]
    exact h
  · rw [(updateStep_cases hupdate).2.2.1]
    exact (doUpdateConfigs_nonNull h).1

/-- **No null pointers**: in every run in which the candidates are still there when they are looked
up, the map has no null pointer in any state reached, and neither the time filter nor a refresh
follows one. -/
theorem business_nonnull {s : Server} {t : List (Act × Event)}
    (h : Run step (fun s act => candidateThere s act = true) Server.init t s) :
    NonNull s.config.m_business_config ∧
      (∀ now m_time_stamp, ∃ r,
        doFiltTimeLimitInBusinessConfig now m_time_stamp s.config.m_business_config = .ok r) ∧
      ∀ remote fault, (doUpdateConfigs remote s.config).ending ≠ .faults fault := by
  have hnull : NonNull s.config.m_business_config := by
    refine h.invariant (I := fun _ s => NonNull s.config.m_business_config) ?_ ?_
    · simp [NonNull, Server.init, OrdMap.empty]
    · intro t s act s' event hI hok hs
      exact nonNull_step hI hok hs
  refine ⟨hnull, fun now m_time_stamp => ?_, fun remote => (doUpdateConfigs_nonNull hnull).2⟩
  obtain ⟨passed, hloop⟩ := timeLimitLoop_of_nonNull hnull []
  rw [doFiltTimeLimitInBusinessConfig, hloop, ok_bind]
  split
  · exact ⟨_, rfl⟩
  · exact ⟨_, rfl⟩

/-- A request with a refresh on either side of it. -/
theorem business_nonnull_in_turn :
    ∃ t s, Run step (fun s act => candidateThere s act = true) Server.init t s ∧
      t.length = 7 ∧ NonNull s.config.m_business_config := by
  have hreplay : (replay step (fun s act => candidateThere s act = true) Server.init
      ([.update (businessRemote [volumnRow (ascii ['1'])]) false] ++ requestActs 0 ++
        [.update (businessRemote []) false])).map (fun r => r.1.length) = some 7 := by
    decide +kernel
  obtain ⟨⟨t, s⟩, hs, hlength⟩ := Option.map_eq_some_iff.mp hreplay
  have hrun := Run.nil.replay hs
  exact ⟨t, s, hrun, hlength, (business_nonnull hrun).1⟩

/-- A refresh takes a configuration away between the input filter of a request and its lookup,
which then puts a null pointer into the map: the time filter of the next request follows it, and
so does the next refresh. -/
theorem business_null :
    ∃ t s, Run step (fun _ _ => True) Server.init t s ∧
      ¬ NonNull s.config.m_business_config ∧
      doFiltTimeLimitInBusinessConfig 0 600 s.config.m_business_config = .error .nullDeref ∧
      (doUpdateConfigs (businessRemote []) s.config).ending = .faults .nullDeref := by
  have hreplay : (replay step (fun _ _ => True) Server.init
      [.update (businessRemote [volumnRow (ascii ['1'])]) false, .arrive 0 .empty,
        .timeLimit 0 0 600, .inputLimit 0, .update (businessRemote []) false, .lookup 0]).map
      (fun r => r.2.config.m_business_config.entries) = some [(ascii ['c'], none)] := by
    decide
  obtain ⟨⟨t, s⟩, hs, hentries⟩ := Option.map_eq_some_iff.mp hreplay
  simp only at hentries
  have hload : load (businessRemote []) = some ([], [], [], []) := rfl
  refine ⟨t, s, Run.nil.replay hs, ?_, ?_, ?_⟩
  · intro hnull
    exact hnull _ (by rw [hentries]; exact List.mem_cons_self) rfl
  · rw [doFiltTimeLimitInBusinessConfig, hentries]
    rfl
  · rw [doUpdateConfigs, hload, hentries]
    rfl

end Requests
end TouchServer
end MySrc
