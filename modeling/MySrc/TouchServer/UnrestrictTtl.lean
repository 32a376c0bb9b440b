import MySrc.TouchServer.Requests
import MySrc.Lib.Expiry

/-!
# MySrc.TouchServer.UnrestrictTtl

How long the sets of the unrestrict conditions live in redis: `do_update_configs` of
`xlgame_touch_server/src/filters/filter_config.cpp` stores them and lets them expire after a
day, `do_flush_redis_ttl_in_unrestrict_cond_config`, which a timer calls twice a day, is to
renew them, and `do_find_in_unrestrict_cond_config` looks into them.

The flush puts the head of the business configurations in front of its keys, and the other
two the head of the conditions.  So no flush ever renews a set, and each is gone a day after
it was stored (`unrestrict_ttl_never`).
-/

namespace MySrc
namespace TouchServer
namespace UnrestrictTtl

open Lib

/-! ## redis -/

/-- The sets, which may expire. -/
abbrev Redis := Expiring Str (List Str)

/-- What becomes of a command. -/
def answer (redis redis' : Redis) (result : Int) : Requests.Reply → Redis × Int
  | .answered => (redis', result)
  | .lost => (redis', -1)
  | .failed => (redis, -1)

/-- `do_redis_sadd` -/
def doRedisSadd (redis : Redis) (key value : Str) (reply : Requests.Reply) : Redis × Int :=
  answer redis (redis.put (cStr key) fun members => (members.getD []).insert (cStr value))
    (if (redis.get (cStr key)).any (·.contains (cStr value)) then 0 else 1) reply

/-- `do_redis_expire` -/
def doRedisExpire (redis : Redis) (key : Str) (secs : Nat) (reply : Requests.Reply) :
    Redis × Int :=
  answer redis (redis.expire (cStr key) secs) (if (redis.get (cStr key)).isSome then 1 else 0)
    reply

/-- What `do_redis_sismember` finds. -/
def sets (redis : Redis) : RedisSets where
  members key value := (redis.get key).any (·.contains value)
  fails _ _ := false

/-! ## the three functions -/

/-- `key` of `do_update_configs` -/
def storeKey (row : Row) : Str :=
  redisHeadForUnrestrictCond ++ getValue uniqTagColumn row ++ getValue controlIdentityColumn row

/-- `key` of `do_flush_redis_ttl_in_unrestrict_cond_config` -/
def flushKey (config : CondConfig) : Str :=
  redisHeadForBusiness ++ config.m_uniq_tag ++ config.m_control_identity

/-- The inner loop of `do_update_configs`, with what becomes of each command: whether it comes
to its end. -/
def saddLoop (key : Str) : List (Row × Requests.Reply) → Redis → Redis × Bool
  | [], redis => (redis, true)
  | (row, reply) :: rest, redis =>
      let result := doRedisSadd redis key (getValue dataColumn row) reply
      if result.2 = -1 then (result.1, false) else saddLoop key rest result.1

/-- An iteration of the loop that brings the conditions to redis. -/
def storeRow (row : Row) (reply_select : List (Row × Requests.Reply)) (reply : Requests.Reply)
    (redis : Redis) : Redis × Bool :=
  let key := storeKey row
  if reply_select.isEmpty then (redis, true)
  else
    let added := saddLoop key reply_select redis
    if added.2 then
      let result := doRedisExpire added.1 key 86400 reply
      (result.1, result.2 ≠ -1)
    else added

/-- The loop of `do_flush_redis_ttl_in_unrestrict_cond_config`. -/
def flushLoop : List (Str × CondConfig) → (Nat → Requests.Reply) → Redis → Redis
  | [], _, redis => redis
  | (_, config) :: rest, reply, redis =>
      flushLoop rest (fun i => reply (i + 1))
        (doRedisExpire redis (flushKey config) 86400 (reply 0)).1

/-- `do_flush_redis_ttl_in_unrestrict_cond_config` -/
def doFlushRedisTtl (m_unrestrict_cond_config : OrdMap Str CondConfig)
    (reply : Nat → Requests.Reply) (redis : Redis) : Redis :=
  flushLoop m_unrestrict_cond_config.entries reply redis

/-! ## runs -/

inductive Act
  /-- a refresh comes to a row -/
  | store (row : Row) (reply_select : List (Row × Requests.Reply)) (reply : Requests.Reply)
  | flush (m_unrestrict_cond_config : OrdMap Str CondConfig) (reply : Nat → Requests.Reply)
  | wait (secs : Nat)

def step (redis : Redis) : Act → Redis
  | .store row reply_select reply => (storeRow row reply_select reply redis).1
  | .flush m_unrestrict_cond_config reply => doFlushRedisTtl m_unrestrict_cond_config reply redis
  | .wait secs => redis.wait secs

def run (acts : List Act) (redis : Redis) : Redis := acts.foldl step redis

/-- The seconds that pass. -/
def elapsed : List Act → Nat
  | [] => 0
  | .wait secs :: acts => secs + elapsed acts
  | _ :: acts => elapsed acts

/-- No refresh stores the set of a key. -/
def NotStored (key : Str) (acts : List Act) : Prop :=
  ∀ row reply_select reply, .store row reply_select reply ∈ acts → cStr (storeKey row) ≠ key

/-! ## the keys -/

/-- The key of a stored set is that of its lookup. -/
theorem storeKey_eq (row : Row) : storeKey row = unrestrictKey (condConfigOfRow row) := rfl

/-- A flush is never about the key of a set: the heads differ in their last digit. -/
theorem flushKey_ne (config config' : CondConfig) :
    cStr (flushKey config) ≠ cStr (unrestrictKey config') := by
  intro h
  have hdigit := congrArg (·[4]?) h
  simp [cStr, flushKey, unrestrictKey, redisHeadForBusiness, redisHeadForUnrestrictCond,
    ascii] at hdigit

/-! ## what a command leaves alone -/

section

variable {key key' : Str} {redis redis' : Redis}

/-- A call that leaves a key alone does so whatever is answered. -/
theorem untouched_answer (h : redis.Untouched key 0 redis') (result : Int)
    (reply : Requests.Reply) : redis.Untouched key 0 (answer redis redis' result reply).1 := by
  cases reply with
  | answered => exact h
  | lost => exact h
  | failed => exact .refl _ _

/-- `SADD` leaves other keys alone. -/
theorem untouched_doRedisSadd (h : key ≠ cStr key') (redis : Redis) (value : Str)
    (reply : Requests.Reply) : redis.Untouched key 0 (doRedisSadd redis key' value reply).1 :=
  untouched_answer (Expiring.untouched_modify h _ _) _ _

/-- `EXPIRE` leaves other keys alone. -/
theorem untouched_doRedisExpire (h : key ≠ cStr key') (redis : Redis) (secs : Nat)
    (reply : Requests.Reply) : redis.Untouched key 0 (doRedisExpire redis key' secs reply).1 :=
  untouched_answer (Expiring.untouched_modify h _ _) _ _

/-- The loop of `SADD` leaves other keys alone. -/
theorem untouched_saddLoop (h : key ≠ cStr key') (reply_select : List (Row × Requests.Reply))
    (redis : Redis) : redis.Untouched key 0 (saddLoop key' reply_select redis).1 := by
  induction reply_select generalizing redis with
  | nil => exact .refl _ _
  | cons r rest ih =>
      have hfirst := untouched_doRedisSadd h redis (getValue dataColumn r.1) r.2
      rw [saddLoop]
      split
      · exact hfirst
      · exact hfirst.trans (ih _)

/-- Storing a row leaves the keys of other rows alone. -/
theorem untouched_storeRow {row : Row} (h : key ≠ cStr (storeKey row))
    (reply_select : List (Row × Requests.Reply)) (reply : Requests.Reply) (redis : Redis) :
    redis.Untouched key 0 (storeRow row reply_select reply redis).1 := by
  have hadded := untouched_saddLoop h reply_select redis
  rw [storeRow]
  split
  · exact .refl _ _
  · dsimp only
    split
    · exact hadded.trans (untouched_doRedisExpire h _ _ _)
    · exact hadded

/-- The flush leaves every key alone that no flush has. -/
theorem untouched_flushLoop (h : ∀ config, key ≠ cStr (flushKey config))
    (entries : List (Str × CondConfig)) (reply : Nat → Requests.Reply) (redis : Redis) :
    redis.Untouched key 0 (flushLoop entries reply redis) := by
  induction entries generalizing reply redis with
  | nil => exact .refl _ _
  | cons e rest ih => exact (untouched_doRedisExpire (h e.2) _ _ _).trans (ih _ _)

/-- A run that does not store a set leaves it to expire. -/
theorem untouched_run {config : CondConfig} {acts : List Act}
    (h : NotStored (cStr (unrestrictKey config)) acts) (redis : Redis) :
    redis.Untouched (cStr (unrestrictKey config)) (elapsed acts) (run acts redis) := by
  induction acts generalizing redis with
  | nil => exact .refl _ _
  | cons act acts ih =>
      have hacts := ih (fun row _ _ hmem => h row _ _ (List.mem_cons_of_mem act hmem))
        (step redis act)
      cases act with
      | store row reply_select reply =>
          have hrow := untouched_storeRow (h row _ _ List.mem_cons_self).symm reply_select reply
            redis
          have hboth := hrow.trans hacts
          rwa [Nat.zero_add] at hboth
      | flush m_unrestrict_cond_config reply =>
          have hflush := untouched_flushLoop (fun config' => (flushKey_ne config' config).symm)
            m_unrestrict_cond_config.entries reply redis
          have hboth := hflush.trans hacts
          rwa [Nat.zero_add] at hboth
      | wait secs => exact (Expiring.untouched_wait _ redis secs).trans hacts

end

/-! ## a set that is stored -/

theorem answer_ne {redis redis' : Redis} {result : Int} {reply : Requests.Reply}
    (h : (answer redis redis' result reply).2 ≠ -1) :
    (answer redis redis' result reply).1 = redis' := by
  cases reply with
  | answered => rfl
  | lost => exact absurd rfl h
  | failed => exact absurd rfl h

/-- A loop of `SADD` that succeeds leaves a set. -/
theorem live_saddLoop {key : Str} {reply_select : List (Row × Requests.Reply)} {redis : Redis}
    (hrows : reply_select ≠ []) (h : (saddLoop key reply_select redis).2 = true) :
    ((saddLoop key reply_select redis).1.live (cStr key)).isSome = true := by
  induction reply_select generalizing redis with
  | nil => exact absurd rfl hrows
  | cons r rest ih =>
      rw [saddLoop] at h ⊢
      split at h
      · cases h
      · next hsadd =>
        rw [if_neg hsadd]
        cases rest with
        | nil =>
            rw [saddLoop, doRedisSadd, answer_ne hsadd]
            exact Expiring.isSome_live_put _ _ _
        | cons r' rest => exact ih (by simp) h

/-- The set of a row that is stored expires after a day. -/
theorem live_storeRow {row : Row} {reply_select : List (Row × Requests.Reply)}
    {reply : Requests.Reply} {redis redis' : Redis}
    (h : storeRow row reply_select reply redis = (redis', true)) (hrows : reply_select ≠ []) :
    ∃ members, redis'.live (cStr (storeKey row)) = some (members, some (redis'.now + 86400)) := by
  rw [storeRow, if_neg (by simpa using hrows)] at h
  dsimp only at h
  split at h
  · next hadded =>
    obtain ⟨c, hc⟩ := Option.isSome_iff_exists.mp (live_saddLoop hrows hadded)
    rw [Prod.mk.injEq, decide_eq_true_eq] at h
    have hredis : redis' = (saddLoop (storeKey row) reply_select redis).1.expire
        (cStr (storeKey row)) 86400 := h.1.symm.trans (answer_ne h.2)
    rw [hredis]
    exact ⟨c.1, Expiring.live_expire hc (by decide)⟩
  · next hadded =>
    rw [h] at hadded
    exact absurd rfl hadded

/-- **A day.**  A set that is stored and not stored again lives for 86400 seconds, whatever is
flushed in between. -/
theorem get_run {row : Row} {reply_select : List (Row × Requests.Reply)}
    {reply : Requests.Reply} {redis redis' : Redis} {acts : List Act}
    (h : storeRow row reply_select reply redis = (redis', true)) (hrows : reply_select ≠ [])
    (hacts : NotStored (cStr (storeKey row)) acts) :
    (run acts redis').get (cStr (storeKey row)) =
      if elapsed acts < 86400 then redis'.get (cStr (storeKey row)) else none := by
  obtain ⟨members, hlive⟩ := live_storeRow h hrows
  have hmembers : redis'.get (cStr (storeKey row)) = some members := by
    rw [Expiring.get, hlive, Option.map_some]
  have hrun : redis'.Untouched (cStr (storeKey row)) (elapsed acts) (run acts redis') := by
    rw [storeKey_eq] at hacts ⊢
    exact untouched_run hacts redis'
  rw [hrun.get hlive, hmembers]
  simp only [Nat.add_lt_add_iff_left]

/-! ## what the flush is for -/

/-- The three keys of a row are one. -/
def KeysAgree (row : Row) : Prop :=
  cStr (storeKey row) = cStr (unrestrictKey (condConfigOfRow row)) ∧
    cStr (flushKey (condConfigOfRow row)) = cStr (unrestrictKey (condConfigOfRow row))

/-- A condition is configured, and flushed without failure at least every `limit` seconds, the
last time `since` seconds ago. -/
def FlushedWithin (config : CondConfig) (limit : Nat) : Nat → List Act → Prop
  | _, [] => True
  | since, .store _ _ _ :: acts => FlushedWithin config limit since acts
  | _, .flush m_unrestrict_cond_config reply :: acts =>
      (∃ e ∈ m_unrestrict_cond_config.entries, e.2 = config) ∧ (∀ i, reply i = .answered) ∧
        FlushedWithin config limit 0 acts
  | since, .wait secs :: acts =>
      since + secs ≤ limit ∧ FlushedWithin config limit (since + secs) acts

/-- With a flush at least every day, the set of a row never expires. -/
def NeverExpires (row : Row) : Prop :=
  ∀ reply_select reply redis redis' acts, storeRow row reply_select reply redis = (redis', true) →
    reply_select ≠ [] → FlushedWithin (condConfigOfRow row) 86400 0 acts →
    (run acts redis').get (cStr (storeKey row)) ≠ none

/-- Where everything is answered, a row is stored. -/
theorem storeRow_answered (row uid : Row) (redis : Redis) :
    (storeRow row [(uid, .answered)] .answered redis).2 = true := by
  have hsadd : (doRedisSadd redis (storeKey row) (getValue dataColumn uid) .answered).2 ≠ -1 := by
    rw [doRedisSadd, answer]
    split <;> simp
  have hexpire : ∀ redis', (doRedisExpire redis' (storeKey row) 86400 .answered).2 ≠ -1 := by
    intro redis'
    rw [doRedisExpire, answer]
    split <;> simp
  simp [storeRow, saddLoop, hsadd, hexpire]

/-- The set of every row expires, however often it is flushed. -/
theorem not_neverExpires (row : Row) : ¬ NeverExpires row := by
  intro h
  let conds := OrdMap.empty.insertNew (condConfigOfRow row).m_uniq_tag (condConfigOfRow row)
  let acts : List Act := [.wait 43200, .flush conds fun _ => .answered, .wait 43200]
  have hstore : storeRow row [(.empty, .answered)] .answered ⟨0, fun _ => none⟩ =
      ((storeRow row [(.empty, .answered)] .answered ⟨0, fun _ => none⟩).1, true) :=
    Prod.ext rfl (storeRow_answered row .empty _)
  have hflushed : FlushedWithin (condConfigOfRow row) 86400 0 acts :=
    ⟨by decide, ⟨_, List.mem_singleton.mpr rfl, rfl⟩, fun _ => rfl, by decide, trivial⟩
  have hacts : NotStored (cStr (storeKey row)) acts := by
    intro row' reply_select reply hmem
    simp [acts] at hmem
  have hgone := get_run hstore (by simp) hacts
  have hday : ¬ elapsed acts < 86400 := by
    simp [acts, elapsed]
  rw [if_neg hday] at hgone
  exact h _ _ _ _ _ hstore (by simp) hflushed hgone

/-- **The flush renews no set.**  For every row the key that is stored is the one that is
tested, and another one than the one that is flushed; so the set of no row stays, and every
set is gone a day after it was stored last, whatever the schedule of the flushes. -/
theorem unrestrict_ttl_never (row : Row) :
    cStr (storeKey row) = cStr (unrestrictKey (condConfigOfRow row)) ∧
    ¬ KeysAgree row ∧ ¬ NeverExpires row ∧
    ∀ reply_select reply redis redis' acts,
      storeRow row reply_select reply redis = (redis', true) → reply_select ≠ [] →
      NotStored (cStr (storeKey row)) acts →
      (run acts redis').get (cStr (storeKey row)) =
        if elapsed acts < 86400 then redis'.get (cStr (storeKey row)) else none :=
  ⟨by rw [storeKey_eq], fun h => flushKey_ne _ _ h.2, not_neverExpires row,
    fun _ _ _ _ _ h hrows hacts => get_run h hrows hacts⟩

/-- The condition `a` of the identity `b`, whose set has the member `1` and is flushed after
half a day: its key is not the one that is flushed, and after the day the member is gone. -/
theorem unrestrict_ttl_day :
    let row : Row :=
      (OrdMap.empty.insertNew uniqTagColumn [97]).insertNew controlIdentityColumn [98]
    let conds := OrdMap.empty.insertNew [97] (condConfigOfRow row)
    let stored := run [.store row [(OrdMap.empty.insertNew dataColumn [49], .answered)] .answered]
      ⟨0, fun _ => none⟩
    let flushed := run [.wait 43200, .flush conds fun _ => .answered, .wait 43200] stored
    ¬ KeysAgree row ∧
      doFindInUnrestrictCondConfig (sets stored) conds [98] [49] = [97] ∧
      doFindInUnrestrictCondConfig (sets flushed) conds [98] [49] = [] := by
  refine ⟨fun h => flushKey_ne _ _ h.2, ?_, ?_⟩ <;> decide

end UnrestrictTtl
end TouchServer
end MySrc
