import MySrc.TemplateHttp.HttpRequestPacket
import MySrc.Lib.Run

/-!
# MySrc.PythonProjects.Cache

The tips that are shown once, `python_projects/src/cache/cache.py`.  A call looks for
a key in redis with `get`, and puts it there with `setex` when it is not found; the
caller shows the tip when the call returns `0`.

The calls run in greenlets, and in other processes with the same redis.  Each command
of redis is one step, with any number of steps of other calls between the two of one
call.  `tip_once` bounds how often the calls for a key return `0` as long as no call
puts a key where it has come to be in the meantime.
-/

namespace MySrc
namespace PythonProjects
namespace Cache

open Lib
open Function (update update_of_ne update_self)

/-! ## redis -/

/-- The values of the keys that are there. -/
abbrev Redis := Str → Option Str

/-- What becomes of a command.  Where the source has an exception, so has the model. -/
inductive Reply
  /-- it is carried out, and the reply arrives -/
  | answered
  /-- it is carried out, and the connection breaks before the reply -/
  | lost
  /-- it is not carried out -/
  | failed
  deriving DecidableEq

/-- `myredis.get` -/
def get (redis : Redis) (rkey : Str) : Reply → Except Unit (Option Str)
  | .answered => .ok (redis rkey)
  | .lost => .error ()
  | .failed => .error ()

/-- `myredis.setex`: redis refuses a time that is not positive. -/
def setex (redis : Redis) (rkey value : Str) (time : Int) : Reply → Redis × Except Unit Unit
  | .answered => if 0 < time then (update redis rkey (some value), .ok ()) else (redis, .error ())
  | .lost => if 0 < time then (update redis rkey (some value), .error ()) else (redis, .error ())
  | .failed => (redis, .error ())

/-! ## the cache service -/

/-- `get_remind_secs_from_now2tomorrow`, from the current time and the time of 23:59:59. -/
def getRemindSecsFromNow2tomorrow (now tomorrow : Int) : Int := tomorrow - now

/-- A call: its key in redis, the value to put there, and the seconds the key stays after
the end of the day. -/
structure Call where
  rkey : Str
  value : Str
  further_secs : Int
  deriving DecidableEq

/-- `REDIS_TIPS_PREFIX` -/
def redisTipsPrefix : Str := ascii ['t', 'i', 'p', 's', '2', '2', '1']

/-- `REDIS_GAMETIMETIPS_PREFIX` -/
def redisGametimetipsPrefix : Str := ascii ['g', 'a', 'm', 'e', 't', 'i', 'm', 'e', '2', '2', '3']

/-- `REDIS_GOLDCARDLEVELTIPS_PREFIX` -/
def redisGoldcardleveltipsPrefix : Str :=
  ascii ['g', 'o', 'l', 'd', 'c', 'a', 'r', 'd', 'l', 'e', 'v', 'e', 'l', '2', '2', '3']

/-- `REDIS_NIUXGOLDCOUPONTIPS_PREFIX` -/
def redisNiuxgoldcoupontipsPrefix : Str :=
  ascii ['n', 'i', 'u', 'x', 'g', 'o', 'l', 'd', 'c', 'o', 'u', 'p', 'o', 'n', '2', '2', '3']

/-- `REDIS_COMMON_PREFIX` -/
def redisCommonPrefix : Str := ascii ['c', 'o', 'm', 'm', 'o', 'n']

/-- `exist_and_insert` -/
def existAndInsert (key value : Str) : Call := ⟨redisTipsPrefix ++ key, value, 0⟩

/-- `exist_and_insert_4gametime`, whose key has the value in it. -/
def existAndInsert4gametime (key value : Str) : Call :=
  ⟨redisGametimetipsPrefix ++ key ++ value, value, 0⟩

/-- `exist_and_insert_4goldcardlevel` -/
def existAndInsert4goldcardlevel (key value : Str) : Call :=
  ⟨redisGoldcardleveltipsPrefix ++ key, value, 0⟩

/-- `exist_and_insert_4niuxgoldcoupon` -/
def existAndInsert4niuxgoldcoupon (key value : Str) : Call :=
  ⟨redisNiuxgoldcoupontipsPrefix ++ key, value, 0⟩

/-- `common_exist_and_insert` -/
def commonExistAndInsert (keyPrefix param key value : Str) (dayno : Int) : Call :=
  ⟨redisCommonPrefix ++ keyPrefix ++ param ++ key, value, (dayno - 1) * 86400⟩

/-- The first half of the five functions, up to the test of `rvalue`: the result, unless the
key is to be put there. -/
def Call.exist (call : Call) (redis : Redis) (reply : Reply) : Option Int :=
  match get redis call.rkey reply with
  | .error _ => some (-1)
  | .ok none => none
  | .ok (some _) => some 1

/-- The second half of the five functions. -/
def Call.insert (call : Call) (redis : Redis) (now tomorrow : Int) (reply : Reply) :
    Redis × Int :=
  let set := setex redis call.rkey call.value
    (getRemindSecsFromNow2tomorrow now tomorrow + call.further_secs) reply
  match set.2 with
  | .error _ => (set.1, -1)
  | .ok _ => (set.1, 0)

structure Server where
  redis : Redis
  /-- the calls that have not found their key and have yet to put it there -/
  inserting : List Call

inductive Act
  /-- a call begins, and looks for its key -/
  | exist (call : Call) (reply : Reply)
  /-- a call that has not found its key puts it there -/
  | insert (call : Call) (now tomorrow : Int) (reply : Reply)
  /-- the time of a key is over -/
  | expire (rkey : Str)

inductive Event
  | returned (call : Call) (result : Int)
  | nothing
  deriving DecidableEq

def step (s : Server) : Act → Except Fault (Server × Event)
  | .exist call reply =>
      match call.exist s.redis reply with
      | some result => .ok (s, .returned call result)
      | none => .ok ({ s with inserting := call :: s.inserting }, .nothing)
  | .insert call now tomorrow reply =>
      let set := call.insert s.redis now tomorrow reply
      .ok (⟨set.1, s.inserting.erase call⟩, .returned call set.2)
  | .expire rkey => .ok ({ s with redis := update s.redis rkey none }, .nothing)

/-- A key is put there by a call that has not found it. -/
def Enabled (s : Server) : Act → Prop
  | .insert call _ _ _ => call ∈ s.inserting
  | _ => True

instance (s : Server) (act : Act) : Decidable (Enabled s act) :=
  match act with
  | .exist _ _ => inferInstanceAs (Decidable True)
  | .insert call _ _ _ => inferInstanceAs (Decidable (call ∈ s.inserting))
  | .expire _ => inferInstanceAs (Decidable True)

/-! ## showing a tip once -/

/-- A key is put there although it has come to be there since the call looked for it. -/
def collides (s : Server) : Act → Bool
  | .insert call now tomorrow reply =>
      reply ≠ .failed && 0 < getRemindSecsFromNow2tomorrow now tomorrow + call.further_secs &&
        (s.redis call.rkey).isSome
  | _ => false

/-- How many of the calls for a key have returned `0`. -/
def shown (rkey : Str) (t : List (Act × Event)) : Nat :=
  t.countP fun p => match p.2 with
    | .returned call result => call.rkey = rkey && result = 0
    | .nothing => false

/-- How often the time of a key was over. -/
def periods (rkey : Str) (t : List (Act × Event)) : Nat :=
  t.countP fun p => match p.1 with
    | .expire expired => expired = rkey
    | _ => false

theorem shown_append (rkey : Str) (t : List (Act × Event)) (act : Act) (event : Event) :
    shown rkey (t ++ [(act, event)]) = shown rkey t + match event with
      | .returned call result => if call.rkey = rkey ∧ result = 0 then 1 else 0
      | .nothing => 0 := by
  rw [shown, List.countP_append, List.countP_singleton]
  cases event <;> simp [shown]

theorem periods_append (rkey : Str) (t : List (Act × Event)) (act : Act) (event : Event) :
    periods rkey (t ++ [(act, event)]) = periods rkey t + match act with
      | .expire expired => if expired = rkey then 1 else 0
      | _ => 0 := by
  rw [periods, List.countP_append, List.countP_singleton]
  cases act <;> simp [periods]

/-- A key that is not there may be put there once more. -/
def absent (redis : Redis) (rkey : Str) : Nat := if redis rkey = none then 1 else 0

theorem absent_update (redis : Redis) (rkey q : Str) (value : Option Str) :
    absent (update redis rkey value) q =
      if q = rkey then (if value = none then 1 else 0) else absent redis q := by
  by_cases hq : q = rkey <;> simp [absent, hq]

/-- The calls that have returned `0`, with the one to come, are covered by the periods. -/
def OnceInv (t : List (Act × Event)) (s : Server) : Prop :=
  ∀ rkey, shown rkey t + absent s.redis rkey ≤ periods rkey t + 1

/-- The first half of a call never returns `0`. -/
theorem Call.exist_ne_zero {call : Call} {redis : Redis} {reply : Reply} {result : Int}
    (h : call.exist redis reply = some result) : result ≠ 0 := by
  unfold Call.exist at h
  split at h
  · cases h; decide
  · cases h
  · cases h; decide

/-- What the second half of a call can do: put the key there, with or without an answer, or
nothing. -/
theorem Call.insert_cases (call : Call) (redis : Redis) (now tomorrow : Int) (reply : Reply) :
    (reply ≠ .failed ∧ 0 < getRemindSecsFromNow2tomorrow now tomorrow + call.further_secs ∧
        (call.insert redis now tomorrow reply).1 = update redis call.rkey (some call.value)) ∨
      call.insert redis now tomorrow reply = (redis, -1) := by
  unfold Call.insert setex
  by_cases htime : 0 < getRemindSecsFromNow2tomorrow now tomorrow + call.further_secs
  · cases reply <;> simp [htime]
  · cases reply <;> simp [htime]

/-- Every step that does not collide keeps the calls covered. -/
theorem OnceInv.step {t : List (Act × Event)} {s s' : Server} {act : Act} {event : Event}
    (h : OnceInv t s) (hok : collides s act = false) (hs : step s act = .ok (s', event)) :
    OnceInv (t ++ [(act, event)]) s' := by
  intro rkey
  have hcovered := h rkey
  rw [shown_append, periods_append]
  cases act with
  | exist call reply =>
      simp only [Cache.step] at hs
      split at hs
      · next result hresult =>
          cases hs
          simp only [Call.exist_ne_zero hresult, and_false, if_false]
          exact hcovered
      · cases hs
        exact hcovered
  | insert call now tomorrow reply =>
      cases hs
      rcases call.insert_cases s.redis now tomorrow reply with ⟨hreply, htime, hset⟩ | hset
      · -- the key was not there, and is there now
        have hnew : s.redis call.rkey = none := by simpa [collides, hreply, htime] using hok
        rw [hset, absent_update]
        by_cases hkey : rkey = call.rkey
        · subst hkey
          have habsent : absent s.redis call.rkey = 1 := if_pos hnew
          simp only [if_true, Option.some_ne_none, if_false]
          split <;> omega
        · rw [if_neg hkey]
          simp only [Ne.symm hkey, false_and, if_false]
          exact hcovered
      · rw [hset]
        simpa using hcovered
  | expire expired =>
      cases hs
      rw [absent_update]
      by_cases hkey : expired = rkey
      · simp only [hkey, if_true]
        omega
      · rw [if_neg (Ne.symm hkey)]
        simp only [hkey, if_false]
        exact hcovered

/-- **Tips**: in every run in which no call puts a key where it has come to be since the call
looked for it, at most one call for a key returns `0` in each period of the key. -/
theorem tip_once {s₀ s : Server} {t : List (Act × Event)}
    (h : Run Cache.step (fun s act => Enabled s act ∧ collides s act = false) s₀ t s)
    (rkey : Str) : shown rkey t ≤ periods rkey t + 1 := by
  have hinit : OnceInv [] s₀ := by
    intro rkey
    unfold absent
    split <;> simp [shown, periods]
  have hinv : OnceInv t s := by
    refine h.invariant hinit ?_
    intro t s act s' event hI hok hs
    exact hI.step hok.2 hs
  have hcovered := hinv rkey
  omega

/-- A server without keys. -/
def Server.init : Server := ⟨fun _ => none, []⟩

/-- The call for the tip of the product `7`. -/
def tip : Call := existAndInsert [55] [55]

/-- The call for the tip of a business with the parameter `7`, which stays for two days. -/
def commonTip : Call := commonExistAndInsert [98] [] [55] [50] 2

/-- One call after the other: the first returns `0`, and the second `1`. -/
theorem tip_once_in_turn :
    ∃ t s, Run step (fun s act => Enabled s act ∧ collides s act = false) Server.init t s ∧
      t.map (·.2) = [.nothing, .returned tip 0, .returned tip 1] ∧
      shown tip.rkey t ≤ periods tip.rkey t + 1 := by
  have hreplay : (replay step (fun s act => Enabled s act ∧ collides s act = false) Server.init
      [.exist tip .answered, .insert tip 100 200 .answered, .exist tip .answered]).map
        (fun r => r.1.map (·.2)) = some [.nothing, .returned tip 0, .returned tip 1] := by
    decide +kernel
  obtain ⟨⟨t, s⟩, hs, hevents⟩ := Option.map_eq_some_iff.mp hreplay
  have hrun := Run.nil.replay hs
  exact ⟨t, s, hrun, hevents, tip_once hrun _⟩

/-- Two calls of `exist_and_insert` look for their key before either of them puts it there,
and so do two of `common_exist_and_insert`: all of them return `0`, in one period. -/
theorem tip_twice :
    ∃ t s, Run step Enabled Server.init t s ∧
      shown tip.rkey t = 2 ∧ periods tip.rkey t = 0 ∧
      shown commonTip.rkey t = 2 ∧ periods commonTip.rkey t = 0 := by
  have hreplay : (replay step Enabled Server.init
      [.exist tip .answered, .exist tip .answered,
        .insert tip 100 200 .answered, .insert tip 100 200 .answered,
        .exist commonTip .answered, .exist commonTip .answered,
        .insert commonTip 100 200 .answered, .insert commonTip 100 200 .answered]).map
        (fun r => [shown tip.rkey r.1, periods tip.rkey r.1,
          shown commonTip.rkey r.1, periods commonTip.rkey r.1]) = some [2, 0, 2, 0] := by
    decide +kernel
  obtain ⟨⟨t, s⟩, hs, hcounts⟩ := Option.map_eq_some_iff.mp hreplay
  simp only [List.cons.injEq, and_true] at hcounts
  exact ⟨t, s, Run.nil.replay hs, hcounts⟩

end Cache
end PythonProjects
end MySrc
