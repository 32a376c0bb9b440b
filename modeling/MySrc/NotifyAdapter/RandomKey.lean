import MySrc.NotifyAdapter.MessageCodec
import MySrc.Lib.Run

/-!
# MySrc.NotifyAdapter.RandomKey

The random keys of `notify_adapter_v2/src/main/dispatcher.cpp`.  `process_getkey`
puts a new key into redis, and `process_auth` accepts a key that is there and
removes it, so that it can be used once.

The tasks run on the threads of a pool, and on those of other adapters with the
same redis.  Each command of redis is one step; looking for the key and removing
it are two, and the second may fail without anybody noticing.  `randomkey_once`
says that a key is used no more often than it was set as long as neither of the
two ways to use it again is taken.
-/

namespace MySrc
namespace NotifyAdapter
namespace RandomKey

open Lib
open Function (update update_of_ne update_self)

/-! ## redis -/

/-- The keys that are there.  The value is `0` for all of them. -/
abbrev Redis := Str → Bool

/-- What becomes of a command. -/
inductive Reply
  /-- it is carried out, and the reply arrives -/
  | answered
  /-- it is carried out, and the connection breaks before the reply -/
  | lost
  /-- it is not carried out: there is no client in the pool, or no connection -/
  | failed
  deriving DecidableEq

/-- `set_value` -/
def setValue (redis : Redis) (str_key : Str) : Reply → Redis × Int
  | .answered => (update redis str_key true, 0)
  | .lost => (update redis str_key true, -1)
  | .failed => (redis, -1)

/-- `get_value` -/
def getValue (redis : Redis) (str_key : Str) : Reply → Int
  | .answered => if redis str_key then 1 else 0
  | .lost => -1
  | .failed => -1

/-- `del_value` -/
def delValue (redis : Redis) (str_key : Str) : Reply → Redis × Int
  | .answered => (update redis str_key false, if redis str_key then 1 else 0)
  | .lost => (update redis str_key false, -1)
  | .failed => (redis, -1)

/-! ## the dispatcher -/

/-- `PREFIX_RANDOMKEY` -/
def prefixRandomkey : Str := ascii ['r', 'a', 'n', 'd', 'o', 'm', 'k', 'e', 'y']

/-- `prefix_key` as it gets into a command, which takes its `c_str`. -/
def prefixKey (key : Str) : Str := cStr (prefixRandomkey ++ key)

/-- `set_randomkey_cache`.  The command that lets the key expire has no say in the result. -/
def setRandomkeyCache (redis : Redis) (key : Str) (reply : Reply) : Redis × Int :=
  let set := setValue redis (prefixKey key) reply
  if set.2 = -1 then (set.1, -1) else (set.1, 0)

/-- `query_randomkey_cache` -/
def queryRandomkeyCache (redis : Redis) (key : Str) (reply : Reply) : Int :=
  let result := getValue redis (prefixKey key) reply
  if result ≠ 0 ∧ result ≠ 1 ∧ result ≠ -1 then -1 else result

/-- `remove_randomkey_cache`, whose result nobody reads. -/
def removeRandomkeyCache (redis : Redis) (key : Str) (reply : Reply) : Redis :=
  (delValue redis (prefixKey key) reply).1

/-- `randomkey` of `process_auth` -/
def randomkey (content : Str) : Str := getVaule keyName (decodeContent content)

structure Cache where
  redis : Redis
  /-- the keys of the tasks that are past the check and before the removal -/
  removing : List Str

def Cache.init : Cache := ⟨fun _ => false, []⟩

inductive Act
  /-- `process_getkey` calls `set_randomkey_cache` -/
  | setRandomkeyCache (key : Str) (reply : Reply)
  /-- `process_auth` for a message, up to the check of its key -/
  | processAuth (content : Str) (reply : Reply)
  /-- a task that is past the check calls `remove_randomkey_cache` -/
  | removeRandomkeyCache (key : Str) (reply : Reply)
  /-- the time of a key is over -/
  | expire (str_key : Str)

inductive Event
  /-- `set_randomkey_cache` succeeds -/
  | stored (key : Str)
  /-- `process_auth` proceeds past the check of the key -/
  | passed (key : Str)
  | nothing
  deriving DecidableEq

def step (s : Cache) : Act → Except Fault (Cache × Event)
  | .setRandomkeyCache key reply =>
      let set := setRandomkeyCache s.redis key reply
      .ok ({ s with redis := set.1 }, if set.2 = -1 then .nothing else .stored key)
  | .processAuth content reply =>
      let key := randomkey content
      if key = [] then .ok (s, .nothing)
      else if queryRandomkeyCache s.redis key reply ≠ 1 then .ok (s, .nothing)
      else .ok ({ s with removing := key :: s.removing }, .passed key)
  | .removeRandomkeyCache key reply =>
      .ok (⟨removeRandomkeyCache s.redis key reply, s.removing.erase key⟩, .nothing)
  | .expire str_key => .ok ({ s with redis := update s.redis str_key false }, .nothing)

/-- A removal is made by a task that has got so far. -/
def Enabled (s : Cache) : Act → Prop
  | .removeRandomkeyCache key _ => key ∈ s.removing
  | _ => True

instance (s : Cache) (act : Act) : Decidable (Enabled s act) :=
  match act with
  | .setRandomkeyCache _ _ => inferInstanceAs (Decidable True)
  | .processAuth _ _ => inferInstanceAs (Decidable True)
  | .removeRandomkeyCache key _ => inferInstanceAs (Decidable (key ∈ s.removing))
  | .expire _ => inferInstanceAs (Decidable True)

/-! ## using a key once -/

/-- A task has found a key and has yet to remove it. -/
def found (s : Cache) (str_key : Str) : Bool := s.removing.any fun key => prefixKey key = str_key

/-- The steps that let a key be used again: a query that finds a key while another task has
found it and has yet to remove it, a removal that leaves the key where it is, and a key
that is set although `set_randomkey_cache` has failed. -/
def reuses (s : Cache) : Act → Bool
  | .setRandomkeyCache _ reply => reply = .lost
  | .processAuth content reply =>
      randomkey content ≠ [] && reply = .answered &&
        s.redis (prefixKey (randomkey content)) && found s (prefixKey (randomkey content))
  | .removeRandomkeyCache key reply => reply = .failed && s.redis (prefixKey key)
  | .expire _ => false

/-- How often a key was set. -/
def stores (str_key : Str) (t : List (Act × Event)) : Nat :=
  t.countP fun p => match p.2 with
    | .stored key => prefixKey key = str_key
    | _ => false

/-- How often a task has proceeded past the check with a key. -/
def passes (str_key : Str) (t : List (Act × Event)) : Nat :=
  t.countP fun p => match p.2 with
    | .passed key => prefixKey key = str_key
    | _ => false

/-- A key that is there and that no task has found may be used once more. -/
def unused (s : Cache) (str_key : Str) : Nat :=
  if s.redis str_key = true ∧ found s str_key = false then 1 else 0

/-- The uses of a key, with the one to come, are covered by what was set. -/
def OnceInv (t : List (Act × Event)) (s : Cache) : Prop :=
  ∀ str_key, passes str_key t + unused s str_key ≤ stores str_key t

theorem stores_append (str_key : Str) (t : List (Act × Event)) (act : Act) (event : Event) :
    stores str_key (t ++ [(act, event)]) = stores str_key t + match event with
      | .stored key => if prefixKey key = str_key then 1 else 0
      | _ => 0 := by
  rw [stores, List.countP_append, List.countP_singleton]
  cases event <;> simp [stores]

theorem passes_append (str_key : Str) (t : List (Act × Event)) (act : Act) (event : Event) :
    passes str_key (t ++ [(act, event)]) = passes str_key t + match event with
      | .passed key => if prefixKey key = str_key then 1 else 0
      | _ => 0 := by
  rw [passes, List.countP_append, List.countP_singleton]
  cases event <;> simp [passes]

/-- A query succeeds when the key is there and its reply arrives. -/
theorem queryRandomkeyCache_eq_one_iff {redis : Redis} {key : Str} {reply : Reply} :
    queryRandomkeyCache redis key reply = 1 ↔
      reply = .answered ∧ redis (prefixKey key) = true := by
  unfold queryRandomkeyCache
  cases reply with
  | answered => cases hkey : redis (prefixKey key) <;> simp [getValue, hkey]
  | lost => simp [getValue]
  | failed => simp [getValue]

/-- Only the key of a task is touched when it removes its key. -/
theorem removeRandomkeyCache_of_ne {redis : Redis} {key str_key : Str} {reply : Reply}
    (hne : str_key ≠ prefixKey key) :
    removeRandomkeyCache redis key reply str_key = redis str_key := by
  cases reply <;> simp [removeRandomkeyCache, delValue, update_of_ne hne]

theorem found_erase (s : Cache) (redis : Redis) {key str_key : Str}
    (hne : prefixKey key ≠ str_key) :
    found ⟨redis, s.removing.erase key⟩ str_key = found s str_key := by
  rw [Bool.eq_iff_iff]
  simp only [found, List.any_eq_true, decide_eq_true_eq]
  constructor
  · rintro ⟨other, hmem, hother⟩
    exact ⟨other, List.mem_of_mem_erase hmem, hother⟩
  · rintro ⟨other, hmem, hother⟩
    refine ⟨other, (List.mem_erase_of_ne ?_).mpr hmem, hother⟩
    rintro rfl
    exact hne hother

variable {s s' : Cache} {t : List (Act × Event)} {act : Act} {event : Event}

/-- Setting a key allows one more use of it. -/
theorem unused_set (s : Cache) (set str_key : Str) :
    unused { s with redis := update s.redis set true } str_key ≤
      unused s str_key + if set = str_key then 1 else 0 := by
  by_cases hkey : str_key = set
  · rw [if_pos hkey.symm, unused]
    split <;> omega
  · simp only [unused, found, update_of_ne hkey]
    exact Nat.le_add_right _ _

/-- The first task that finds a key uses it up. -/
theorem unused_found {key : Str} (hkey : s.redis (prefixKey key) = true)
    (hfirst : found s (prefixKey key) = false) (str_key : Str) :
    unused { s with removing := key :: s.removing } str_key +
      (if prefixKey key = str_key then 1 else 0) = unused s str_key := by
  by_cases heq : prefixKey key = str_key
  · subst heq
    have hbefore : unused s (prefixKey key) = 1 := if_pos ⟨hkey, hfirst⟩
    rw [hbefore]
    simp [unused, found]
  · simp [unused, found, heq]

/-- A key that was removed cannot be used. -/
theorem unused_remove {key : Str} {reply : Reply}
    (hgone : removeRandomkeyCache s.redis key reply (prefixKey key) = false) (str_key : Str) :
    unused ⟨removeRandomkeyCache s.redis key reply, s.removing.erase key⟩ str_key ≤
      unused s str_key := by
  by_cases heq : prefixKey key = str_key
  · subst heq
    simp [unused, hgone]
  · simp only [unused, removeRandomkeyCache_of_ne (Ne.symm heq), found_erase s _ heq]
    exact Nat.le_refl _

theorem unused_expire (s : Cache) (expired str_key : Str) :
    unused { s with redis := update s.redis expired false } str_key ≤ unused s str_key := by
  by_cases hkey : str_key = expired
  · subst hkey
    simp [unused]
  · simp only [unused, found, update_of_ne hkey]
    exact Nat.le_refl _

/-- **Step**: the uses stay covered, unless a step lets a key be used again. -/
theorem OnceInv.step (h : OnceInv t s) (hreuses : reuses s act = false)
    (hs : step s act = .ok (s', event)) : OnceInv (t ++ [(act, event)]) s' := by
  intro str_key
  have hbefore := h str_key
  rw [passes_append, stores_append]
  cases act with
  | setRandomkeyCache key reply =>
      cases reply with
      | answered =>
          cases hs
          have hset := unused_set s (prefixKey key) str_key
          change passes str_key t + 0 +
              unused { s with redis := update s.redis (prefixKey key) true } str_key ≤
            stores str_key t + if prefixKey key = str_key then 1 else 0
          omega
      | lost => simp [reuses] at hreuses
      | failed =>
          cases hs
          exact hbefore
  | processAuth content reply =>
      simp only [RandomKey.step] at hs
      split at hs
      · cases hs
        exact hbefore
      · next hkey =>
          split at hs
          · cases hs
            exact hbefore
          · next hquery =>
              cases hs
              obtain ⟨rfl, hthere⟩ := queryRandomkeyCache_eq_one_iff.mp (not_not.mp hquery)
              have hfirst : found s (prefixKey (randomkey content)) = false := by
                simpa [reuses, hkey, hthere] using hreuses
              have hfound := unused_found hthere hfirst str_key
              simp only
              omega
  | removeRandomkeyCache key reply =>
      cases hs
      have hgone : removeRandomkeyCache s.redis key reply (prefixKey key) = false := by
        cases reply with
        | answered => exact update_self ..
        | lost => exact update_self ..
        | failed => simpa [reuses, removeRandomkeyCache, delValue] using hreuses
      have hremove := unused_remove hgone str_key
      simp only
      omega
  | expire expired =>
      cases hs
      have hexpire := unused_expire s expired str_key
      simp only
      omega

/-- **Random keys**: in every run in which no task finds a key that another one has found
and has yet to remove, no removal leaves its key behind, and no key is set by a call that
fails, a key lets no more tasks past the check than it was set successfully. -/
theorem randomkey_once (h : Run RandomKey.step
      (fun s act => Enabled s act ∧ reuses s act = false) Cache.init t s) (str_key : Str) :
    passes str_key t ≤ stores str_key t := by
  have hinit : OnceInv [] Cache.init := by
    intro str_key
    exact Nat.le_refl 0
  have hinv : OnceInv t s := by
    refine h.invariant hinit ?_
    intro t s act s' event hI hok hs
    exact hI.step hok.2 hs
  have hcovered := hinv str_key
  omega

/-- The content of an `AUTH` message with the key `k`. -/
def keyContent : Str := keyName ++ ascii ['=', 'k']

/-- A key is set, found and removed, and then not found any more. -/
theorem randomkey_once_second :
    ∃ t s, Run step (fun s act => Enabled s act ∧ reuses s act = false) Cache.init t s ∧
      t.map (·.2) = [.stored [107], .passed [107], .nothing, .nothing] ∧
      passes (prefixKey [107]) t ≤ stores (prefixKey [107]) t := by
  have hreplay : (replay step (fun s act => Enabled s act ∧ reuses s act = false) Cache.init
      [.setRandomkeyCache [107] .answered, .processAuth keyContent .answered,
        .removeRandomkeyCache [107] .answered, .processAuth keyContent .answered]).map
        (fun r => r.1.map (·.2)) = some [.stored [107], .passed [107], .nothing, .nothing] := by
    decide
  obtain ⟨⟨t, s⟩, hs, hevents⟩ := Option.map_eq_some_iff.mp hreplay
  have hrun := Run.nil.replay hs
  exact ⟨t, s, hrun, hevents, randomkey_once hrun _⟩

/-- Two tasks look for a key before either of them removes it: both proceed. -/
theorem randomkey_twice :
    ∃ t s, Run step Enabled Cache.init t s ∧
      passes (prefixKey [107]) t = 2 ∧ stores (prefixKey [107]) t = 1 := by
  have hreplay : (replay step Enabled Cache.init
      [.setRandomkeyCache [107] .answered, .processAuth keyContent .answered,
        .processAuth keyContent .answered, .removeRandomkeyCache [107] .answered,
        .removeRandomkeyCache [107] .answered]).map (fun r =>
          (passes (prefixKey [107]) r.1, stores (prefixKey [107]) r.1)) = some (2, 1) := by
    decide
  obtain ⟨⟨t, s⟩, hs, hcounts⟩ := Option.map_eq_some_iff.mp hreplay
  exact ⟨t, s, Run.nil.replay hs, congrArg Prod.fst hcounts, congrArg Prod.snd hcounts⟩

end RandomKey
end NotifyAdapter
end MySrc
