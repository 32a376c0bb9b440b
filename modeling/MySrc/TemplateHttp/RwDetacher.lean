import MySrc.TemplateHttp.BlockQueue
import MySrc.LogingameServer.CJson

/-!
# MySrc.TemplateHttp.RwDetacher

`template_http/src/rwdetach/RW_detacher.cpp`: the clients of redis and mysql wait in pools,
and a call takes one, uses it and gives it back.  What the client does is a parameter of a
call.

`do_mysql_opt_write` and `do_mysql_opt_read` return when mysql reports an error, and keep the
client.  `do_mysql_opt_read` keeps it also when a field of a row is NULL: a `std::string` of
a null pointer throws.  `detacher_run_iff` says that this is all that loses clients.
-/

namespace MySrc
namespace RwDetacher

open Lib
open BlockQueue (Queue Wakeup popFront)
open LogingameServer (printObject)

/-! ## pools -/

/-- The pointers to the clients that wait in a pool. -/
abbrev Pool := Queue Nat

/-- `add_queue` -/
def addQueue (m_spset_single : Pool) (data : Nat) : Pool :=
  { m_spset_single with
    m_list := m_spset_single.m_list ++ [data]
    m_size := m_spset_single.m_size + 1 }

/-- `dequeue_expand`, when nobody else is at the pool. -/
def dequeueExpand (m_spset_single : Pool) (wakeup : Wakeup) : Pool × Int × Option Nat :=
  let (q, result, data) := popFront m_spset_single
  if result = 0 then
    if wakeup = .error then (q, -1, none) else popFront q
  else (q, result, data)

/-- The loop of `fetch_single`, with how the waits end. -/
def fetchLoop : List Wakeup → Pool → Pool × Option Nat
  | [], m_spset_single => (m_spset_single, none)
  | wakeup :: wakeups, m_spset_single =>
      let (q, result, data) := dequeueExpand m_spset_single wakeup
      if result ≠ 1 then fetchLoop wakeups q else (q, data)

/-- `fetch_single`: three tries. -/
def fetchSingle (m_spset_single : Pool) (wakeup : Nat → Wakeup) : Pool × Option Nat :=
  fetchLoop ((List.range 3).map wakeup) m_spset_single

/-- `reback_single` -/
def rebackSingle (m_spset_single : Pool) (pclient : Nat) : Pool := addQueue m_spset_single pclient

/-! ## calls -/

structure RWDetacher where
  m_redis_rpool : Pool
  m_redis_wpool : Pool
  m_mysql_rpool : Pool
  m_mysql_wpool : Pool

/-- The text of the functions `do_redis_*`: `rt` is what the client does, with the output. -/
def doRedis {β : Type} (pool : Pool) (wakeup : Nat → Wakeup) (rt : Nat → Int × β) (out : β) :
    Pool × Int × β :=
  match fetchSingle pool wakeup with
  | (pool, none) => (pool, -1, out)
  | (pool, some pclient) => (rebackSingle pool pclient, rt pclient)

/-- How a function of mysql ends. -/
inductive Ending
  | returns (result : Int)
  /-- `std::logic_error` leaves the function -/
  | throws
  deriving DecidableEq

/-- A row: the names of its fields and their values, which may be null. -/
abbrev MysqlRow := List (Str × Option Str)

/-- What the client of a statement does; a `CMysqlException` has a message. -/
structure Sql where
  query : Except Str Unit
  storeResult : Except Str (List MysqlRow)

/-- `do_mysql_opt_write` -/
def doMysqlOptWrite (pool : Pool) (wakeup : Nat → Wakeup) (sql : Sql) : Pool × Ending :=
  match fetchSingle pool wakeup with
  | (pool, none) => (pool, .returns (-1))
  | (pool, some pclient) =>
      match sql.query with
      | .error _ => (pool, .returns (-1))
      | .ok _ => (rebackSingle pool pclient, .returns 0)

/-- The object of a row, unless a field is null. -/
def rowItems (row : MysqlRow) : Option (List (Str × Str)) :=
  row.mapM fun field => field.2.map (field.1, ·)

/-- The loop of `do_mysql_opt_read`: whether it comes to its end, and `reply`. -/
def fetchRows : List MysqlRow → List Str → Bool × List Str
  | [], reply => (true, reply)
  | row :: rows, reply =>
      match rowItems row with
      | none => (false, reply)
      | some items => fetchRows rows (reply ++ [printObject items])

/-- `do_mysql_opt_read` -/
def doMysqlOptRead (pool : Pool) (wakeup : Nat → Wakeup) (sql : Sql) (reply : List Str) :
    Pool × Ending × List Str :=
  match fetchSingle pool wakeup with
  | (pool, none) => (pool, .returns (-1), reply)
  | (pool, some pclient) =>
      match sql.query with
      | .error _ => (pool, .returns (-1), reply)
      | .ok _ =>
          match sql.storeResult with
          | .error _ => (pool, .returns (-1), reply)
          | .ok rows =>
              match fetchRows rows reply with
              | (false, reply) => (pool, .throws, reply)
              | (true, reply) => (rebackSingle pool pclient, .returns 0, reply)

/-! ## the functions of redis -/

section

variable (d : RWDetacher) (wakeup : Nat → Wakeup)

/-- `do_redis_hget`; the first argument of `hget` is the client. -/
def doRedisHget (hget : Nat → Str → Str → Int × Str) (key field value : Str) :
    Pool × Int × Str :=
  doRedis d.m_redis_rpool wakeup (fun pclient => hget pclient key field) value

/-- `do_redis_hgetall` -/
def doRedisHgetall (hgetall : Nat → Str → Int × List (Str × Str)) (key : Str)
    (out : List (Str × Str)) : Pool × Int × List (Str × Str) :=
  doRedis d.m_redis_rpool wakeup (fun pclient => hgetall pclient key) out

/-- `do_redis_hset` -/
def doRedisHset (hset : Nat → Str → Str → Str → Int) (key field value : Str) :
    Pool × Int × Unit :=
  doRedis d.m_redis_wpool wakeup (fun pclient => (hset pclient key field value, ())) ()

/-- `do_redis_hdel` -/
def doRedisHdel (hdel : Nat → Str → Str → Int) (key field : Str) : Pool × Int × Unit :=
  doRedis d.m_redis_wpool wakeup (fun pclient => (hdel pclient key field, ())) ()

/-- `do_redis_set` -/
def doRedisSet (set : Nat → Str → Str → Int) (key value : Str) : Pool × Int × Unit :=
  doRedis d.m_redis_wpool wakeup (fun pclient => (set pclient key value, ())) ()

/-- `do_redis_setex` -/
def doRedisSetex (setex : Nat → Str → Str → Nat → Int) (key value : Str) (secs : Nat) :
    Pool × Int × Unit :=
  doRedis d.m_redis_wpool wakeup (fun pclient => (setex pclient key value secs, ())) ()

/-- `do_redis_get` -/
def doRedisGet (get : Nat → Str → Int × Str) (key value : Str) : Pool × Int × Str :=
  doRedis d.m_redis_rpool wakeup (fun pclient => get pclient key) value

/-- `do_redis_del` -/
def doRedisDel (del : Nat → Str → Int) (key : Str) : Pool × Int × Unit :=
  doRedis d.m_redis_wpool wakeup (fun pclient => (del pclient key, ())) ()

end

/-! ## sequences of calls -/

/-- A call, with what the client does. -/
inductive Act
  | hget (hget : Nat → Str → Str → Int × Str) (key field value : Str)
  | hgetall (hgetall : Nat → Str → Int × List (Str × Str)) (key : Str) (out : List (Str × Str))
  | hset (hset : Nat → Str → Str → Str → Int) (key field value : Str)
  | hdel (hdel : Nat → Str → Str → Int) (key field : Str)
  | set (set : Nat → Str → Str → Int) (key value : Str)
  | setex (setex : Nat → Str → Str → Nat → Int) (key value : Str) (secs : Nat)
  | get (get : Nat → Str → Int × Str) (key value : Str)
  | del (del : Nat → Str → Int) (key : Str)
  | mysqlOptWrite (sql : Sql)
  | mysqlOptRead (sql : Sql) (reply : List Str)

def step (d : RWDetacher) (wakeup : Nat → Wakeup) : Act → RWDetacher
  | .hget hget key field value =>
      { d with m_redis_rpool := (doRedisHget d wakeup hget key field value).1 }
  | .hgetall hgetall key out =>
      { d with m_redis_rpool := (doRedisHgetall d wakeup hgetall key out).1 }
  | .hset hset key field value =>
      { d with m_redis_wpool := (doRedisHset d wakeup hset key field value).1 }
  | .hdel hdel key field => { d with m_redis_wpool := (doRedisHdel d wakeup hdel key field).1 }
  | .set set key value => { d with m_redis_wpool := (doRedisSet d wakeup set key value).1 }
  | .setex setex key value secs =>
      { d with m_redis_wpool := (doRedisSetex d wakeup setex key value secs).1 }
  | .get get key value => { d with m_redis_rpool := (doRedisGet d wakeup get key value).1 }
  | .del del key => { d with m_redis_wpool := (doRedisDel d wakeup del key).1 }
  | .mysqlOptWrite sql => { d with m_mysql_wpool := (doMysqlOptWrite d.m_mysql_wpool wakeup sql).1 }
  | .mysqlOptRead sql reply =>
      { d with m_mysql_rpool := (doMysqlOptRead d.m_mysql_rpool wakeup sql reply).1 }

/-- The pools have the same clients. -/
structure SameClients (d d' : RWDetacher) : Prop where
  redis_r : d'.m_redis_rpool.m_list.Perm d.m_redis_rpool.m_list
  redis_w : d'.m_redis_wpool.m_list.Perm d.m_redis_wpool.m_list
  mysql_r : d'.m_mysql_rpool.m_list.Perm d.m_mysql_rpool.m_list
  mysql_w : d'.m_mysql_wpool.m_list.Perm d.m_mysql_wpool.m_list

/-- After each call the pools have the clients that they had before it. -/
def KeepsClients : RWDetacher → List ((Nat → Wakeup) × Act) → Prop
  | _, [] => True
  | d, call :: calls =>
      SameClients d (step d call.1 call.2) ∧ KeepsClients (step d call.1 call.2) calls

/-- What the statement of a call comes to: no exception, and no null field that is read. -/
def Succeeds : Act → Prop
  | .mysqlOptWrite sql => sql.query.isOk
  | .mysqlOptRead sql _ => sql.query.isOk ∧
      ∃ rows, sql.storeResult = .ok rows ∧ ∀ row ∈ rows, ∀ field ∈ row, field.2.isSome
  | _ => True

/-- The pool that a statement uses is empty. -/
def NoClient (d : RWDetacher) : Act → Prop
  | .mysqlOptWrite _ => d.m_mysql_wpool.m_list = []
  | .mysqlOptRead _ _ => d.m_mysql_rpool.m_list = []
  | _ => False

/-- Each call succeeds, or finds its pool empty. -/
def Undisturbed : RWDetacher → List ((Nat → Wakeup) × Act) → Prop
  | _, [] => True
  | d, call :: calls =>
      (Succeeds call.2 ∨ NoClient d call.2) ∧ Undisturbed (step d call.1 call.2) calls

/-! ## what a call leaves in its pool -/

section

variable {pool : Pool} {wakeup : Nat → Wakeup}

theorem dequeueExpand_nil (h : pool.m_list = []) (w : Wakeup) :
    dequeueExpand pool w = (pool, if w = .error then -1 else 0, none) := by
  have hpop : popFront pool = (pool, 0, none) := by rw [popFront, h]
  cases w <;> simp [dequeueExpand, hpop]

theorem dequeueExpand_cons {c : Nat} {l : List Nat} (h : pool.m_list = c :: l) (w : Wakeup) :
    dequeueExpand pool w =
      ({ pool with m_list := l, m_size := pool.m_size - 1 }, 1, some c) := by
  simp [dequeueExpand, popFront, h]

theorem fetchSingle_nil (h : pool.m_list = []) : fetchSingle pool wakeup = (pool, none) := by
  have hloop : ∀ wakeups, fetchLoop wakeups pool = (pool, none) := by
    intro wakeups
    induction wakeups with
    | nil => rfl
    | cons w wakeups ih =>
        have hresult : (if w = .error then (-1 : Int) else 0) ≠ 1 := by
          split <;> decide
        rw [fetchLoop, dequeueExpand_nil h]
        dsimp only
        rw [if_pos hresult]
        exact ih
  exact hloop _

theorem fetchSingle_cons {c : Nat} {l : List Nat} (h : pool.m_list = c :: l) :
    fetchSingle pool wakeup =
      ({ pool with m_list := l, m_size := pool.m_size - 1 }, some c) := by
  have hthree : (List.range 3).map wakeup = wakeup 0 :: [wakeup 1, wakeup 2] := rfl
  rw [fetchSingle, hthree, fetchLoop, dequeueExpand_cons h]
  rfl

theorem not_perm_tail {c : Nat} {l : List Nat} : ¬ l.Perm (c :: l) := by
  intro h
  have := h.length_eq
  rw [List.length_cons] at this
  omega

/-- A client that is given back is the last one. -/
theorem perm_rebackSingle (pool : Pool) (c : Nat) :
    (rebackSingle pool c).m_list.Perm (c :: pool.m_list) :=
  List.perm_append_comm

/-- The functions of redis give the client back, whatever it does. -/
theorem doRedis_perm {β : Type} (rt : Nat → Int × β) (out : β) :
    (doRedis pool wakeup rt out).1.m_list.Perm pool.m_list := by
  cases h : pool.m_list with
  | nil => rw [doRedis, fetchSingle_nil h, h]
  | cons c l =>
      rw [doRedis, fetchSingle_cons h]
      exact perm_rebackSingle _ c

theorem doMysqlOptWrite_perm_iff (sql : Sql) :
    (doMysqlOptWrite pool wakeup sql).1.m_list.Perm pool.m_list ↔
      sql.query.isOk ∨ pool.m_list = [] := by
  cases h : pool.m_list with
  | nil => simp [doMysqlOptWrite, fetchSingle_nil h, h]
  | cons c l =>
      rw [doMysqlOptWrite, fetchSingle_cons h]
      cases hquery : sql.query with
      | error e => exact iff_of_false not_perm_tail (by simp [Except.isOk, Except.toBool])
      | ok u => exact iff_of_true (perm_rebackSingle _ c) (.inl rfl)

theorem rowItems_isSome (row : MysqlRow) :
    (rowItems row).isSome ↔ ∀ field ∈ row, field.2.isSome := by
  induction row with
  | nil => simp [rowItems]
  | cons field row ih =>
      rw [rowItems] at ih ⊢
      cases hfield : field.2 with
      | none => simp [List.mapM_cons, hfield]
      | some value =>
          rw [List.mapM_cons, hfield, List.forall_mem_cons, ← ih, hfield]
          cases row.mapM fun field => field.2.map (field.1, ·) with
          | none => simp
          | some items => simp

theorem fetchRows_iff (rows : List MysqlRow) (reply : List Str) :
    (fetchRows rows reply).1 = true ↔ ∀ row ∈ rows, ∀ field ∈ row, field.2.isSome := by
  induction rows generalizing reply with
  | nil => simp [fetchRows]
  | cons row rows ih =>
      rw [fetchRows, List.forall_mem_cons, ← rowItems_isSome row]
      cases hrow : rowItems row with
      | none => simp
      | some items => simpa using ih _

theorem doMysqlOptRead_perm_iff (sql : Sql) (reply : List Str) :
    (doMysqlOptRead pool wakeup sql reply).1.m_list.Perm pool.m_list ↔
      Succeeds (.mysqlOptRead sql reply) ∨ pool.m_list = [] := by
  cases h : pool.m_list with
  | nil => simp [doMysqlOptRead, fetchSingle_nil h, h]
  | cons c l =>
      rw [doMysqlOptRead, fetchSingle_cons h, Succeeds]
      cases hquery : sql.query with
      | error e => exact iff_of_false not_perm_tail (by simp [Except.isOk, Except.toBool])
      | ok u =>
          cases hstore : sql.storeResult with
          | error e => exact iff_of_false not_perm_tail (by simp)
          | ok rows =>
              have hrows := fetchRows_iff rows reply
              dsimp only
              cases hfetch : fetchRows rows reply with
              | mk done reply' =>
                  rw [hfetch] at hrows
                  cases done with
                  | false =>
                      refine iff_of_false not_perm_tail ?_
                      rintro (⟨-, rows', hrows', hfields⟩ | hnil)
                      · rw [Except.ok.injEq] at hrows'
                        exact absurd (hrows.mpr (hrows' ▸ hfields)) (by simp)
                      · cases hnil
                  | true =>
                      exact iff_of_true (perm_rebackSingle _ c)
                        (.inl ⟨rfl, rows, rfl, hrows.mp rfl⟩)

end

/-! ## sequences -/

/-- A call leaves its pool the clients it had just when it succeeds or finds none. -/
theorem sameClients_step_iff (d : RWDetacher) (wakeup : Nat → Wakeup) (act : Act) :
    SameClients d (step d wakeup act) ↔ Succeeds act ∨ NoClient d act := by
  have hreader : ∀ {β : Type} (rt : Nat → Int × β) (out : β), SameClients d
      { d with m_redis_rpool := (doRedis d.m_redis_rpool wakeup rt out).1 } :=
    fun rt out => ⟨doRedis_perm rt out, .refl _, .refl _, .refl _⟩
  have hwriter : ∀ {β : Type} (rt : Nat → Int × β) (out : β), SameClients d
      { d with m_redis_wpool := (doRedis d.m_redis_wpool wakeup rt out).1 } :=
    fun rt out => ⟨.refl _, doRedis_perm rt out, .refl _, .refl _⟩
  cases act with
  | hget => exact iff_of_true (hreader _ _) (.inl trivial)
  | hgetall => exact iff_of_true (hreader _ _) (.inl trivial)
  | hset => exact iff_of_true (hwriter _ _) (.inl trivial)
  | hdel => exact iff_of_true (hwriter _ _) (.inl trivial)
  | set => exact iff_of_true (hwriter _ _) (.inl trivial)
  | setex => exact iff_of_true (hwriter _ _) (.inl trivial)
  | get => exact iff_of_true (hreader _ _) (.inl trivial)
  | del => exact iff_of_true (hwriter _ _) (.inl trivial)
  | mysqlOptWrite sql =>
      rw [Succeeds, NoClient, ← doMysqlOptWrite_perm_iff sql]
      exact ⟨SameClients.mysql_w, fun h => ⟨.refl _, .refl _, .refl _, h⟩⟩
  | mysqlOptRead sql reply =>
      rw [NoClient, ← doMysqlOptRead_perm_iff sql reply]
      exact ⟨SameClients.mysql_r, fun h => ⟨.refl _, .refl _, h, .refl _⟩⟩

/-- **The clients of the pools.**  In a sequence of calls each call leaves the pools the clients
they had, if and only if each statement of mysql that has a client runs without an exception
and reads no null field. -/
theorem detacher_run_iff (d : RWDetacher) (calls : List ((Nat → Wakeup) × Act)) :
    KeepsClients d calls ↔ Undisturbed d calls := by
  induction calls generalizing d with
  | nil => exact Iff.rfl
  | cons call calls ih => exact and_congr (sameClients_step_iff d call.1 call.2) (ih _)

/-- The only client for writing is lost when mysql refuses a statement. -/
theorem detacher_loses_writer :
    ¬ KeepsClients ⟨⟨[], 0, ∅, .idle⟩, ⟨[], 0, ∅, .idle⟩, ⟨[], 0, ∅, .idle⟩, ⟨[7], 1, ∅, .idle⟩⟩
      [(fun _ => .timeout,
        .mysqlOptWrite ⟨.error (ascii "mysql query fail".toList), .ok []⟩)] := by
  rintro ⟨h, -⟩
  exact absurd h.mysql_w.length_eq (by decide)

end RwDetacher
end MySrc
