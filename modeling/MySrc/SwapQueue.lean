import MySrc.Lib.Ring

/-!
# MySrc.SwapQueue

`swap_queue/swap_queue.c`: a queue between one producer and one consumer.  The
producer links new nodes into the ring `in`, behind its dummy, and the consumer
unlinks the last node of the ring `out`; when `out` is empty the consumer waits
for the semaphore `no_empty` and swaps the two rings.

The steps of the two threads interleave.  A put is an allocation and the locked
link-in with its `sem_post`; a get is the emptiness test of `out`, the wait,
the locked swap, and the unlinking of the last node, which only the consumer
can see.  `swapQueue_fifo` and `swapQueue_wakeups` hold after every
interleaving of these steps.
-/

-- the double underscores are the source's
set_option linter.style.nameCheck false

namespace MySrc
namespace SwapQueue

open Lib
open Function (update)

/-! ## the queue -/

/-- `struct swap_queue_node`; `data` is a `void *`. -/
abbrev Node := RingNode Ptr

/-- `struct swap_queue_head`, with the nodes that are allocated and the value of
the semaphore. -/
structure Head where
  mem : Heap Node
  in_ : Ptr
  out : Ptr
  noEmpty : Nat

/-- `__new_swap_queue_node`; `addr` is what `malloc` returns. -/
def __newSwapQueueNode (mem : Heap Node) (addr data : Ptr) : Heap Node :=
  match addr with
  | none => mem
  | some a => mem.insert a ⟨none, none, data⟩

/-- `__new_swap_queue_node_dummy`; `addr` is what `malloc` returns. -/
def __newSwapQueueNodeDummy (mem : Heap Node) (addr : Ptr) : Heap Node :=
  match addr with
  | none => mem
  | some a => mem.insert a ⟨some a, some a, none⟩

/-- `swap_queue_init`; `a` and `b` are what `malloc` returns. -/
def swapQueueInit (a b : Ptr) : Option Head :=
  let mem := __newSwapQueueNodeDummy ∅ a
  if a = none then none
  else
    let mem := __newSwapQueueNodeDummy mem b
    if b = none then none else some ⟨mem, a, b, 0⟩

/-- `__swap_queue_put` -/
def __swapQueuePut (head : Head) (node : Ptr) : Except Fault (Head × Int) := do
  let inHead := head.in_
  if inHead = none then return (head, -1)
  let dummy ← load head.mem inHead
  let mem ← setNext head.mem node dummy.next
  let dummy ← load mem inHead
  let mem ← setPrev mem dummy.next node
  let mem ← setNext mem inHead node
  let mem ← setPrev mem node inHead
  let n ← load mem node
  -- only when in has one elem (except dummy), must notify no empty
  if inHead = n.next then return ({ head with mem := mem, noEmpty := head.noEmpty + 1 }, 0)
  return ({ head with mem := mem }, 0)

/-- The end of `__swap_queue_get`, from `out_head = head->out` on, and of
`swap_queue_get`: the data of the last node, which is unlinked and freed. -/
def takeLast (head : Head) : Except Fault (Head × Ptr) := do
  let outHead := head.out
  let dummy ← load head.mem outHead
  let last := dummy.prev
  if last = outHead then return (head, none)
  let l ← load head.mem last
  let mem ← setNext head.mem l.prev l.next
  let l ← load mem last
  let mem ← setPrev mem l.next l.prev
  let l ← load mem last
  let mem ← free mem last
  return ({ head with mem := mem }, l.data)

/-! ## the two threads -/

/-- Where the producer is in `swap_queue_put`. -/
inductive PPc
  | idle
  /-- the node is allocated, the lock not yet taken -/
  | link (node data : Ptr)
  deriving DecidableEq

/-- Where the consumer is in `swap_queue_get`. -/
inductive CPc
  | idle
  /-- in `sem_timedwait` -/
  | wait (outHead : Ptr)
  /-- the wait has succeeded, the lock is not yet taken -/
  | swap (outHead : Ptr)
  /-- about to unlink the last node of `out` -/
  | last
  deriving DecidableEq

structure State where
  head : Head
  p : PPc
  c : CPc

/-- A scheduling choice.  `sem_timedwait` returns when it has taken a token, on
its time-out, or with another error. -/
inductive Act
  /-- `swap_queue_put(data)` is called, and `malloc` returns `addr` -/
  | put (data addr : Ptr)
  | link
  | get
  | wake
  | timeout
  | interrupt
  | swap
  | last

/-- A step of the producer. -/
def Act.byProducer : Act → Bool
  | .put _ _ | .link => true
  | _ => false

/-- What a step returns to a caller, if it ends a call. -/
inductive Out
  | tau
  /-- `swap_queue_put(data)` returns `ret` -/
  | put (data : Ptr) (ret : Int)
  /-- `swap_queue_get` returns `data` -/
  | get (data : Ptr)
  deriving DecidableEq

/-- Two idle threads at a queue. -/
def initial (head : Head) : State := ⟨head, .idle, .idle⟩

/-- The consumer is waiting for the semaphore. -/
def CPc.isWait : CPc → Bool
  | .wait _ => true
  | _ => false

/-- The consumer is between its successful wait and the swap. -/
def CPc.isSwap : CPc → Bool
  | .swap _ => true
  | _ => false

/-- When a step can be taken: in the order of the code, with fresh memory from
`malloc`, a successful wait only on a token and a time-out only without one. -/
def Enabled (s : State) : Act → Prop
  | .put _ addr => s.p = .idle ∧ ∀ a ∈ addr, a ∉ s.head.mem
  | .link => s.p ≠ .idle
  | .get => s.c = .idle
  | .wake => s.c.isWait = true ∧ 0 < s.head.noEmpty
  | .timeout => s.c.isWait = true ∧ s.head.noEmpty = 0
  | .interrupt => s.c.isWait = true
  | .swap => s.c.isSwap = true
  | .last => s.c = .last

instance (s : State) (a : Act) : Decidable (Enabled s a) :=
  match a with
  | .put _ addr => inferInstanceAs (Decidable (s.p = .idle ∧ ∀ a ∈ addr, a ∉ s.head.mem))
  | .link => inferInstanceAs (Decidable (s.p ≠ .idle))
  | .get => inferInstanceAs (Decidable (s.c = .idle))
  | .wake => inferInstanceAs (Decidable (s.c.isWait = true ∧ 0 < s.head.noEmpty))
  | .timeout => inferInstanceAs (Decidable (s.c.isWait = true ∧ s.head.noEmpty = 0))
  | .interrupt => inferInstanceAs (Decidable (s.c.isWait = true))
  | .swap => inferInstanceAs (Decidable (s.c.isSwap = true))
  | .last => inferInstanceAs (Decidable (s.c = .last))

/-- One step of the system. -/
def step (s : State) : Act → Except Fault (State × Out)
  | .put data addr =>
      if data = none then .ok (s, .put data (-1))
      else if addr = none then .ok (s, .put data (-1))
      else
        let mem := __newSwapQueueNode s.head.mem addr data
        .ok ({ s with head := { s.head with mem := mem }, p := .link addr data }, .tau)
  | .link =>
      match s.p with
      | .idle => .ok (s, .tau)
      | .link node data => do
          let (head, ret) ← __swapQueuePut s.head node
          return ({ s with head := head, p := .idle }, .put data ret)
  | .get => do
      let outHead := s.head.out
      if outHead = none then return (s, .get none)
      let dummy ← load s.head.mem outHead
      -- empty? swap in and out : do nothing
      if outHead = dummy.next then return ({ s with c := .wait outHead }, .tau)
      return ({ s with c := .last }, .tau)
  | .wake =>
      match s.c with
      | .wait outHead => .ok ({ s with
          head := { s.head with noEmpty := s.head.noEmpty - 1 }, c := .swap outHead }, .tau)
      | _ => .ok (s, .tau)
  | .timeout | .interrupt => .ok ({ s with c := .idle }, .get none)
  | .swap =>
      match s.c with
      | .swap outHead => .ok ({ s with
          head := { s.head with out := s.head.in_, in_ := outHead }, c := .last }, .tau)
      | _ => .ok (s, .tau)
  | .last => do
      let (head, data) ← takeLast s.head
      return ({ s with head := head, c := .idle }, .get data)

/-- The data that a put has accepted. -/
def Out.accepts : Out → Option Ptr
  | .put data ret => if ret = 0 then some data else none
  | _ => none

/-- The data that a get has returned, unless it is null. -/
def Out.returns : Out → Option Ptr
  | .get data => if data = none then none else some data
  | _ => none

/-- The data that `swap_queue_put` has accepted, in order. -/
def accepted (t : List (Act × Out)) : List Ptr := t.filterMap (·.2.accepts)

/-- The data that `swap_queue_get` has returned, in order. -/
def returned (t : List (Act × Out)) : List Ptr := t.filterMap (·.2.returns)

/-- The data of some nodes. -/
def datas (mem : Heap Node) (xs : List Nat) : List Ptr := xs.filterMap (dataOf mem)

/-- A ring with at least one node besides its dummy. -/
def Occupied (mem : Heap Node) (dummy : Ptr) : Prop :=
  ∃ d, dummy = some d ∧ nextOf mem d ≠ some d

/-! ## what the operations do to the rings -/

/-- `__swap_queue_put` links the node in behind the dummy, and posts when the
ring was empty. -/
theorem swapQueuePut_spec {head : Head} (hin : head.in_ = some i) (hr : Ring head.mem i ins)
    (hn : n ∈ head.mem) (hnot : n ∉ i :: ins) :
    ∃ mem, __swapQueuePut head (some n) = .ok ({ head with
        mem := mem, noEmpty := if ins = [] then head.noEmpty + 1 else head.noEmpty }, 0) ∧
      Relinked head.mem mem (update (update (nextOf head.mem) n (some (ins.headD i))) i (some n))
        (update (update (prevOf head.mem) (ins.headD i) (some n)) n (some i)) := by
  have hi : i ∈ head.mem := hr.mem i List.mem_cons_self
  have hni : n ≠ i := fun e => hnot (e ▸ List.mem_cons_self)
  obtain ⟨d₀, hd₀, hnext₀, -⟩ := (Relinked.refl head.mem).load hi
  rw [hr.next_sentinel] at hnext₀
  obtain ⟨mem₁, h₁, r₁⟩ := (Relinked.refl head.mem).setNext hn (some (ins.headD i))
  obtain ⟨d₁, hd₁, hnext₁, -⟩ := r₁.load hi
  rw [Function.update_of_ne hni.symm, hr.next_sentinel] at hnext₁
  obtain ⟨mem₂, h₂, r₂⟩ := r₁.setPrev hr.headD_mem (some n)
  obtain ⟨mem₃, h₃, r₃⟩ := r₂.setNext hi (some n)
  obtain ⟨mem₄, h₄, r₄⟩ := r₃.setPrev hn (some i)
  obtain ⟨d₄, hd₄, hnext₄, -⟩ := r₄.load hn
  rw [Function.update_of_ne hni, Function.update_self] at hnext₄
  refine ⟨mem₄, ?_, r₄⟩
  have hpost : some i = some (ins.headD i) ↔ ins = [] := by
    rw [Option.some.injEq, eq_comm, hr.headD_eq_iff]
  simp only [__swapQueuePut, hin, reduceCtorEq, if_false, hd₀, hnext₀, h₁, hd₁, hnext₁, h₂, h₃, h₄,
    hd₄, hnext₄, hpost, ok_bind, pure_eq_ok]
  split <;> rfl

/-- The end of `swap_queue_get` takes the last node of `out`. -/
theorem takeLast_spec {head : Head} (hout : head.out = some o) (hr : Ring head.mem o (xs ++ [l]))
    (hdata : dataOf head.mem l = some v) :
    ∃ mem, takeLast head = .ok ({ head with mem := mem.erase l }, v) ∧
      Relinked head.mem mem (update (nextOf head.mem) (xs.getLastD o) (some o))
        (update (prevOf head.mem) o (some (xs.getLastD o))) := by
  have ho : o ∈ head.mem := hr.mem o List.mem_cons_self
  have hl : l ∈ head.mem := hr.mem l (by simp)
  have hlp : l ≠ xs.getLastD o := hr.neighbours.1.2
  have hlo : l ≠ o := by
    rintro rfl
    exact (List.nodup_cons.mp hr.nodup).1 (by simp)
  obtain ⟨hnext, hprev⟩ := hr.links
  rw [List.headD_nil] at hnext
  obtain ⟨d₀, hd₀, -, hd₀p, -⟩ := (Relinked.refl head.mem).load ho
  rw [hr.prev_sentinel, List.getLastD_concat] at hd₀p
  obtain ⟨l₀, hl₀, hl₀n, hl₀p, -⟩ := (Relinked.refl head.mem).load hl
  rw [hnext] at hl₀n
  rw [hprev] at hl₀p
  obtain ⟨mem₁, h₁, r₁⟩ := (Relinked.refl head.mem).setNext hr.neighbours.1.1 (some o)
  obtain ⟨l₁, hl₁, hl₁n, hl₁p, -⟩ := r₁.load hl
  rw [Function.update_of_ne hlp, hnext] at hl₁n
  rw [hprev] at hl₁p
  obtain ⟨mem₂, h₂, r₂⟩ := r₁.setPrev ho (some (xs.getLastD o))
  obtain ⟨l₂, hl₂, -, -, hl₂d⟩ := r₂.load hl
  obtain rfl : l₂.data = v := Option.some.inj (hl₂d.symm.trans hdata)
  have hfree : free mem₂ (some l) = .ok (mem₂.erase l) := free_ok ((r₂.mem l).mpr hl)
  refine ⟨mem₂, ?_, r₂⟩
  have hne : some l ≠ some o := fun e => hlo (Option.some.inj e)
  simp only [takeLast, hout, hd₀, hd₀p, hne, if_false, hl₀, hl₀n, hl₀p, h₁, hl₁, hl₁n, hl₁p, h₂,
    hl₂, hfree, ok_bind, pure_eq_ok]

/-! ## the invariant -/

/-- The node the producer is about to link in is in neither ring. -/
def POk (mem : Heap Node) (i o : Nat) (ins outs : List Nat) : PPc → Prop
  | .idle => True
  | .link node data => data ≠ none ∧ ∃ n, node = some n ∧ n ∈ mem ∧ n ∉ i :: ins ∧ n ∉ o :: outs ∧
      dataOf mem n = some data

/-- While the consumer waits and swaps, `out` stays empty; it swaps only an
occupied ring in, and unlinks only from an occupied one. -/
def COk (o : Nat) (ins outs : List Nat) : CPc → Prop
  | .idle => True
  | .wait outHead => outHead = some o ∧ outs = []
  | .swap outHead => outHead = some o ∧ outs = [] ∧ ins ≠ []
  | .last => outs ≠ []

/-- After the trace `t`, the rings are `ins` with the dummy `i` and `outs` with the
dummy `o`, newest node first, and hold what was accepted and not yet returned. -/
structure Inv (t : List (Act × Out)) (s : State) (i o : Nat) (ins outs : List Nat) : Prop where
  in_eq : s.head.in_ = some i
  out_eq : s.head.out = some o
  in_ring : Ring s.head.mem i ins
  out_ring : Ring s.head.mem o outs
  disjoint : ∀ c ∈ i :: ins, c ∉ o :: outs
  data_ne : ∀ c ∈ outs ++ ins, ∃ v, dataOf s.head.mem c = some (some v)
  log : accepted t = returned t ++ (datas s.head.mem outs.reverse ++ datas s.head.mem ins.reverse)
  p : POk s.head.mem i o ins outs s.p
  c : COk o ins outs s.c
  sem : s.head.noEmpty = if ins ≠ [] ∧ s.c.isSwap = false then 1 else 0

theorem accepted_snoc (t : List (Act × Out)) (a : Act) (o : Out) :
    accepted (t ++ [(a, o)]) = accepted t ++ o.accepts.toList := by
  cases h : o.accepts <;> simp [accepted, h]

theorem returned_snoc (t : List (Act × Out)) (a : Act) (o : Out) :
    returned (t ++ [(a, o)]) = returned t ++ o.returns.toList := by
  cases h : o.returns <;> simp [returned, h]

/-- A step that neither accepts nor returns anything leaves the log as it is. -/
theorem log_silent (hlog : accepted t = returned t ++ rest) (ha : o.accepts = none)
    (hr : o.returns = none) : accepted (t ++ [(a, o)]) = returned (t ++ [(a, o)]) ++ rest := by
  rw [accepted_snoc, returned_snoc, ha, hr]
  simpa using hlog

theorem datas_congr {mem mem' : Heap Node} (h : ∀ c ∈ xs, dataOf mem' c = dataOf mem c) :
    datas mem' xs = datas mem xs :=
  List.filterMap_congr h

theorem datas_append (mem : Heap Node) (xs ys : List Nat) :
    datas mem (xs ++ ys) = datas mem xs ++ datas mem ys :=
  List.filterMap_append

theorem datas_singleton {mem : Heap Node} (h : dataOf mem n = some v) : datas mem [n] = [v] := by
  simp [datas, h]

section Step

variable {t : List (Act × Out)} {s : State} {i o : Nat} {ins outs : List Nat}

/-- `swap_queue_put` up to the lock. -/
theorem put_inv (h : Inv t s i o ins outs) (hen : Enabled s (.put data addr)) :
    ∃ s' out, step s (.put data addr) = .ok (s', out) ∧
      Inv (t ++ [(.put data addr, out)]) s' i o ins outs := by
  by_cases hd : data = none
  · exact ⟨s, _, if_pos hd, { h with log := log_silent h.log rfl rfl }⟩
  · cases addr with
    | none =>
        have hstep : step s (.put data none) = .ok (s, .put data (-1)) := by
          simp only [step, if_neg hd, if_true]
        exact ⟨s, _, hstep, { h with log := log_silent h.log rfl rfl }⟩
    | some n =>
        have hn : n ∉ s.head.mem := hen.2 n rfl
        have hins : ∀ c ∈ i :: ins, c ≠ n := fun c hc e => hn (e ▸ h.in_ring.mem c hc)
        have houts : ∀ c ∈ o :: outs, c ≠ n := fun c hc e => hn (e ▸ h.out_ring.mem c hc)
        have hdata : ∀ c ≠ n, dataOf (s.head.mem.insert n ⟨none, none, data⟩) c =
            dataOf s.head.mem c := by
          intro c hc
          rw [dataOf_insert, Function.update_of_ne hc]
        have hne : ∀ c ∈ outs ++ ins, c ≠ n := by
          intro c hc
          exact (List.mem_append.mp hc).elim (fun hc => houts c (List.mem_cons_of_mem _ hc))
            (fun hc => hins c (List.mem_cons_of_mem _ hc))
        have hstep : step s (.put data (some n)) = .ok (⟨{ s.head with
            mem := s.head.mem.insert n ⟨none, none, data⟩ }, .link (some n) data, s.c⟩, .tau) := by
          simp only [step, if_neg hd, reduceCtorEq, if_false, __newSwapQueueNode]
        refine ⟨_, _, hstep, h.in_eq, h.out_eq, h.in_ring.alloc hn _, h.out_ring.alloc hn _,
          h.disjoint, ?_, ?_, ?_, h.c, h.sem⟩
        · intro c hc
          dsimp only
          rw [hdata c (hne c hc)]
          exact h.data_ne c hc
        · refine log_silent ?_ rfl rfl
          dsimp only
          rw [datas_congr fun c hc => hdata c (hne c (by simp at hc; simp [hc])),
            datas_congr fun c hc => hdata c (hne c (by simp at hc; simp [hc]))]
          exact h.log
        · refine ⟨hd, n, rfl, (AList.mem_insert _).mpr (.inl rfl), ?_, ?_, ?_⟩
          · exact fun hc => hins n hc rfl
          · exact fun hc => houts n hc rfl
          · dsimp only
            rw [dataOf_insert, Function.update_self]

/-- The locked part of `swap_queue_put`. -/
theorem link_inv (h : Inv t s i o ins outs) (hen : Enabled s .link) :
    ∃ s' out, step s .link = .ok (s', out) ∧
      ∃ n, Inv (t ++ [(.link, out)]) s' i o (n :: ins) outs := by
  obtain ⟨head, p, c⟩ := s
  obtain ⟨hin, hout, hir, hor, hdis, hne, hlog, hp, hc, hsem⟩ := h
  dsimp only at hin hout hir hor hdis hne hlog hp hc hsem
  cases p with
  | idle => exact absurd rfl hen
  | link node data =>
      obtain ⟨hd, n, rfl, hn, hni, hno, hnd⟩ := hp
      obtain ⟨mem, hput, hrel⟩ := swapQueuePut_spec hin hir hn hni
      have hstep : step ⟨head, .link (some n) data, c⟩ .link = .ok (⟨{ head with
          mem := mem, noEmpty := if ins = [] then head.noEmpty + 1 else head.noEmpty },
          .idle, c⟩, .put data 0) := by
        simp only [step, hput, ok_bind, pure_eq_ok]
      -- the other ring is not touched
      have hhead : ins.headD i ∈ i :: ins := by cases ins <;> simp
      have hor' : Ring mem o outs := by
        refine hor.relinked hrel (fun c hc => ?_) (fun c hc => ?_)
        · have h1 : c ≠ i := fun e => hdis i List.mem_cons_self (e ▸ hc)
          have h2 : c ≠ n := fun e => hno (e ▸ hc)
          rw [Function.update_of_ne h1, Function.update_of_ne h2]
        · have h1 : c ≠ ins.headD i := fun e => hdis _ hhead (e ▸ hc)
          have h2 : c ≠ n := fun e => hno (e ▸ hc)
          rw [Function.update_of_ne h2, Function.update_of_ne h1]
      refine ⟨_, _, hstep, n, hin, hout, hir.insert hn hni hrel, hor', ?_, ?_, ?_, trivial, ?_, ?_⟩
      · intro c hc
        simp only [List.mem_cons] at hc
        obtain rfl | rfl | hc := hc
        · exact hdis _ List.mem_cons_self
        · exact hno
        · exact hdis c (List.mem_cons_of_mem _ hc)
      · intro c hc
        dsimp only
        rw [hrel.data]
        simp only [List.mem_append, List.mem_cons] at hc
        obtain hc | rfl | hc := hc
        · exact hne c (List.mem_append_left _ hc)
        · obtain ⟨v, rfl⟩ := Option.ne_none_iff_exists'.mp hd
          exact ⟨v, hnd⟩
        · exact hne c (List.mem_append_right _ hc)
      · rw [accepted_snoc, returned_snoc, hlog]
        dsimp only
        rw [datas_congr fun c _ => congrFun hrel.data c,
          datas_congr fun c _ => congrFun hrel.data c,
          List.reverse_cons, datas_append, datas_singleton hnd]
        simp [Out.accepts, Out.returns]
      · cases c with
        | swap oh => exact ⟨hc.1, hc.2.1, by simp⟩
        | _ => exact hc
      · -- a token is posted exactly when the ring was empty, and then no swap is pending
        dsimp only
        rw [hsem]
        by_cases he : ins = []
        · have hc' : c.isSwap = false := by
            cases c with
            | swap oh => exact absurd he hc.2.2
            | _ => rfl
          simp [he, hc']
        · simp [he]

/-- The emptiness test of `out`. -/
theorem get_inv (h : Inv t s i o ins outs) (hen : Enabled s .get) :
    ∃ s', step s .get = .ok (s', .tau) ∧ Inv (t ++ [(.get, .tau)]) s' i o ins outs ∧
      s'.c = if outs = [] then .wait (some o) else .last := by
  have hidle : s.c = .idle := hen
  obtain ⟨d, hd, hnext, -⟩ := (Relinked.refl s.head.mem).load
    (h.out_ring.mem o List.mem_cons_self)
  rw [h.out_ring.next_sentinel] at hnext
  have htest : some o = some (outs.headD o) ↔ outs = [] := by
    rw [Option.some.injEq, eq_comm, h.out_ring.headD_eq_iff]
  have hsem := h.sem
  rw [hidle] at hsem
  by_cases he : outs = []
  · have hstep : step s .get = .ok ({ s with c := .wait (some o) }, .tau) := by
      simp only [step, h.out_eq, reduceCtorEq, if_false, hd, hnext, if_pos (htest.mpr he), ok_bind,
        pure_eq_ok]
    rw [if_pos he]
    exact ⟨_, hstep, { h with log := log_silent h.log rfl rfl, c := ⟨rfl, he⟩, sem := hsem }, rfl⟩
  · have hstep : step s .get = .ok ({ s with c := .last }, .tau) := by
      simp only [step, h.out_eq, reduceCtorEq, if_false, hd, hnext, htest, he, ok_bind, pure_eq_ok]
    rw [if_neg he]
    exact ⟨_, hstep, { h with log := log_silent h.log rfl rfl, c := he, sem := hsem }, rfl⟩

/-- A wait that takes the token. -/
theorem wake_inv (h : Inv t s i o ins outs) (hen : Enabled s .wake) :
    ∃ s', step s .wake = .ok (s', .tau) ∧ Inv (t ++ [(.wake, .tau)]) s' i o ins outs := by
  obtain ⟨head, p, c⟩ := s
  obtain ⟨hwait, hpos⟩ := hen
  cases c with
  | wait oh =>
      have hsem := h.sem
      have hc := h.c
      dsimp only at hsem hpos
      have hins : ins ≠ [] := by
        rintro rfl
        simp at hsem
        omega
      simp only [hins, CPc.isSwap, ne_eq, not_false_eq_true, and_self, if_true] at hsem
      refine ⟨_, rfl, { h with
        log := log_silent h.log rfl rfl, c := ⟨hc.1, hc.2, hins⟩, sem := ?_ }⟩
      simp [hsem, CPc.isSwap]
  | _ => cases hwait

/-- A wait that fails. -/
theorem fail_inv (h : Inv t s i o ins outs) (hwait : s.c.isWait = true) (a : Act) :
    Inv (t ++ [(a, .get none)]) { s with c := .idle } i o ins outs := by
  have hsem := h.sem
  have hswap : s.c.isSwap = false := by
    cases hc : s.c with
    | wait oh => rfl
    | _ => rw [hc] at hwait; cases hwait
  rw [hswap] at hsem
  exact { h with log := log_silent h.log rfl rfl, c := trivial, sem := hsem }

/-- The locked swap. -/
theorem swap_inv (h : Inv t s i o ins outs) (hen : Enabled s .swap) :
    ∃ s', step s .swap = .ok (s', .tau) ∧ s'.c = .last ∧
      Inv (t ++ [(.swap, .tau)]) s' o i [] ins := by
  obtain ⟨head, p, c⟩ := s
  cases c with
  | swap oh =>
      obtain ⟨hin, hout, hir, hor, hdis, hne, hlog, hp, ⟨rfl, rfl, hins⟩, hsem⟩ := h
      refine ⟨_, rfl, rfl, rfl, hin, hor, hir, ?_, ?_, ?_, ?_, hins, ?_⟩
      · exact fun c hc hc' => hdis c hc' hc
      · simpa using hne
      · refine log_silent ?_ rfl rfl
        simpa [datas] using hlog
      · cases p with
        | idle => trivial
        | link node data =>
            obtain ⟨hd, n, hn, hmem, hni, hno, hnd⟩ := hp
            exact ⟨hd, n, hn, hmem, hno, hni, hnd⟩
      · simpa [CPc.isSwap] using hsem
  | _ => cases hen

/-- Unlinking the last node. -/
theorem last_inv (h : Inv t s i o ins outs) (hen : s.c = .last) :
    ∃ s' v outs', step s .last = .ok (s', .get (some v)) ∧
      Inv (t ++ [(.last, .get (some v))]) s' i o ins outs' := by
  obtain ⟨head, p, c⟩ := s
  obtain rfl : c = .last := hen
  obtain ⟨hin, hout, hir, hor, hdis, hne, hlog, hp, hc, hsem⟩ := h
  dsimp only at hin hout hir hor hdis hne hlog hp hc hsem
  obtain rfl | ⟨xs, l, rfl⟩ := List.eq_nil_or_concat' outs
  · exact absurd rfl hc
  · obtain ⟨v, hv⟩ := hne l (by simp)
    obtain ⟨mem, htake, hrel⟩ := takeLast_spec hout hor hv
    have hstep : step ⟨head, p, .last⟩ .last =
        .ok (⟨{ head with mem := mem.erase l }, p, .idle⟩, .get (some v)) := by
      simp only [step, htake, ok_bind, pure_eq_ok]
    have hlast : l ∈ o :: (xs ++ [l]) := by simp
    have hbefore : xs.getLastD o ∈ o :: (xs ++ [l]) := by
      rw [← List.cons_append]
      exact List.mem_append_left _ List.getLastD_mem_cons
    have hlx : l ∉ o :: xs := by
      have := hor.nodup
      rw [← List.cons_append] at this
      exact fun hl => (List.nodup_append.mp this).2.2 l hl l (by simp) rfl
    have hli : l ∉ i :: ins := fun hl => hdis l hl hlast
    have hir' : Ring mem i ins := by
      refine hir.relinked hrel (fun c hc => ?_) (fun c hc => ?_)
      · have hne : c ≠ xs.getLastD o := fun e => hdis c hc (e ▸ hbefore)
        rw [Function.update_of_ne hne]
      · have hne : c ≠ o := fun e => hdis c hc (e ▸ List.mem_cons_self)
        rw [Function.update_of_ne hne]
    have hdata : ∀ c ≠ l, dataOf (mem.erase l) c = dataOf head.mem c := by
      intro c hc
      rw [dataOf_erase, Function.update_of_ne hc, hrel.data]
    have hsub : ∀ c ∈ xs ++ ins, c ∈ xs ++ [l] ++ ins ∧ c ≠ l := by
      intro c hc
      obtain hc | hc := List.mem_append.mp hc
      · exact ⟨by simp [hc], fun e => hlx (e ▸ List.mem_cons_of_mem _ hc)⟩
      · exact ⟨by simp [hc], fun e => hli (e ▸ List.mem_cons_of_mem _ hc)⟩
    have hor' : Ring mem o xs := by
      have hunlinked := hor.unlink hrel
      rwa [List.append_nil] at hunlinked
    refine ⟨_, v, xs, hstep, hin, hout, hir'.erase hli, hor'.erase hlx, ?_, ?_, ?_, ?_, trivial,
      hsem⟩
    · intro c hc hc'
      exact hdis c hc (by simp only [List.mem_cons, List.mem_append] at hc' ⊢; tauto)
    · intro c hc
      dsimp only
      rw [hdata c (hsub c hc).2]
      exact hne c (hsub c hc).1
    · rw [accepted_snoc, returned_snoc, hlog]
      dsimp only
      rw [datas_congr fun c hc => hdata c (hsub c (by simp at hc; simp [hc])).2,
        datas_congr fun c hc => hdata c (hsub c (by simp at hc; simp [hc])).2,
        List.reverse_append, List.reverse_singleton, datas_append, datas_singleton hv]
      simp [Out.accepts, Out.returns]
    · cases p with
      | idle => trivial
      | link node data =>
          obtain ⟨hd, n, hn, hmem, hni, hno, hnd⟩ := hp
          have hnl : n ≠ l := fun e => hno (e ▸ hlast)
          refine ⟨hd, n, hn, AList.mem_erase.mpr ⟨hnl, (hrel.mem n).mpr hmem⟩, hni, ?_, ?_⟩
          · exact fun hc => hno (by simp only [List.mem_cons, List.mem_append] at hc ⊢; tauto)
          · exact (hdata n hnl).trans hnd

/-- **One step** of either thread succeeds and keeps the invariant. -/
theorem Inv.step (h : Inv t s i o ins outs) (hen : Enabled s a) :
    ∃ s' out i' o' ins' outs', SwapQueue.step s a = .ok (s', out) ∧
      Inv (t ++ [(a, out)]) s' i' o' ins' outs' := by
  cases a with
  | put data addr =>
      obtain ⟨s', out, hs, hinv⟩ := put_inv h hen
      exact ⟨s', out, _, _, _, _, hs, hinv⟩
  | link =>
      obtain ⟨s', out, hs, n, hinv⟩ := link_inv h hen
      exact ⟨s', out, _, _, _, _, hs, hinv⟩
  | get =>
      obtain ⟨s', hs, hinv, -⟩ := get_inv h hen
      exact ⟨s', _, _, _, _, _, hs, hinv⟩
  | wake =>
      obtain ⟨s', hs, hinv⟩ := wake_inv h hen
      exact ⟨s', _, _, _, _, _, hs, hinv⟩
  | timeout => exact ⟨_, _, _, _, _, _, rfl, fail_inv h hen.1 .timeout⟩
  | interrupt => exact ⟨_, _, _, _, _, _, rfl, fail_inv h hen .interrupt⟩
  | swap =>
      obtain ⟨s', hs, -, hinv⟩ := swap_inv h hen
      exact ⟨s', _, _, _, _, _, hs, hinv⟩
  | last =>
      obtain ⟨s', v, outs', hs, hinv⟩ := last_inv h hen
      exact ⟨s', _, _, _, _, _, hs, hinv⟩

end Step

/-! ## every interleaving -/

/-- A new queue is empty. -/
theorem swapQueueInit_inv (hab : a ≠ b) :
    ∃ head, swapQueueInit (some a) (some b) = some head ∧ Inv [] (initial head) a b [] [] := by
  refine ⟨_, rfl, rfl, rfl, ?_, ?_, ?_, by simp, rfl, trivial, trivial, rfl⟩
  · refine ⟨by simp, by simp [initial, __newSwapQueueNodeDummy, -AList.insert_empty], ?_⟩
    simp [initial, __newSwapQueueNodeDummy, Seg, nextOf_insert, prevOf_insert, hab,
      -AList.insert_empty]
  · refine ⟨by simp, by simp [initial, __newSwapQueueNodeDummy], ?_⟩
    simp [initial, __newSwapQueueNodeDummy, Seg, nextOf_insert, prevOf_insert]
  · simpa using hab

/-- Every state reached satisfies the invariant. -/
theorem reached_inv (h₀ : Inv [] s₀ a b [] []) (hrun : Run step Enabled s₀ t s) :
    ∃ i o ins outs, Inv t s i o ins outs := by
  refine hrun.invariant_of_progress (I := fun t s => ∃ i o ins outs, Inv t s i o ins outs)
    ⟨a, b, [], [], h₀⟩ ?_
  rintro t s act ⟨i, o, ins, outs, hinv⟩ hen
  obtain ⟨s', out, i', o', ins', outs', hs, hinv'⟩ := hinv.step hen
  exact ⟨s', out, hs, i', o', ins', outs', hinv'⟩

/-- **The queue loses nothing and keeps the order.**  After every interleaving,
what the consumer has got is a prefix of what the producer has put, the rest is
what is linked in `out` and then in `in`, oldest node last, and no step follows
a bad pointer. -/
theorem swapQueue_fifo (a b : Nat) (hab : a ≠ b) :
    ∃ head, swapQueueInit (some a) (some b) = some head ∧
      ∀ t s, Run step Enabled (initial head) t s →
        returned t <+: accepted t ∧
        (∃ i o ins outs, s.head.in_ = some i ∧ s.head.out = some o ∧
          Ring s.head.mem i ins ∧ Ring s.head.mem o outs ∧
          accepted t =
            returned t ++ (datas s.head.mem outs.reverse ++ datas s.head.mem ins.reverse)) ∧
        ∀ act, Enabled s act → ∃ s' out, step s act = .ok (s', out) := by
  obtain ⟨head, hinit, h₀⟩ := swapQueueInit_inv hab
  refine ⟨head, hinit, fun t s hrun => ?_⟩
  obtain ⟨i, o, ins, outs, hinv⟩ := reached_inv h₀ hrun
  refine ⟨⟨_, hinv.log.symm⟩, ?_, fun act hen => ?_⟩
  · exact ⟨i, o, ins, outs, hinv.in_eq, hinv.out_eq, hinv.in_ring, hinv.out_ring, hinv.log⟩
  · obtain ⟨s', out, -, -, -, -, hs, -⟩ := hinv.step hen
    exact ⟨s', out, hs⟩

/-- Two puts, with a get that waits for the first. -/
theorem swapQueue_fifo_two :
    ∃ head t s, swapQueueInit (some 1) (some 2) = some head ∧
      Run step Enabled (initial head) t s ∧ accepted t = [some 70, some 80] ∧
      returned t = [some 70] ∧ ∃ i ins, s.head.in_ = some i ∧ Ring s.head.mem i ins := by
  obtain ⟨head, hinit, hall⟩ := swapQueue_fifo 1 2 (by decide)
  have hreplay : ((swapQueueInit (some 1) (some 2)).bind fun head =>
      replay step Enabled (initial head) [.get, .put (some 70) (some 3), .link, .wake,
        .put (some 80) (some 4), .swap, .link, .last]).map (fun r => (accepted r.1, returned r.1)) =
      some ([some 70, some 80], [some 70]) := by decide +kernel
  rw [hinit, Option.bind_some] at hreplay
  obtain ⟨⟨t, s⟩, hs, hlog⟩ := Option.map_eq_some_iff.mp hreplay
  obtain ⟨hacc, hret⟩ := Prod.mk.inj hlog
  have hrun := Run.nil.replay hs
  obtain ⟨-, ⟨i, -, ins, -, hin, -, hring, -⟩, -⟩ := hall t s hrun
  exact ⟨_, t, s, hinit, hrun, hacc, hret, i, ins, hin, hring⟩

/-- While something is linked and the producer alone moves, no wait times out. -/
theorem not_timeout (hinv : Inv t₀ s₁ i o ins outs) (hne : ins ≠ [] ∨ outs ≠ [])
    (hrun : Run step Enabled s₁ t s) (hprod : ∀ e ∈ t, e.1.byProducer = true) :
    ¬ Enabled s .timeout := by
  have hkeep : (∀ e ∈ t, e.1.byProducer = true) →
      ∃ t' i o ins outs, Inv t' s i o ins outs ∧ (ins ≠ [] ∨ outs ≠ []) := by
    refine hrun.invariant (I := fun t s => (∀ e ∈ t, e.1.byProducer = true) →
      ∃ t' i o ins outs, Inv t' s i o ins outs ∧ (ins ≠ [] ∨ outs ≠ [])) ?_ ?_
    · exact fun _ => ⟨t₀, i, o, ins, outs, hinv, hne⟩
    · intro t s act s' out ih hen hs hprod
      obtain ⟨t', i, o, ins, outs, hinv, hne⟩ :=
        ih fun e he => hprod e (List.mem_append_left _ he)
      have hact : act.byProducer = true := hprod (act, out) (by simp)
      cases act with
      | put data addr =>
          obtain ⟨s'', out', hs', hinv'⟩ := put_inv hinv hen
          rw [hs] at hs'
          obtain ⟨rfl, rfl⟩ := Prod.mk.inj (Except.ok.inj hs')
          exact ⟨_, _, _, _, _, hinv', hne⟩
      | link =>
          obtain ⟨s'', out', hs', n, hinv'⟩ := link_inv hinv hen
          rw [hs] at hs'
          obtain ⟨rfl, rfl⟩ := Prod.mk.inj (Except.ok.inj hs')
          exact ⟨_, _, _, _, _, hinv', .inl (by simp)⟩
      | _ => cases hact
  obtain ⟨t', i, o, ins, outs, hinv, hne⟩ := hkeep hprod
  rintro ⟨hwait, hzero⟩
  have hc := hinv.c
  have hsem := hinv.sem
  cases hsc : s.c with
  | wait oh =>
      rw [hsc] at hc hsem
      have hins : ins ≠ [] := hne.resolve_right (not_not_intro hc.2)
      simp [hzero, hins, CPc.isSwap] at hsem
  | _ => rw [hsc] at hwait; cases hwait

/-- **No wake-up is lost and none is for nothing.**  After every interleaving
the semaphore is 0 or 1, and 1 exactly when `in` is occupied and the consumer is
not about to swap it; after a successful wait the swap and the unlinking
succeed and return an element; and a get that starts while an accepted
element is undelivered does not time out, whatever the producer does
meanwhile. -/
theorem swapQueue_wakeups (a b : Nat) (hab : a ≠ b) :
    ∃ head, swapQueueInit (some a) (some b) = some head ∧
      ∀ t s, Run step Enabled (initial head) t s →
        s.head.noEmpty ≤ 1 ∧
        (s.head.noEmpty = 1 ↔ Occupied s.head.mem s.head.in_ ∧ s.c.isSwap = false) ∧
        (s.c.isSwap = true → ∃ s', step s .swap = .ok (s', .tau) ∧ s'.c = .last) ∧
        (s.c = .last → ∃ s' v, step s .last = .ok (s', .get (some v))) ∧
        (s.c = .idle → returned t ≠ accepted t → ∀ s₁ out t₂ s₂,
          step s .get = .ok (s₁, out) → Run step Enabled s₁ t₂ s₂ →
          (∀ e ∈ t₂, e.1.byProducer = true) → ¬ Enabled s₂ .timeout) := by
  obtain ⟨head, hinit, h₀⟩ := swapQueueInit_inv hab
  refine ⟨head, hinit, fun t s hrun => ?_⟩
  obtain ⟨i, o, ins, outs, hinv⟩ := reached_inv h₀ hrun
  have hsem := hinv.sem
  have hocc : Occupied s.head.mem s.head.in_ ↔ ins ≠ [] := by
    have hnext : nextOf s.head.mem i ≠ some i ↔ ins ≠ [] := by
      rw [hinv.in_ring.next_sentinel, ne_eq, Option.some.injEq, hinv.in_ring.headD_eq_iff]
    rw [← hnext, hinv.in_eq]
    exact ⟨fun ⟨d, hd, h⟩ => Option.some.inj hd ▸ h, fun h => ⟨i, rfl, h⟩⟩
  refine ⟨?_, ?_, fun hswap => ?_, fun hlast => ?_, ?_⟩
  · rw [hsem]
    split <;> omega
  · rw [hocc, hsem]
    split
    · next h => exact iff_of_true rfl h
    · next h => exact iff_of_false (by omega) h
  · obtain ⟨s', hs', hc', -⟩ := swap_inv hinv hswap
    exact ⟨s', hs', hc'⟩
  · obtain ⟨s', v, -, hs', -⟩ := last_inv hinv hlast
    exact ⟨s', v, hs'⟩
  · intro hidle hpending s₁ out t₂ s₂ hget hrun₂ hprod
    obtain ⟨s', hs', hinv', -⟩ := get_inv hinv hidle
    rw [hget] at hs'
    obtain ⟨rfl, -⟩ := Prod.mk.inj (Except.ok.inj hs')
    refine not_timeout hinv' ?_ hrun₂ hprod
    by_contra hnone
    simp only [ne_eq, not_or, not_not] at hnone
    apply hpending
    have hlog := hinv.log
    simp only [hnone.1, hnone.2, datas, List.reverse_nil, List.filterMap_nil,
      List.append_nil] at hlog
    exact hlog.symm

/-- A get that has found a token swaps the rings. -/
theorem swapQueue_wakeups_one :
    ∃ head t s s', swapQueueInit (some 1) (some 2) = some head ∧
      Run step Enabled (initial head) t s ∧ s.c = .swap (some 2) ∧
      step s .swap = .ok (s', .tau) ∧ s'.c = .last := by
  obtain ⟨head, hinit, hall⟩ := swapQueue_wakeups 1 2 (by decide)
  have hreplay : ((swapQueueInit (some 1) (some 2)).bind fun head =>
      replay step Enabled (initial head) [.get, .put (some 70) (some 3), .link,
        .wake]).map (·.2.c) =
      some (.swap (some 2)) := by decide +kernel
  rw [hinit, Option.bind_some] at hreplay
  obtain ⟨⟨t, s⟩, hs, hc⟩ := Option.map_eq_some_iff.mp hreplay
  have hrun := Run.nil.replay hs
  obtain ⟨-, -, hswap, -⟩ := hall t s hrun
  obtain ⟨s', hs', hc'⟩ := hswap (congrArg CPc.isSwap hc)
  exact ⟨head, t, s, s', hinit, hrun, hc, hs', hc'⟩

end SwapQueue
end MySrc
