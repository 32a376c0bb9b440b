import MySrc.TemplateHttp.HttpManager

/-!
# MySrc.TemplateHttp.HttpServer

The reactor of `template_http/src/http/httpserver.cpp` with the threads that
answer requests.  The reactor thread accepts connections, receives their bytes
and carries out the commands that `send_data` and `close_client` have put into
`m_queue_send`; these two may be called by any number of other threads at any
time, with the descriptor and the tag of a request.

The kernel is part of the state: the table of descriptors says who holds each
of them, and `accept` may return any one that nobody holds.  The connections
that were given a tag are numbered in the order of their accepts.

`commands_reach_own_connection` holds after every interleaving.
-/

namespace MySrc
namespace HttpServer

open Lib
open Function (update update_of_ne)

/-! ## the state -/

/-- Who holds a descriptor of the process. -/
inductive Holder
  /-- the listening socket, the pipe and the epoll descriptor -/
  | server
  /-- an accepted socket that could not be set up: it is left open and forgotten -/
  | orphan
  /-- the connection with the `k`-th tag -/
  | conn (k : Nat)
  deriving DecidableEq

/-- `PIPE_CMD_SEND` and `PIPE_CMD_CLOSE` -/
inductive PipeCmd
  | send
  | close
  deriving DecidableEq

/-- `STU_EPOLL_RTN` -/
structure EpollRtn where
  clientfd : Nat
  fd_unify_tag : UInt64
  str_data_send : Str
  cmd_type : PipeCmd
  deriving DecidableEq

/-- What `init_server` fixes: the descriptors of the server itself, of which the
reactor knows two apart, and the size of the array. -/
structure Config where
  m_listen_fd : Nat
  m_pipe_read : Nat
  m_pipe_write : Nat
  m_epoll_fd : Nat
  m_epoll_maxsize : Nat

structure Server where
  /-- the descriptors of the process -/
  table : Nat → Option Holder
  /-- the client descriptors that epoll watches -/
  interest : Nat → Bool
  /-- the bytes in the pipe -/
  pipe : Nat
  m_array_epoll_data : List (Option EpollData)
  m_unify_id : UInt64
  m_clientcount : Int
  m_client_history_count : UInt64
  m_queue_send : List EpollRtn
  /-- the rest of the batch that the reactor works on -/
  events : List Nat
  /-- the reactor has read a byte from the pipe, and will take a command -/
  reading : Bool
  /-- the threads that have queued a command and not yet written their byte -/
  writing : Nat → Bool
  /-- the requests that were handed out so far -/
  requests : List HttpRequestPacket
  /-- the tags that were given so far -/
  tags : List UInt64
  /-- how often `accept` has returned a descriptor -/
  accepts : Nat

/-- `init_server`, up to the loop of the reactor. -/
def init (cfg : Config) : Server where
  table fd :=
    if fd ∈ [cfg.m_listen_fd, cfg.m_pipe_read, cfg.m_pipe_write, cfg.m_epoll_fd] then some .server
    else none
  interest _ := false
  pipe := 0
  m_array_epoll_data := List.replicate cfg.m_epoll_maxsize none
  m_unify_id := 0
  m_clientcount := 0
  m_client_history_count := 0
  m_queue_send := []
  events := []
  reading := false
  writing _ := false
  requests := []
  tags := []
  accepts := 0

/-- Bytes sent to a descriptor, or (`none`) its closing: the command it is done for, if
any, and who holds the descriptor at that moment. -/
structure Touch where
  cmd : Option EpollRtn
  bytes : Option Str
  fd : Nat
  holder : Option Holder

/-! ## the reactor -/

/-- `m_array_epoll_data[fd]` -/
def slotAt (s : Server) (fd : Nat) : Except Fault (Option EpollData) :=
  match s.m_array_epoll_data[fd]? with
  | none => .error .outOfBounds
  | some slot => .ok slot

def setSlot (s : Server) (fd : Nat) (slot : Option EpollData) : Server :=
  { s with m_array_epoll_data := s.m_array_epoll_data.set fd slot }

/-- `get_unify_tag`: the counter afterwards, and the tag. -/
def getUnifyTag (m_unify_id : UInt64) (client_fd : Nat) : UInt64 × UInt64 :=
  let m_unify_id := m_unify_id + 1
  let unifyid := m_unify_id &&& 0xFFFFFFFF
  let fd64 := UInt64.ofNat client_fd <<< 32
  (m_unify_id, fd64 + unifyid)

/-- `close_socket_internal`, on behalf of `cmd`. -/
def closeSocketInternal (callback : RecvCallback) (s : Server) (cmd : Option EpollRtn)
    (clientfd : Nat) : Except Fault (Server × List Touch) := do
  let touch : Touch := ⟨cmd, none, clientfd, s.table clientfd⟩
  let s := { s with
    interest := update s.interest clientfd false
    table := update s.table clientfd none
    m_clientcount := s.m_clientcount - 1 }
  match ← slotAt s clientfd with
  | none => return (s, [touch])
  | some data =>
      let _ ← callback .close none data
      return (setSlot s clientfd none, [touch])

/-- What `accept` and the calls that set up the new socket return. -/
inductive AcceptResult
  | failed
  /-- `non_blocking`, `setsockopt` or `epoll_ctl` fails -/
  | setupFailed (fd : Nat)
  | accepted (fd : Nat)
  deriving DecidableEq

/-- The branch of the reactor for `m_listen_fd`. -/
def acceptEvent (callback : RecvCallback) (s : Server) :
    AcceptResult → Except Fault (Server × List Touch)
  | .failed => .ok (s, [])
  | .setupFailed fd =>
      .ok ({ s with table := update s.table fd (some .orphan), accepts := s.accepts + 1 }, [])
  | .accepted fd => do
      let s := { s with
        table := update s.table fd (some (.conn s.tags.length))
        interest := update s.interest fd true
        accepts := s.accepts + 1 }
      let (m_unify_id, tag) := getUnifyTag s.m_unify_id fd
      let data : EpollData := ⟨fd, tag, []⟩
      let s := { s with m_unify_id, tags := s.tags ++ [tag] }
      let _ ← slotAt s fd
      let s := setSlot s fd (some data)
      let _ ← callback .newConn none data
      return ({ s with
        m_clientcount := s.m_clientcount + 1
        m_client_history_count := s.m_client_history_count + 1 }, [])

/-- A command from `m_queue_send`, with what `send` returns for it: the number of bytes
that were sent, or an error. -/
def dispatch (callback : RecvCallback) (s : Server) (cmd : EpollRtn) (send_result : Option Nat) :
    Except Fault (Server × List Touch) := do
  match ← slotAt s cmd.clientfd with
  | none => return (s, [])
  | some data =>
      if data.clientfd = cmd.clientfd ∧ data.fd_unify_tag = cmd.fd_unify_tag then
        match cmd.cmd_type with
        | .send =>
            let touch : Touch :=
              ⟨some cmd, some cmd.str_data_send, cmd.clientfd, s.table cmd.clientfd⟩
            if send_result = some cmd.str_data_send.length then return (s, [touch])
            else
              let (s, touches) ← closeSocketInternal callback s (some cmd) cmd.clientfd
              return (s, touch :: touches)
        | .close => closeSocketInternal callback s (some cmd) cmd.clientfd
      else return (s, [])

/-- The branch of the reactor for a client. -/
def recvEvent (callback : RecvCallback) (s : Server) (fd : Nat) (recv_result : RecvResult) :
    Except Fault (Server × List Touch) := do
  let slot ← slotAt s fd
  let (result, slot, request) ← dealwithRecv callback slot recv_result
  let s := { setSlot s fd slot with requests := s.requests ++ request.toList }
  if result = -1 then closeSocketInternal callback s none fd else return (s, [])

/-! ## the threads -/

/-- The answers of the kernel to the calls that handling an event makes. -/
structure Answer where
  accept : AcceptResult
  read : Bool
  recv : RecvResult

inductive Act
  /-- `epoll_wait` returns a batch -/
  | wait (fds : List Nat)
  /-- the reactor handles the next event, up to the read of a byte from the pipe -/
  | event (answer : Answer)
  /-- the reactor takes a command from the queue and carries it out -/
  | dequeue (send_result : Option Nat)
  /-- a thread calls `send_data` or `close_client`, up to `add_queue` -/
  | queue (thread : Nat) (cmd : EpollRtn)
  /-- it writes a byte to the pipe -/
  | notify (thread : Nat) (written : Bool)

section

variable (cfg : Config) (callback : RecvCallback)

def step (s : Server) : Act → Except Fault (Server × List Touch)
  | .wait fds => .ok ({ s with events := fds }, [])
  | .event answer =>
      match s.events with
      | [] => .ok (s, [])
      | fd :: events =>
          let s := { s with events }
          if fd = cfg.m_listen_fd then acceptEvent callback s answer.accept
          else if fd = cfg.m_pipe_read then
            if answer.read then .ok ({ s with pipe := s.pipe - 1, reading := true }, [])
            else .ok (s, [])
          else recvEvent callback s fd answer.recv
  | .dequeue send_result =>
      let s := { s with reading := false }
      match s.m_queue_send with
      | [] => .ok (s, [])
      | cmd :: m_queue_send => dispatch callback { s with m_queue_send } cmd send_result
  | .queue thread cmd =>
      .ok ({ s with
        m_queue_send := s.m_queue_send ++ [cmd]
        writing := update s.writing thread true }, [])
  | .notify thread written =>
      .ok ({ s with
        pipe := if written then s.pipe + 1 else s.pipe
        writing := update s.writing thread false }, [])

/-- The descriptor that `accept` returns is one that nobody holds. -/
def AcceptResult.Free (s : Server) : AcceptResult → Prop
  | .failed => True
  | .setupFailed fd => s.table fd = none
  | .accepted fd => s.table fd = none

instance (s : Server) (r : AcceptResult) : Decidable (r.Free s) :=
  match r with
  | .failed => inferInstanceAs (Decidable True)
  | .setupFailed fd => inferInstanceAs (Decidable (s.table fd = none))
  | .accepted fd => inferInstanceAs (Decidable (s.table fd = none))

/-- What the kernel and the threads can do: `epoll_wait` reports descriptors that are
watched, each at most once; a read from the pipe finds a byte; and a thread has the
descriptor and the tag of its command from a request. -/
def Allowed (s : Server) : Act → Prop
  | .wait fds =>
      s.events = [] ∧ s.reading = false ∧ fds.Nodup ∧
        ∀ fd ∈ fds, fd = cfg.m_listen_fd ∨ fd = cfg.m_pipe_read ∨ s.interest fd
  | .event answer =>
      s.events ≠ [] ∧ s.reading = false ∧ answer.accept.Free s ∧
        (s.events.head? = some cfg.m_pipe_read → answer.read → 0 < s.pipe)
  | .dequeue _ => s.reading = true
  | .queue thread cmd =>
      s.writing thread = false ∧
        ∃ r ∈ s.requests, r.m_clientfd = cmd.clientfd ∧ r.m_client_tag = cmd.fd_unify_tag
  | .notify thread _ => s.writing thread = true

instance (s : Server) (act : Act) : Decidable (Allowed cfg s act) :=
  match act with
  | .wait _ => inferInstanceAs (Decidable (_ ∧ _ ∧ _ ∧ _))
  | .event _ => inferInstanceAs (Decidable (_ ∧ _ ∧ _ ∧ _))
  | .dequeue _ => inferInstanceAs (Decidable (_ = _))
  | .queue _ _ => inferInstanceAs (Decidable (_ ∧ _))
  | .notify _ _ => inferInstanceAs (Decidable (_ = _))

end

/-! ## the invariant -/

/-- A slot belongs to the connection that holds its descriptor, with the tag that the
connection was given; and the low halves of the tags count the connections. -/
structure Inv (s : Server) : Prop where
  slots : ∀ fd data, s.m_array_epoll_data[fd]? = some (some data) → data.clientfd = fd ∧
    ∃ k, s.table fd = some (.conn k) ∧ s.tags[k]? = some data.fd_unify_tag
  tags : ∀ k tag, s.tags[k]? = some tag → tag.toNat % 2 ^ 32 = (k + 1) % 2 ^ 32
  ids : s.m_unify_id = UInt64.ofNat s.tags.length
  count : s.tags.length ≤ s.accepts

/-- What is done for a command is done to the descriptor it names, while that is held by
a connection that was given the tag of the command. -/
def Own (tags : List UInt64) (touch : Touch) : Prop :=
  ∀ cmd, touch.cmd = some cmd → touch.fd = cmd.clientfd ∧
    ∃ k, touch.holder = some (.conn k) ∧ tags[k]? = some cmd.fd_unify_tag

/-- What a step guarantees. -/
structure Kept (s s' : Server) (touches : List Touch) : Prop where
  inv : Inv s'
  tags : s.tags <+: s'.tags
  own : ∀ touch ∈ touches, Own s'.tags touch

section

variable {callback : RecvCallback} {s s' : Server} {touches : List Touch} {fd : Nat}

theorem Own.mono {tags tags' : List UInt64} {touch : Touch} (h : Own tags touch)
    (htags : tags <+: tags') : Own tags' touch := by
  intro cmd hcmd
  obtain ⟨hfd, k, hholder, htag⟩ := h cmd hcmd
  refine ⟨hfd, k, hholder, ?_⟩
  obtain ⟨rest, rfl⟩ := htags
  rw [List.getElem?_append_left (List.getElem?_eq_some_iff.mp htag).1, htag]

theorem slotAt_eq_ok {slot : Option EpollData} (h : slotAt s fd = .ok slot) :
    s.m_array_epoll_data[fd]? = some slot := by
  rw [slotAt] at h
  split at h
  · cases h
  · next hslot =>
      cases h
      exact hslot

/-- Below `2 ^ 32` accepts a tag tells its connection. -/
theorem Inv.tag_injective (h : Inv s) (haccepts : s.accepts < 2 ^ 32) {k k' : Nat} {tag : UInt64}
    (hk : s.tags[k]? = some tag) (hk' : s.tags[k']? = some tag) : k' = k := by
  have hlow := h.tags k tag hk
  have hlow' := h.tags k' tag hk'
  have hlt := (List.getElem?_eq_some_iff.mp hk).1
  have hlt' := (List.getElem?_eq_some_iff.mp hk').1
  have hcount := h.count
  omega

/-- The low half of a tag is that of the counter. -/
theorem getUnifyTag_low (m_unify_id : UInt64) (fd : Nat) :
    (getUnifyTag m_unify_id fd).2.toNat % 2 ^ 32 = (m_unify_id.toNat + 1) % 2 ^ 32 := by
  have hmask : (4294967295 % 2 ^ 64 : Nat) = 2 ^ 32 - 1 := by decide
  have hshift : (32 % 2 ^ 64 % 64 : Nat) = 32 := by decide
  simp only [getUnifyTag, UInt64.toNat_add, UInt64.toNat_and, UInt64.toNat_shiftLeft,
    UInt64.toNat_ofNat, hmask, hshift, Nat.and_two_pow_sub_one_eq_mod, Nat.shiftLeft_eq]
  omega

/-- **Closing** a descriptor empties its slot and its entry in the table. -/
theorem closeSocketInternal_eq_ok {cmd : Option EpollRtn}
    (hs : closeSocketInternal callback s cmd fd = .ok (s', touches)) :
    s' = { s with
        interest := update s.interest fd false
        table := update s.table fd none
        m_clientcount := s.m_clientcount - 1
        m_array_epoll_data := s.m_array_epoll_data.set fd none } ∧
      touches = [⟨cmd, none, fd, s.table fd⟩] := by
  obtain ⟨slot, hslot, hs⟩ := bind_eq_ok.mp hs
  cases slot with
  | none =>
      obtain ⟨hlt, hget⟩ := List.getElem?_eq_some_iff.mp (slotAt_eq_ok hslot)
      have hset : s.m_array_epoll_data.set fd none = s.m_array_epoll_data := by
        rw [← hget]
        exact List.set_getElem_self hlt
      cases hs
      rw [hset]
      exact ⟨rfl, rfl⟩
  | some data =>
      obtain ⟨r, -, hs⟩ := bind_eq_ok.mp hs
      cases hs
      exact ⟨rfl, rfl⟩

/-- Closing a descriptor keeps the invariant. -/
theorem Inv.closeSlot {cmd : Option EpollRtn} (h : Inv s)
    (hs : closeSocketInternal callback s cmd fd = .ok (s', touches)) : Inv s' := by
  obtain ⟨rfl, -⟩ := closeSocketInternal_eq_ok hs
  refine ⟨?_, h.tags, h.ids, h.count⟩
  intro fd' data hdata
  have hne : fd' ≠ fd := by
    rintro rfl
    simp [List.getElem?_set] at hdata
  rw [List.getElem?_set_ne hne.symm] at hdata
  simpa [update_of_ne hne] using h.slots fd' data hdata

/-- Closing a descriptor, for a command only when its connection holds it. -/
theorem Inv.close {cmd : Option EpollRtn} (h : Inv s)
    (hown : Own s.tags ⟨cmd, none, fd, s.table fd⟩)
    (hs : closeSocketInternal callback s cmd fd = .ok (s', touches)) : Kept s s' touches := by
  have hinv := h.closeSlot hs
  obtain ⟨rfl, rfl⟩ := closeSocketInternal_eq_ok hs
  exact ⟨hinv, List.prefix_rfl, by simpa using hown⟩

/-- Nobody holds the descriptor of an empty slot twice: a descriptor that nobody holds
has no slot. -/
theorem Inv.slot_ne (h : Inv s) (hfree : s.table fd = none) {fd' : Nat} {data : EpollData}
    (hdata : s.m_array_epoll_data[fd']? = some (some data)) : fd' ≠ fd := by
  rintro rfl
  obtain ⟨-, k, htable, -⟩ := h.slots fd' data hdata
  cases hfree.symm.trans htable

/-- A new connection holds its descriptor and its slot. -/
theorem Inv.accept (h : Inv s) {result : AcceptResult} (hfree : result.Free s)
    (hs : acceptEvent callback s result = .ok (s', touches)) : Kept s s' touches := by
  cases result with
  | failed =>
      cases hs
      exact ⟨h, List.prefix_rfl, by simp⟩
  | setupFailed fd =>
      cases hs
      refine ⟨⟨?_, h.tags, h.ids, Nat.le_succ_of_le h.count⟩, List.prefix_rfl, by simp⟩
      intro fd' data hdata
      simpa [update_of_ne (h.slot_ne hfree hdata)] using h.slots fd' data hdata
  | accepted fd =>
      obtain ⟨slot, hslot, hs⟩ := bind_eq_ok.mp hs
      obtain ⟨r, -, hs⟩ := bind_eq_ok.mp hs
      cases hs
      refine ⟨⟨?_, ?_, ?_, ?_⟩, List.prefix_append _ _, by simp⟩
      · intro fd' data hdata
        simp only [setSlot] at hdata ⊢
        by_cases hfd : fd' = fd
        · subst hfd
          rw [List.getElem?_set_self (List.getElem?_eq_some_iff.mp (slotAt_eq_ok hslot)).1] at hdata
          cases hdata
          exact ⟨rfl, s.tags.length, by simp, by simp⟩
        · rw [List.getElem?_set_ne (Ne.symm hfd)] at hdata
          obtain ⟨hclient, k, htable, htag⟩ := h.slots fd' data hdata
          refine ⟨hclient, k, by rwa [update_of_ne hfd], ?_⟩
          rw [List.getElem?_append_left (List.getElem?_eq_some_iff.mp htag).1, htag]
      · intro k tag htag
        simp only [setSlot] at htag
        rw [List.getElem?_append] at htag
        split at htag
        · exact h.tags k tag htag
        · next hk =>
            -- the new tag
            obtain ⟨hlt, rfl⟩ := List.getElem?_eq_some_iff.mp htag
            simp only [List.length_singleton, Nat.lt_one_iff] at hlt
            have hlow :
                (UInt64.ofNat fd <<< 32 + (s.m_unify_id + 1 &&& 0xFFFFFFFF)).toNat % 2 ^ 32 =
                (s.m_unify_id.toNat + 1) % 2 ^ 32 := getUnifyTag_low s.m_unify_id fd
            have hid := congrArg UInt64.toNat h.ids
            rw [UInt64.toNat_ofNat'] at hid
            simp only [List.getElem_singleton]
            omega
      · simp only [setSlot, List.length_append, List.length_singleton]
        rw [h.ids, UInt64.ofNat_add]
        rfl
      · have hcount := h.count
        simp only [setSlot, List.length_append, List.length_singleton]
        omega

/-- `dealwith_recv` changes no more of a slot than its buffer. -/
theorem dealwithRecv_slot {slot slot' : Option EpollData} {recv_result : RecvResult} {result : Int}
    {request : Option HttpRequestPacket}
    (h : dealwithRecv callback slot recv_result = .ok (result, slot', request)) :
    slot' = slot ∨ ∃ data buffer, slot = some data ∧
      slot' = some { data with str_data_recved := buffer } := by
  unfold dealwithRecv at h
  split at h
  · cases h
    exact .inl rfl
  · cases h
    exact .inl rfl
  · cases h
    exact .inl rfl
  · cases h
    exact .inl rfl
  · next data chunk =>
      obtain ⟨⟨notify_result, req⟩, -, h⟩ := bind_eq_ok.mp h
      refine .inr ⟨data, ?_⟩
      simp only at h
      split at h
      · cases h
        exact ⟨[], rfl, rfl⟩
      · refine ⟨data.str_data_recved ++ chunk, rfl, ?_⟩
        split at h
        · cases h
          rfl
        · split at h
          all_goals
            cases h
            rfl

/-- Receiving changes no more of the state than a buffer and the requests. -/
theorem Inv.received (h : Inv s) {slot slot' : Option EpollData} {recv_result : RecvResult}
    {result : Int} {request : Option HttpRequestPacket}
    (hslot : s.m_array_epoll_data[fd]? = some slot)
    (hrecv : dealwithRecv callback slot recv_result = .ok (result, slot', request)) :
    Inv { setSlot s fd slot' with requests := s.requests ++ request.toList } := by
  refine ⟨?_, h.tags, h.ids, h.count⟩
  intro fd' data hdata
  simp only [setSlot] at hdata
  by_cases hfd : fd' = fd
  · subst hfd
    rw [List.getElem?_set_self (List.getElem?_eq_some_iff.mp hslot).1] at hdata
    obtain rfl := Option.some.inj hdata
    rcases dealwithRecv_slot hrecv with rfl | ⟨data', buffer, rfl, hbuffer⟩
    · exact h.slots fd' data hslot
    · cases hbuffer
      exact h.slots fd' data' hslot
  · rw [List.getElem?_set_ne (Ne.symm hfd)] at hdata
    exact h.slots fd' data hdata

theorem Inv.recv (h : Inv s) {recv_result : RecvResult}
    (hs : recvEvent callback s fd recv_result = .ok (s', touches)) : Kept s s' touches := by
  obtain ⟨slot, hslot, hs⟩ := bind_eq_ok.mp hs
  obtain ⟨⟨result, slot', request⟩, hrecv, hs⟩ := bind_eq_ok.mp hs
  have hinv := h.received (slotAt_eq_ok hslot) hrecv
  simp only at hs
  split at hs
  · obtain ⟨hclosed, htags, hown⟩ := hinv.close (by simp [Own]) hs
    exact ⟨hclosed, htags, hown⟩
  · cases hs
    exact ⟨hinv, List.prefix_rfl, by simp⟩

/-- A command is carried out when the slot has its tag, so for the connection that was
given the tag. -/
theorem Inv.dispatch (h : Inv s) {cmd : EpollRtn} {send_result : Option Nat}
    (hs : dispatch callback s cmd send_result = .ok (s', touches)) : Kept s s' touches := by
  obtain ⟨slot, hslot, hs⟩ := bind_eq_ok.mp hs
  have hslot := slotAt_eq_ok hslot
  have hnothing : Kept s s [] := ⟨h, List.prefix_rfl, by simp⟩
  cases slot with
  | none =>
      cases hs
      exact hnothing
  | some data =>
      simp only at hs
      split at hs
      · next hsame =>
          obtain ⟨-, k, htable, htag⟩ := h.slots _ data hslot
          have hown : ∀ bytes,
              Own s.tags ⟨some cmd, bytes, cmd.clientfd, s.table cmd.clientfd⟩ := by
            intro bytes cmd' hcmd
            cases hcmd
            exact ⟨rfl, k, htable, by rw [htag, hsame.2]⟩
          split at hs
          · split at hs
            · cases hs
              exact ⟨h, List.prefix_rfl, by simpa using hown _⟩
            · obtain ⟨⟨s₁, touches₁⟩, hclose, hs⟩ := bind_eq_ok.mp hs
              cases hs
              obtain ⟨hinv, htags, howns⟩ := h.close (hown none) hclose
              refine ⟨hinv, htags, fun touch htouch => ?_⟩
              rcases List.mem_cons.mp htouch with rfl | htouch
              · exact (hown _).mono htags
              · exact howns touch htouch
          · exact h.close (hown none) hs
      · cases hs
        exact hnothing

end

/-! ## runs -/

section

variable (cfg : Config) (callback : RecvCallback)

theorem init_inv : Inv (init cfg) where
  slots fd data hdata := by
    simp [init, List.getElem?_replicate] at hdata
  tags k tag htag := by simp [init] at htag
  ids := rfl
  count := Nat.le_refl 0

variable {cfg callback} {s s' : Server} {touches : List Touch}

/-- What the reactor does for the next event of its batch. -/
theorem step_event_cases {answer : Answer} {r : Except Fault (Server × List Touch)}
    (hs : step cfg callback s (.event answer) = r) :
    (s.events = [] ∧ r = .ok (s, [])) ∨
    ∃ fd events, s.events = fd :: events ∧
      ((fd = cfg.m_listen_fd ∧ acceptEvent callback { s with events } answer.accept = r) ∨
      (fd = cfg.m_pipe_read ∧ answer.read = true ∧
        r = .ok ({ s with events, pipe := s.pipe - 1, reading := true }, [])) ∨
      (fd = cfg.m_pipe_read ∧ answer.read = false ∧ r = .ok ({ s with events }, [])) ∨
      (fd ≠ cfg.m_listen_fd ∧ fd ≠ cfg.m_pipe_read ∧
        recvEvent callback { s with events } fd answer.recv = r)) := by
  unfold HttpServer.step at hs
  simp only at hs
  split at hs
  · next hevents => exact .inl ⟨hevents, hs.symm⟩
  · next fd events hevents =>
      refine .inr ⟨fd, events, hevents, ?_⟩
      split at hs
      · next hlisten => exact .inl ⟨hlisten, hs⟩
      · next hlisten =>
          split at hs
          · next hpipe =>
              split at hs
              · next hread => exact .inr (.inl ⟨hpipe, hread, hs.symm⟩)
              · next hread => exact .inr (.inr (.inl ⟨hpipe, by simpa using hread, hs.symm⟩))
          · next hpipe => exact .inr (.inr (.inr ⟨hlisten, hpipe, hs⟩))

/-- What the reactor does with the queue of commands when it has read a byte. -/
theorem step_dequeue_cases {send_result : Option Nat} {r : Except Fault (Server × List Touch)}
    (hs : step cfg callback s (.dequeue send_result) = r) :
    (s.m_queue_send = [] ∧ r = .ok ({ s with reading := false }, [])) ∨
    ∃ cmd rest, s.m_queue_send = cmd :: rest ∧
      dispatch callback { s with reading := false, m_queue_send := rest } cmd send_result = r := by
  unfold HttpServer.step at hs
  simp only at hs
  split at hs
  · next hqueue => exact .inl ⟨hqueue, hs.symm⟩
  · next cmd rest hqueue => exact .inr ⟨cmd, rest, hqueue, hs⟩

/-- **Step**: whatever the reactor or a thread does keeps the invariant, and what it does
for a command it does to the connection of the command. -/
theorem Inv.step (h : Inv s) {act : Act}
    (hfree : ∀ answer, act = .event answer → answer.accept.Free s)
    (hs : step cfg callback s act = .ok (s', touches)) : Kept s s' touches := by
  cases act with
  | wait fds =>
      cases hs
      exact ⟨⟨h.slots, h.tags, h.ids, h.count⟩, List.prefix_rfl, by simp⟩
  | event answer =>
      have hfree := hfree answer rfl
      obtain ⟨-, hr⟩ | ⟨fd, events, -, hcases⟩ := step_event_cases hs
      · cases hr
        exact ⟨h, List.prefix_rfl, by simp⟩
      · have hinv : Inv { s with events } := ⟨h.slots, h.tags, h.ids, h.count⟩
        obtain ⟨-, hs⟩ | ⟨-, -, hr⟩ | ⟨-, -, hr⟩ | ⟨-, -, hs⟩ := hcases
        · have hfree' : answer.accept.Free { s with events } := by
            revert hfree
            cases answer.accept <;> exact id
          obtain ⟨hi, htags, hown⟩ := hinv.accept hfree' hs
          exact ⟨hi, htags, hown⟩
        · cases hr
          exact ⟨⟨h.slots, h.tags, h.ids, h.count⟩, List.prefix_rfl, by simp⟩
        · cases hr
          exact ⟨hinv, List.prefix_rfl, by simp⟩
        · obtain ⟨hi, htags, hown⟩ := hinv.recv hs
          exact ⟨hi, htags, hown⟩
  | dequeue send_result =>
      obtain ⟨-, hr⟩ | ⟨cmd, rest, -, hs⟩ := step_dequeue_cases hs
      · cases hr
        exact ⟨⟨h.slots, h.tags, h.ids, h.count⟩, List.prefix_rfl, by simp⟩
      · have hinv : Inv { s with reading := false, m_queue_send := rest } :=
          ⟨h.slots, h.tags, h.ids, h.count⟩
        obtain ⟨hi, htags, hown⟩ := hinv.dispatch hs
        exact ⟨hi, htags, hown⟩
  | queue thread cmd =>
      cases hs
      exact ⟨⟨h.slots, h.tags, h.ids, h.count⟩, List.prefix_rfl, by simp⟩
  | notify thread written =>
      cases hs
      exact ⟨⟨h.slots, h.tags, h.ids, h.count⟩, List.prefix_rfl, by simp⟩

/-- The invariant with the history of a run. -/
theorem run_inv {t : List (Act × List Touch)}
    (h : Run (HttpServer.step cfg callback) (Allowed cfg) (init cfg) t s) :
    Inv s ∧ ∀ p ∈ t, ∀ touch ∈ p.2, Own s.tags touch := by
  refine h.invariant (I := fun t s => Inv s ∧ ∀ p ∈ t, ∀ touch ∈ p.2, Own s.tags touch)
    ⟨init_inv cfg, by simp⟩ ?_
  intro t s act s' touches hI hallowed hs
  obtain ⟨hinv, howns⟩ := hI
  have hfree : ∀ answer, act = .event answer → answer.accept.Free s := by
    rintro answer rfl
    exact hallowed.2.2.1
  obtain ⟨hinv', htags, hown⟩ := hinv.step hfree hs
  refine ⟨hinv', fun p hp touch htouch => ?_⟩
  rcases List.mem_append.mp hp with hp | hp
  · exact (howns p hp touch htouch).mono htags
  · obtain rfl := List.mem_singleton.mp hp
    exact hown touch htouch

/-- **Commands reach their own connection**: after every interleaving with fewer than
`2 ^ 32` accepts, each `send` and each `close` that was done for a command was done to the
descriptor of the command, while that was held by the connection that was given the tag
of the command, which no other connection was given. -/
theorem commands_reach_own_connection {t : List (Act × List Touch)}
    (h : Run (HttpServer.step cfg callback) (Allowed cfg) (init cfg) t s)
    (haccepts : s.accepts < 2 ^ 32) :
    ∀ p ∈ t, ∀ touch ∈ p.2, ∀ cmd, touch.cmd = some cmd →
      touch.fd = cmd.clientfd ∧
        ∃ k, touch.holder = some (.conn k) ∧ s.tags[k]? = some cmd.fd_unify_tag ∧
          ∀ k', s.tags[k']? = some cmd.fd_unify_tag → k' = k := by
  obtain ⟨hinv, howns⟩ := run_inv h
  intro p hp touch htouch cmd hcmd
  obtain ⟨hfd, k, hholder, htag⟩ := howns p hp touch htouch cmd hcmd
  exact ⟨hfd, k, hholder, htag, fun k' hk' => hinv.tag_injective haccepts htag hk'⟩

end

/-- A server whose own descriptors are 3 to 6. -/
def smallConfig : Config := ⟨3, 4, 5, 6, 16⟩

/-- Two commands of one request; the descriptor is accepted anew between them. -/
def reuseActs : List Act :=
  let cmd : PipeCmd → EpollRtn := fun c => ⟨7, 0x700000001, [88], c⟩
  let answer : Answer := ⟨.accepted 7, true, .bytes getRoot.render⟩
  let read : Answer := ⟨.failed, true, .again⟩
  [.wait [3], .event answer, .wait [7], .event { answer with accept := .failed },
    .queue 0 (cmd .close), .queue 1 (cmd .send), .notify 1 true, .notify 0 true,
    .wait [4], .event read, .dequeue none, .wait [3], .event answer,
    .wait [4], .event read, .dequeue none]

/-- The first command closes its connection; the second one does not reach the connection
that has got the descriptor since. -/
theorem commands_reach_own_connection_reuse :
    ∃ t s, Run (step smallConfig (httpCallback id fun _ => none)) (Allowed smallConfig)
        (init smallConfig) t s ∧
      (t.flatMap (·.2)).map (fun touch => (touch.fd, touch.holder)) = [(7, some (.conn 0))] ∧
      ∀ p ∈ t, ∀ touch ∈ p.2, ∀ cmd, touch.cmd = some cmd →
        touch.fd = cmd.clientfd ∧
          ∃ k, touch.holder = some (.conn k) ∧ s.tags[k]? = some cmd.fd_unify_tag ∧
            ∀ k', s.tags[k']? = some cmd.fd_unify_tag → k' = k := by
  have hreplay : (replay (step smallConfig (httpCallback id fun _ => none)) (Allowed smallConfig)
      (init smallConfig) reuseActs).map (fun r =>
        ((r.1.flatMap (·.2)).map (fun touch => (touch.fd, touch.holder)), r.2.accepts)) =
      some ([(7, some (.conn 0))], 2) := by
    decide +kernel
  obtain ⟨⟨t, s⟩, hs, hlog⟩ := Option.map_eq_some_iff.mp hreplay
  obtain ⟨htouches, haccepts⟩ := Prod.mk.inj hlog
  have hrun := Run.nil.replay hs
  have hlt : s.accepts < 2 ^ 32 := by
    simp only at haccepts
    omega
  exact ⟨t, s, hrun, htouches, commands_reach_own_connection hrun hlt⟩

end HttpServer
end MySrc
