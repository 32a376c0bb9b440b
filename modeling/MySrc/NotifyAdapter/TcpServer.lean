import MySrc.NotifyAdapter.ProtocolCodec
import MySrc.NotifyAdapter.MessageCodec

/-!
# MySrc.NotifyAdapter.TcpServer

The reactor of `notify_adapter_v2/src/main/tcpserver.cpp` with the threads around
it.  The reactor accepts connections, collects the frames that they send and
hands each one to `m_callback`, carries out the commands of `m_queue_rtn`, and
closes connections that were silent for too long.  The callback puts messages
into `m_queue_adapter_cmd`, from which a thread of the dispatcher takes them.

Any other thread may put a command into `m_queue_rtn` at any time.  The bytes in
the pipe are left out: the reactor may take a command whenever there is one.
The batches of `epoll_wait` are left out, too: an event may be handled for any
descriptor, so also for one that was closed after the event was reported.

Strings that are only logged, the addresses of the peers and the answers that
nobody reads are not modelled.
-/

namespace MySrc
namespace NotifyAdapter

open Lib ProtocolCodec
open Function (update update_of_ne)

/-! ## data -/

/-- `socket_client` -/
structure SocketClient where
  m_fd : Nat
  m_unify_tag : UInt64
  m_data_recv : Str
  m_is_authed : Bool
  m_socket_identity : Str
  m_last_update_seconds : Nat

/-- `PIPE_CMD_SEND`, `PIPE_CMD_CLOSE`, `PIPE_CMD_AUTH_OK` and `PIPE_CMD_BOADCAST` -/
inductive PipeCmd
  | send
  | close
  | authOk
  | boadcast
  deriving DecidableEq

/-- `STU_EPOLL_RTN` -/
structure EpollRtn where
  clientfd : Nat
  fd_unify_tag : UInt64
  socket_ientity : Str
  str_data_send : Str
  cmd_type : PipeCmd
  deriving DecidableEq

/-- `STU_SOCKET_INFO` -/
structure SocketInfo where
  clientfd : Nat
  fd_unify_tag : UInt64
  deriving DecidableEq

/-- `STU_MSG_INFO` -/
structure MsgInfo where
  fd : Nat
  tag : UInt64
  tokenid : Str
  content_path : Str
  content : Str
  deriving DecidableEq

/-- `enum_notify_type` -/
inductive NotifyType
  | dataRecv
  | close

def tcpCheckOk : Int := 1

def tcpCheckError : Int := 2

/-- What a callback does: its result, the messages for the dispatcher, and the commands
for the reactor. -/
structure Notified where
  result : Int
  msgs : List MsgInfo
  replies : List EpollRtn

/-- `type_notify_callback` -/
abbrev NotifyCallback := NotifyType → SocketClient → Notified

/-- `check_timeout_interval_seconds` and `invalid_socket_timeout_seconds` -/
structure Config where
  m_check_timeout_interval_seconds : Nat
  m_invalid_socket_timeout_seconds : Nat

/-- The size of `m_array_epoll_data`. -/
def epollMaxsize : Nat := 200000

structure Server where
  /-- the descriptors of the process that are in use -/
  inUse : Nat → Bool
  m_array_epoll_data : Nat → Option SocketClient
  m_map_socket_ientity : Std.TreeMap Str SocketInfo compare
  m_queue_rtn : List EpollRtn
  m_unify_id : UInt64
  m_clientcount : Int
  m_client_history_count : UInt64
  m_last_timeout_check_seconds : Nat
  /-- the queue of the dispatcher -/
  m_queue_adapter_cmd : List MsgInfo

/-- The server at the start of its loop, when `inUse` says which descriptors are taken. -/
def Server.init (inUse : Nat → Bool) (now : Nat) : Server where
  inUse
  m_array_epoll_data _ := none
  m_map_socket_ientity := ∅
  m_queue_rtn := []
  m_unify_id := 0
  m_clientcount := 0
  m_client_history_count := 0
  m_last_timeout_check_seconds := now
  m_queue_adapter_cmd := []

/-- What an observer of the server sees. -/
inductive Event
  /-- the callback has queued a message for received data -/
  | received (msg : MsgInfo)
  /-- data is sent to a descriptor, on behalf of an identity if that is not empty, while
  the slot of the descriptor holds `client` -/
  | sent (identity : Str) (fd : Nat) (client : Option SocketClient)
  /-- a `PIPE_CMD_AUTH_OK` has taken effect -/
  | authed (cmd : EpollRtn)
  /-- the dispatcher starts `process_auth` -/
  | processAuth (msg : MsgInfo)
  /-- it starts `process_getkey` -/
  | processGetkey (msg : MsgInfo)
  /-- it starts `process_offline` -/
  | processOffline (msg : MsgInfo)
  /-- it starts `process_heartbeat` -/
  | processHeartbeat (msg : MsgInfo)
  /-- it passes a message on to the application server -/
  | forwarded (data : Str)

/-! ## receiving -/

/-- What a call of `read` or `recv` returns. -/
inductive ReadResult
  | bytes (data : Str)
  | again
  | closed
  | failed
  deriving DecidableEq

/-- `body_needto_recved` before it is cut to the size of the buffer. -/
def bodyMissing (pclient : SocketClient) : Int :=
  getBodyLength .little pclient.m_data_recv (i32 pclient.m_data_recv.length) -
    (pclient.m_data_recv.length - (getHeadLength : Nat))

/-- The size of `charbody`. -/
def bodyBuffer : Nat := 4096

/-- `body_needto_recved` -/
def bodyNeedtoRecved (pclient : SocketClient) : Int := min (bodyMissing pclient) bodyBuffer

/-- `dealwith_recv` for a client that is there: the result, the client afterwards, and the
call of the callback with what it does, if it is called. -/
def dealwithRecv (callback : NotifyCallback) (pclient : SocketClient) (read : ReadResult) :
    Int × SocketClient × Option (SocketClient × Notified) :=
  if pclient.m_data_recv.length < getHeadLength then
    match read with
    | .again => (0, pclient, none)
    | .closed | .failed => (-1, pclient, none)
    -- one read for each event, so the body has to wait for the next one
    | .bytes data => (0, { pclient with m_data_recv := pclient.m_data_recv ++ data }, none)
  else if getBodyLength .little pclient.m_data_recv (i32 pclient.m_data_recv.length) = -1 then
    (-1, pclient, none)
  else
    match read with
    | .again => (0, pclient, none)
    | .closed | .failed => (-1, pclient, none)
    | .bytes data =>
        let needed := bodyNeedtoRecved pclient
        let pclient := { pclient with m_data_recv := pclient.m_data_recv ++ data }
        if data.length < needed then (0, pclient, none)
        else
          let notified := callback .dataRecv pclient
          if notified.result ≠ tcpCheckOk then (-1, pclient, some (pclient, notified))
          else (0, { pclient with m_data_recv := [] }, some (pclient, notified))

/-! ## the reactor -/

/-- `m_array_epoll_data[fd]` -/
def slotAt (s : Server) (fd : Nat) : Except Fault (Option SocketClient) :=
  if fd < epollMaxsize then .ok (s.m_array_epoll_data fd) else .error .outOfBounds

def setSlot (s : Server) (fd : Nat) (slot : Option SocketClient) : Server :=
  { s with m_array_epoll_data := update s.m_array_epoll_data fd slot }

/-- What a callback puts into the queues. -/
def notify (s : Server) (notified : Notified) : Server :=
  { s with
    m_queue_adapter_cmd := s.m_queue_adapter_cmd ++ notified.msgs
    m_queue_rtn := s.m_queue_rtn ++ notified.replies }

/-- `get_unify_tag`: the counter afterwards, and the tag. -/
def getUnifyTag (m_unify_id : UInt64) (client_fd : Nat) : UInt64 × UInt64 :=
  let m_unify_id := m_unify_id + 1
  (m_unify_id, (UInt64.ofNat client_fd <<< 32) + (m_unify_id &&& 0xFFFFFFFF))

/-- What `accept` and the calls that set up the new socket return. -/
inductive AcceptResult
  | failed
  /-- `non_blocking`, `setsockopt` or `epoll_ctl` fails: the socket stays open -/
  | setupFailed (fd : Nat)
  | accepted (fd : Nat)
  deriving DecidableEq

/-- `dealwith_new_connection`, with `new_connect_callback`. -/
def dealwithNewConnection (s : Server) (now : Nat) : AcceptResult → Except Fault Server
  | .failed => .ok s
  | .setupFailed fd => .ok { s with inUse := update s.inUse fd true }
  | .accepted fd => do
      let s := { s with inUse := update s.inUse fd true }
      let (m_unify_id, unify_tag) := getUnifyTag s.m_unify_id fd
      let _ ← slotAt s fd
      let s := setSlot s fd (some ⟨fd, unify_tag, [], false, [], now⟩)
      return { s with
        m_unify_id
        m_clientcount := s.m_clientcount + 1
        m_client_history_count := s.m_client_history_count + 1 }

section

variable (cfg : Config) (callback : NotifyCallback)

/-- `close_internal` -/
def closeInternal (s : Server) (fd : Nat) : Except Fault Server := do
  let s := { s with inUse := update s.inUse fd false, m_clientcount := s.m_clientcount - 1 }
  let pclient ← slotAt s fd
  let s := setSlot s fd none
  match pclient with
  | none => return s
  | some pclient =>
      let s := notify s (callback .close pclient)
      if pclient.m_socket_identity = [] then return s
      else return { s with
        m_map_socket_ientity := s.m_map_socket_ientity.erase pclient.m_socket_identity }

/-- `senddata_internal`, on behalf of `identity`, with what `send` returns: the number of
bytes that were sent, or an error.  Only the error closes the connection. -/
def senddataInternal (s : Server) (identity : Str) (fd : Nat) (send_result : Option Nat) :
    Except Fault (Server × List Event) := do
  let event := Event.sent identity fd (s.m_array_epoll_data fd)
  match send_result with
  | none => return (← closeInternal callback s fd, [event])
  | some _ => return (s, [event])

/-- `boadcast_internal`, with what `send` returns for the entry of each identity. -/
def boadcastInternal (s : Server) (boadcastdata : Str) (send_result : Str → Option Nat) :
    Except Fault (Server × List Event) := do
  let entries := s.m_map_socket_ientity.toList
  let vec_fd_ready2close := (entries.filter fun entry =>
    send_result entry.1 ≠ some boadcastdata.length).map fun entry => entry.2.clientfd
  let events := entries.map fun entry =>
    Event.sent entry.1 entry.2.clientfd (s.m_array_epoll_data entry.2.clientfd)
  return (← vec_fd_ready2close.foldlM (closeInternal callback) s, events)

/-- The branch of `dealwith_pipe_cmd` for `PIPE_CMD_AUTH_OK`. -/
def authOkInternal (s : Server) (cmd : EpollRtn) : Except Fault (Server × List Event) := do
  match ← slotAt s cmd.clientfd with
  | none => return (s, [])
  | some pclient =>
      if pclient.m_fd ≠ cmd.clientfd ∨ pclient.m_unify_tag ≠ cmd.fd_unify_tag then return (s, [])
      else if cmd.socket_ientity = [] then return (s, [])
      else
        let s := setSlot s cmd.clientfd (some { pclient with
          m_socket_identity := cmd.socket_ientity
          m_is_authed := true })
        let stu : SocketInfo := ⟨cmd.clientfd, cmd.fd_unify_tag⟩
        match s.m_map_socket_ientity[cmd.socket_ientity]? with
        | none =>
            return ({ s with
              m_map_socket_ientity :=
                s.m_map_socket_ientity.insertIfNew cmd.socket_ientity stu }, [.authed cmd])
        | some info =>
            if cmd.clientfd = info.clientfd then return (s, [.authed cmd])
            else
              let s ← closeInternal callback s info.clientfd
              return ({ s with
                m_map_socket_ientity :=
                  s.m_map_socket_ientity.insertIfNew cmd.socket_ientity stu }, [.authed cmd])

/-- The descriptor and the tag that a command is for. -/
def commandInfo (s : Server) (cmd : EpollRtn) : Option SocketInfo :=
  if cmd.cmd_type = .authOk ∨ cmd.socket_ientity = [] then
    some ⟨cmd.clientfd, cmd.fd_unify_tag⟩
  else s.m_map_socket_ientity[cmd.socket_ientity]?

/-- `dealwith_pipe_cmd` for a command from the queue. -/
def dealwithPipeCmd (s : Server) (cmd : EpollRtn) (now : Nat) (send_result : Str → Option Nat) :
    Except Fault (Server × List Event) :=
  match commandInfo s cmd with
  | none => .ok (s, [])
  | some info =>
      if cmd.cmd_type = .boadcast then boadcastInternal callback s cmd.str_data_send send_result
      else if epollMaxsize ≤ info.clientfd then .ok (s, [])
      else
        match s.m_array_epoll_data info.clientfd with
        | none => .ok (s, [])
        | some pclient =>
            if pclient.m_fd ≠ info.clientfd ∨ pclient.m_unify_tag ≠ info.fd_unify_tag then
              .ok (s, [])
            else
              match cmd.cmd_type with
              | .send =>
                  let s := setSlot s info.clientfd
                    (some { pclient with m_last_update_seconds := now })
                  if cmd.socket_ientity = [] then
                    senddataInternal callback s [] info.clientfd (send_result [])
                  else
                    match s.m_map_socket_ientity[cmd.socket_ientity]? with
                    | none => .ok (s, [])
                    | some info =>
                        senddataInternal callback s cmd.socket_ientity info.clientfd
                          (send_result cmd.socket_ientity)
              | .close => do
                  return (← closeInternal callback s info.clientfd, [])
              | .authOk => authOkInternal callback s cmd
              | .boadcast => .ok (s, [])

/-- What a call of the callback for received data leaves behind, if there was one. -/
def calledBack (s : Server) : Option (SocketClient × Notified) → Server × List Event
  | none => (s, [])
  | some (_, notified) => (notify s notified, notified.msgs.map .received)

/-- The part of the reactor for an event of a client. -/
def recvEvent (s : Server) (fd : Nat) (read : ReadResult) : Except Fault (Server × List Event) := do
  match ← slotAt s fd with
  | none => return (← closeInternal callback s fd, [])
  | some pclient =>
      let (result, pclient, called) := dealwithRecv callback pclient read
      let (s, events) := calledBack (setSlot s fd (some pclient)) called
      if result = -1 then return (← closeInternal callback s fd, events)
      else return (s, events)

/-- The body of the loop of `check_timeout`. -/
def checkTimeoutFd (now : Nat) (s : Server) (fd : Nat) : Except Fault Server :=
  match s.m_array_epoll_data fd with
  | none => .ok s
  | some pclient =>
      if pclient.m_last_update_seconds < now ∧
          cfg.m_invalid_socket_timeout_seconds < now - pclient.m_last_update_seconds then
        closeInternal callback s pclient.m_fd
      else .ok s

/-- `check_timeout` -/
def checkTimeout (s : Server) (now : Nat) : Except Fault Server :=
  if s.m_last_timeout_check_seconds < now ∧
      cfg.m_check_timeout_interval_seconds ≤ now - s.m_last_timeout_check_seconds then
    (List.range epollMaxsize).foldlM (checkTimeoutFd cfg callback now)
      { s with m_last_timeout_check_seconds := now }
  else .ok s

/-! ## the threads -/

/-- What `adapter_cmd_doit` does with a message. -/
def adapterCmd (msg : MsgInfo) : Event :=
  if msg.content_path = contentPathAuth then .processAuth msg
  else if msg.content_path = contentPathGetkey then .processGetkey msg
  else if msg.content_path = contentPathOffline then .processOffline msg
  else if msg.content_path = contentPathHeartbeat then .processHeartbeat msg
  else .forwarded (forwardContent msg.content msg.tokenid)

inductive Act
  /-- an event of the listening socket -/
  | accept (result : AcceptResult) (now : Nat)
  /-- an event of a client -/
  | recv (fd : Nat) (read : ReadResult)
  /-- an event of the pipe -/
  | pipeCmd (now : Nat) (send_result : Str → Option Nat)
  /-- the check at the end of a batch, or when there was none -/
  | checkTimeout (now : Nat)
  /-- a thread puts a command into `m_queue_rtn` -/
  | post (cmd : EpollRtn)
  /-- the dispatcher takes a message -/
  | dispatch
  /-- another part of the process opens or closes a descriptor -/
  | other (fd : Nat) (used : Bool)

def step (s : Server) : Act → Except Fault (Server × List Event)
  | .accept result now => do
      return (← dealwithNewConnection s now result, [])
  | .recv fd read => recvEvent callback s fd read
  | .pipeCmd now send_result =>
      match s.m_queue_rtn with
      | [] => .ok (s, [])
      | cmd :: m_queue_rtn =>
          dealwithPipeCmd callback { s with m_queue_rtn } cmd now send_result
  | .checkTimeout now => do
      return (← checkTimeout cfg callback s now, [])
  | .post cmd => .ok ({ s with m_queue_rtn := s.m_queue_rtn ++ [cmd] }, [])
  | .dispatch =>
      match s.m_queue_adapter_cmd with
      | [] => .ok (s, [])
      | msg :: m_queue_adapter_cmd =>
          .ok ({ s with m_queue_adapter_cmd }, [adapterCmd msg])
  | .other fd used => .ok ({ s with inUse := update s.inUse fd used }, [])

end

/-- `accept` returns a descriptor that is not in use, and the other parts of the process
leave the descriptors of the clients alone. -/
def Enabled (s : Server) : Act → Prop
  | .accept (.setupFailed fd) _ => s.inUse fd = false
  | .accept (.accepted fd) _ => s.inUse fd = false
  | .other fd _ => (s.m_array_epoll_data fd).isNone
  | _ => True

instance (s : Server) (act : Act) : Decidable (Enabled s act) :=
  match act with
  | .accept .failed _ => inferInstanceAs (Decidable True)
  | .accept (.setupFailed fd) _ => inferInstanceAs (Decidable (s.inUse fd = false))
  | .accept (.accepted fd) _ => inferInstanceAs (Decidable (s.inUse fd = false))
  | .recv _ _ => inferInstanceAs (Decidable True)
  | .pipeCmd _ _ => inferInstanceAs (Decidable True)
  | .checkTimeout _ => inferInstanceAs (Decidable True)
  | .post _ => inferInstanceAs (Decidable True)
  | .dispatch => inferInstanceAs (Decidable True)
  | .other fd _ => inferInstanceAs (Decidable ((s.m_array_epoll_data fd).isNone = true))

/-! ## what the operations do -/

/-- The read of `data` completes a frame, so that the callback is called. -/
def completes (c : SocketClient) (data : Str) : Prop :=
  getHeadLength ≤ c.m_data_recv.length ∧
    getBodyLength .little c.m_data_recv (i32 c.m_data_recv.length) ≠ -1 ∧
    bodyNeedtoRecved c ≤ data.length

instance (c : SocketClient) (data : Str) : Decidable (completes c data) :=
  inferInstanceAs (Decidable (_ ∧ _ ∧ _))

section

variable {cfg : Config} {callback : NotifyCallback} {s s' : Server} {fd : Nat}
  {events : List Event}

/-- What closing leaves of the slots, the map and the descriptors. -/
structure ClosedAt (fd : Nat) (s s' : Server) : Prop where
  inUse : s'.inUse = update s.inUse fd false
  slots : s'.m_array_epoll_data = update s.m_array_epoll_data fd none
  map : s'.m_map_socket_ientity =
    match s.m_array_epoll_data fd with
    | none => s.m_map_socket_ientity
    | some c =>
        if c.m_socket_identity = [] then s.m_map_socket_ientity
        else s.m_map_socket_ientity.erase c.m_socket_identity

theorem slotAt_eq_ok {slot : Option SocketClient} (h : slotAt s fd = .ok slot) :
    fd < epollMaxsize ∧ s.m_array_epoll_data fd = slot := by
  unfold slotAt at h
  split at h
  · next hlt => exact ⟨hlt, Except.ok.inj h⟩
  · cases h

theorem closeInternal_closedAt (h : closeInternal callback s fd = .ok s') : ClosedAt fd s s' := by
  obtain ⟨slot, hslot, h⟩ := bind_eq_ok.mp h
  obtain ⟨-, hslot⟩ := slotAt_eq_ok hslot
  simp only at hslot
  cases slot with
  | none =>
      cases h
      exact ⟨rfl, rfl, by simp only [hslot, setSlot]⟩
  | some c =>
      simp only at h
      split at h
      all_goals
        next hid =>
          cases h
          exact ⟨rfl, rfl, by simp only [hslot, setSlot, notify, hid, if_true, if_false]⟩

theorem closeInternal_queue (h : closeInternal callback s fd = .ok s') :
    ∀ msg ∈ s'.m_queue_adapter_cmd,
      msg ∈ s.m_queue_adapter_cmd ∨ ∃ c, msg ∈ (callback .close c).msgs := by
  obtain ⟨slot, -, h⟩ := bind_eq_ok.mp h
  intro msg hmsg
  cases slot with
  | none =>
      cases h
      exact .inl hmsg
  | some c =>
      simp only at h
      have hmem : msg ∈ s.m_queue_adapter_cmd ++ (callback .close c).msgs := by
        split at h <;>
        · cases h
          exact hmsg
      exact (List.mem_append.mp hmem).imp_right fun hclose => ⟨c, hclose⟩

/-- What `PIPE_CMD_AUTH_OK` does when it takes effect, which is for a client with the
descriptor and the tag of the command. -/
theorem authOkInternal_eq_ok {cmd : EpollRtn} {events : List Event}
    (hs : authOkInternal callback s cmd = .ok (s', events)) :
    (s' = s ∧ events = [] ∧ ∀ c, s.m_array_epoll_data cmd.clientfd = some c →
        c.m_fd = cmd.clientfd → c.m_unify_tag = cmd.fd_unify_tag → cmd.socket_ientity = []) ∨
      ∃ c, s.m_array_epoll_data cmd.clientfd = some c ∧ cmd.clientfd < epollMaxsize ∧
        c.m_fd = cmd.clientfd ∧ c.m_unify_tag = cmd.fd_unify_tag ∧ cmd.socket_ientity ≠ [] ∧
        events = [.authed cmd] ∧
        ∃ s₁, s₁ = setSlot s cmd.clientfd (some { c with
            m_socket_identity := cmd.socket_ientity
            m_is_authed := true }) ∧
          ((s.m_map_socket_ientity[cmd.socket_ientity]? = none ∧ s' = { s₁ with
              m_map_socket_ientity := s.m_map_socket_ientity.insertIfNew cmd.socket_ientity
                ⟨cmd.clientfd, cmd.fd_unify_tag⟩ }) ∨
            ∃ info, s.m_map_socket_ientity[cmd.socket_ientity]? = some info ∧
              ((cmd.clientfd = info.clientfd ∧ s' = s₁) ∨
                (cmd.clientfd ≠ info.clientfd ∧
                  ∃ s₂, closeInternal callback s₁ info.clientfd = .ok s₂ ∧
                    s' = { s₂ with
                      m_map_socket_ientity := s₂.m_map_socket_ientity.insertIfNew
                        cmd.socket_ientity ⟨cmd.clientfd, cmd.fd_unify_tag⟩ }))) := by
  obtain ⟨slot, hslot, hs⟩ := bind_eq_ok.mp hs
  obtain ⟨hlt, hslot⟩ := slotAt_eq_ok hslot
  cases slot with
  | none =>
      cases hs
      exact .inl ⟨rfl, rfl, fun c hc => by cases hslot.symm.trans hc⟩
  | some c =>
      simp only at hs
      split at hs
      · next hdiffer =>
          cases hs
          refine .inl ⟨rfl, rfl, fun c' hc' hfd htag => ?_⟩
          obtain rfl := Option.some.inj (hslot.symm.trans hc')
          exact absurd hdiffer (by simp [hfd, htag])
      · next hsame =>
          simp only [not_or, not_not] at hsame
          split at hs
          · next hempty =>
              cases hs
              exact .inl ⟨rfl, rfl, fun _ _ _ _ => hempty⟩
          · next hid =>
              refine .inr ⟨c, hslot, hlt, hsame.1, hsame.2, hid, ?_⟩
              split at hs
              · next hnone =>
                  cases hs
                  exact ⟨rfl, _, rfl, .inl ⟨hnone, rfl⟩⟩
              · next info hinfo =>
                  split at hs
                  · next hfd =>
                      cases hs
                      exact ⟨rfl, _, rfl, .inr ⟨info, hinfo, .inl ⟨hfd, rfl⟩⟩⟩
                  · next hfd =>
                      obtain ⟨s₂, hclose, hs⟩ := bind_eq_ok.mp hs
                      cases hs
                      exact ⟨rfl, _, rfl, .inr ⟨info, hinfo, .inr ⟨hfd, s₂, hclose, rfl⟩⟩⟩

/-- What a command does: nothing, or what its type says for the client that it is for. -/
theorem dealwithPipeCmd_eq_ok {cmd : EpollRtn} {now : Nat} {send_result : Str → Option Nat}
    (hs : dealwithPipeCmd callback s cmd now send_result = .ok (s', events)) :
    (s' = s ∧ events = []) ∨
      (cmd.cmd_type = .boadcast ∧
        boadcastInternal callback s cmd.str_data_send send_result = .ok (s', events)) ∨
      (∃ fd c s₁, cmd.cmd_type = .send ∧ s.m_array_epoll_data fd = some c ∧
        s₁ = setSlot s fd (some { c with m_last_update_seconds := now }) ∧
        ((s' = s₁ ∧ events = []) ∨
          (cmd.socket_ientity = [] ∧
            senddataInternal callback s₁ [] fd (send_result []) = .ok (s', events)) ∨
          ∃ info, s₁.m_map_socket_ientity[cmd.socket_ientity]? = some info ∧
            senddataInternal callback s₁ cmd.socket_ientity info.clientfd
              (send_result cmd.socket_ientity) = .ok (s', events))) ∨
      (∃ fd, closeInternal callback s fd = .ok s' ∧ events = []) ∨
      (cmd.cmd_type = .authOk ∧ authOkInternal callback s cmd = .ok (s', events)) := by
  unfold dealwithPipeCmd at hs
  split at hs
  · cases hs
    exact .inl ⟨rfl, rfl⟩
  · next info hinfo =>
      split at hs
      · next htype => exact .inr (.inl ⟨htype, hs⟩)
      · split at hs
        · cases hs
          exact .inl ⟨rfl, rfl⟩
        · split at hs
          · cases hs
            exact .inl ⟨rfl, rfl⟩
          · next c hc =>
              split at hs
              · cases hs
                exact .inl ⟨rfl, rfl⟩
              · split at hs
                · -- PIPE_CMD_SEND
                  next htype =>
                  refine .inr (.inr (.inl ⟨info.clientfd, c, _, htype, hc, rfl, ?_⟩))
                  simp only at hs
                  split at hs
                  · next hid => exact .inr (.inl ⟨hid, hs⟩)
                  · split at hs
                    · cases hs
                      exact .inl ⟨rfl, rfl⟩
                    · next info' hinfo' => exact .inr (.inr ⟨info', hinfo', hs⟩)
                · -- PIPE_CMD_CLOSE
                  obtain ⟨s₁, hclose, hs⟩ := bind_eq_ok.mp hs
                  cases hs
                  exact .inr (.inr (.inr (.inl ⟨info.clientfd, hclose, rfl⟩)))
                · next htype => exact .inr (.inr (.inr (.inr ⟨htype, hs⟩)))
                · cases hs
                  exact .inl ⟨rfl, rfl⟩

/-- **Time-outs** keep what closing keeps. -/
theorem checkTimeout_invariant {P : Server → Prop} {now : Nat}
    (hclose : ∀ s fd s', P s → closeInternal callback s fd = .ok s' → P s')
    (hchecked : P { s with m_last_timeout_check_seconds := now }) (h : P s)
    (hs : checkTimeout cfg callback s now = .ok s') : P s' := by
  unfold checkTimeout at hs
  split at hs
  · refine foldlM_invariant (fun s₁ fd s₂ hI hstep => ?_) hchecked hs
    unfold checkTimeoutFd at hstep
    split at hstep
    · cases hstep
      exact hI
    · split at hstep
      · exact hclose _ _ _ hI hstep
      · cases hstep
        exact hI
  · cases hs
    exact h

/-- `dealwith_recv` changes no more of a client than its buffer. -/
theorem dealwithRecv_client (callback : NotifyCallback) (c : SocketClient) (read : ReadResult) :
    ∃ buffer, (dealwithRecv callback c read).2.1 = { c with m_data_recv := buffer } := by
  unfold dealwithRecv
  split
  · cases read <;> exact ⟨_, rfl⟩
  · split
    · exact ⟨_, rfl⟩
    · cases read with
      | bytes data =>
          simp only
          split
          · exact ⟨_, rfl⟩
          · split <;> exact ⟨_, rfl⟩
      | _ => exact ⟨_, rfl⟩

/-- What an event of a client does. -/
theorem recvEvent_eq_ok {read : ReadResult} {events : List Event}
    (hs : recvEvent callback s fd read = .ok (s', events)) :
    fd < epollMaxsize ∧
      ((s.m_array_epoll_data fd = none ∧ closeInternal callback s fd = .ok s' ∧ events = []) ∨
        ∃ c s₁, s.m_array_epoll_data fd = some c ∧
          (s₁, events) = calledBack (setSlot s fd (some (dealwithRecv callback c read).2.1))
            (dealwithRecv callback c read).2.2 ∧
          ((dealwithRecv callback c read).1 = -1 ∧ closeInternal callback s₁ fd = .ok s' ∨
            (dealwithRecv callback c read).1 ≠ -1 ∧ s' = s₁)) := by
  obtain ⟨slot, hslot, hs⟩ := bind_eq_ok.mp hs
  obtain ⟨hlt, hslot⟩ := slotAt_eq_ok hslot
  refine ⟨hlt, ?_⟩
  cases slot with
  | none =>
      obtain ⟨s₁, hclose, hs⟩ := bind_eq_ok.mp hs
      cases hs
      exact .inl ⟨hslot, hclose, rfl⟩
  | some c =>
      simp only at hs
      split at hs
      · next hresult =>
          obtain ⟨s₁, hclose, hs⟩ := bind_eq_ok.mp hs
          cases hs
          exact .inr ⟨c, _, hslot, rfl, .inl ⟨hresult, hclose⟩⟩
      · next hresult =>
          cases hs
          exact .inr ⟨c, _, hslot, rfl, .inr ⟨hresult, rfl⟩⟩

/-- When `dealwith_recv` calls the callback. -/
theorem dealwithRecv_called {c c' : SocketClient} {read : ReadResult} {notified : Notified}
    (h : (dealwithRecv callback c read).2.2 = some (c', notified)) :
    ∃ data, read = .bytes data ∧ completes c data ∧
      c' = { c with m_data_recv := c.m_data_recv ++ data } ∧ notified = callback .dataRecv c' := by
  unfold dealwithRecv at h
  split at h
  · cases read <;> cases h
  · next hhead =>
      split at h
      · cases h
      · next hlength =>
          cases read with
          | bytes data =>
              simp only at h
              split at h
              · cases h
              · next hneeded =>
                  have hcomplete : completes c data :=
                    ⟨Nat.not_lt.mp hhead, hlength, Int.not_lt.mp hneeded⟩
                  split at h <;>
                  · cases h
                    exact ⟨data, rfl, hcomplete, rfl, rfl⟩
          | _ => cases h

/-- What `dealwith_recv` does when the callback accepts a frame. -/
theorem dealwithRecv_accepted {c : SocketClient} {data : Str} (h : completes c data)
    (hok : (callback .dataRecv { c with m_data_recv := c.m_data_recv ++ data }).result =
      tcpCheckOk) :
    dealwithRecv callback c (.bytes data) =
      (0, { c with m_data_recv := [] }, some ({ c with m_data_recv := c.m_data_recv ++ data },
        callback .dataRecv { c with m_data_recv := c.m_data_recv ++ data })) := by
  rw [dealwithRecv, if_neg (Nat.not_lt.mpr h.1), if_neg h.2.1]
  simp only [if_neg (Int.not_lt.mpr h.2.2), hok, ne_eq, not_true_eq_false, if_false]

/-- The messages for a frame that is accepted are queued. -/
theorem recvEvent_accepted {c : SocketClient} {data : Str}
    (hc : s.m_array_epoll_data fd = some c) (h : completes c data)
    (hok : (callback .dataRecv { c with m_data_recv := c.m_data_recv ++ data }).result =
      tcpCheckOk)
    (hs : recvEvent callback s fd (.bytes data) = .ok (s', events)) :
    ∀ msg ∈ (callback .dataRecv { c with m_data_recv := c.m_data_recv ++ data }).msgs,
      msg ∈ s'.m_queue_adapter_cmd ∧ Event.received msg ∈ events := by
  obtain ⟨-, ⟨hnone, -⟩ | ⟨c', s₁, hc', hcalled, hdone⟩⟩ := recvEvent_eq_ok hs
  · cases hc.symm.trans hnone
  obtain rfl := Option.some.inj (hc.symm.trans hc')
  rw [dealwithRecv_accepted h hok] at hcalled hdone
  obtain ⟨rfl, rfl⟩ := Prod.mk.inj hcalled
  rcases hdone with ⟨hfailed, -⟩ | ⟨-, rfl⟩
  · cases hfailed
  intro msg hmsg
  exact ⟨List.mem_append_right _ hmsg, List.mem_map_of_mem hmsg⟩

end

end NotifyAdapter
end MySrc
