import MySrc.NotifyAdapter.IdentityMap

/-!
# MySrc.NotifyAdapter.Authentication

What a client can get into the queue of the dispatcher, and when.

A connection is authenticated by a `PIPE_CMD_AUTH_OK` for its descriptor and its
tag, which a task of the dispatcher has posted; descriptors are used again, tags
are compared.  So a message that only an authenticated connection may send comes
from a connection that such a command was for, and carries the identity that it
has (`unauthed_confined`).

The signature of an `AUTH` message is checked on connections that are not yet
authenticated only.  `processAuth_verified` says that this is the one way for a
message with a wrong signature to reach `process_auth`.
-/

namespace MySrc
namespace NotifyAdapter

open Lib ProtocolCodec
open Function (update update_of_ne update_self)

/-! ## what a step can do -/

/-- Two states of one connection, between which only its buffer and its time differ. -/
structure SameClient (c c' : SocketClient) : Prop where
  fd : c'.m_fd = c.m_fd
  tag : c'.m_unify_tag = c.m_unify_tag
  authed : c'.m_is_authed = c.m_is_authed
  identity : c'.m_socket_identity = c.m_socket_identity

theorem SameClient.refl (c : SocketClient) : SameClient c c := ⟨rfl, rfl, rfl, rfl⟩

theorem SameClient.trans {c c₁ c₂ : SocketClient} (h : SameClient c c₁) (h' : SameClient c₁ c₂) :
    SameClient c c₂ :=
  ⟨h'.fd.trans h.fd, h'.tag.trans h.tag, h'.authed.trans h.authed, h'.identity.trans h.identity⟩

/-- A `PIPE_CMD_AUTH_OK` with the identity of a client was processed for its descriptor and
its tag. -/
def AuthedBy (events : List Event) (c : SocketClient) : Prop :=
  ∃ cmd, Event.authed cmd ∈ events ∧ cmd.cmd_type = .authOk ∧ cmd.clientfd = c.m_fd ∧
    cmd.fd_unify_tag = c.m_unify_tag ∧ cmd.socket_ientity = c.m_socket_identity ∧
    cmd.socket_ientity ≠ []

/-- A client stays authenticated when more events are seen. -/
theorem AuthedBy.mono {events events' : List Event} {c : SocketClient} (h : AuthedBy events c)
    (hsub : events ⊆ events') : AuthedBy events' c := by
  obtain ⟨cmd, hmem, hrest⟩ := h
  exact ⟨cmd, hsub hmem, hrest⟩

/-- The same client is authenticated by the same command. -/
theorem AuthedBy.same {events : List Event} {c c' : SocketClient} (h : AuthedBy events c)
    (hsame : SameClient c c') : AuthedBy events c' := by
  obtain ⟨cmd, hmem, htype, hfd, htag, hid, hne⟩ := h
  exact ⟨cmd, hmem, htype, hfd.trans hsame.fd.symm, htag.trans hsame.tag.symm,
    hid.trans hsame.identity.symm, hne⟩

/-- Where the clients and the queued messages of `s'` come from, when `events` were seen on
the way from `s`. -/
structure Follows (callback : NotifyCallback) (events : List Event) (s s' : Server) : Prop where
  slots : ∀ fd c', s'.m_array_epoll_data fd = some c' →
    (∃ c, s.m_array_epoll_data fd = some c ∧ SameClient c c') ∨
      (c'.m_fd = fd ∧ (c'.m_is_authed = true → AuthedBy events c'))
  queue : ∀ msg ∈ s'.m_queue_adapter_cmd, msg ∈ s.m_queue_adapter_cmd ∨
    (∃ c, msg ∈ (callback .close c).msgs) ∨ Event.received msg ∈ events

/-- The events of a command. -/
def Event.ofCommand : Event → Bool
  | .sent _ _ _ => true
  | .authed _ => true
  | _ => false

section

variable {cfg : Config} {callback : NotifyCallback} {s s' s'' : Server} {fd : Nat}
  {events : List Event}

theorem Follows.of_eq (hslots : s'.m_array_epoll_data = s.m_array_epoll_data)
    (hqueue : s'.m_queue_adapter_cmd = s.m_queue_adapter_cmd) : Follows callback events s s' where
  slots fd c hc := .inl ⟨c, by rwa [hslots] at hc, .refl c⟩
  queue msg hmsg := .inl (by rwa [hqueue] at hmsg)

theorem Follows.trans (h : Follows callback events s s') (h' : Follows callback events s' s'') :
    Follows callback events s s'' where
  slots := by
    intro fd c₂ hc₂
    rcases h'.slots fd c₂ hc₂ with ⟨c₁, hc₁, hsame⟩ | hnew
    · rcases h.slots fd c₁ hc₁ with ⟨c, hc, hsame'⟩ | ⟨hfd, hauthed⟩
      · exact .inl ⟨c, hc, hsame'.trans hsame⟩
      · refine .inr ⟨hsame.fd.trans hfd, fun htrue => ?_⟩
        exact (hauthed (hsame.authed.symm.trans htrue)).same hsame
    · exact .inr hnew
  queue := by
    intro msg hmsg
    rcases h'.queue msg hmsg with hmsg | hmsg
    · exact h.queue msg hmsg
    · exact .inr hmsg

/-- Setting a slot that holds the same connection, a new one, or one that was authenticated
just now. -/
theorem Follows.setSlot {c' : SocketClient}
    (h : (∃ c, s.m_array_epoll_data fd = some c ∧ SameClient c c') ∨
      (c'.m_fd = fd ∧ (c'.m_is_authed = true → AuthedBy events c'))) :
    Follows callback events s (setSlot s fd (some c')) where
  slots := by
    intro fd₁ c₁ hc₁
    by_cases hne : fd₁ = fd
    · subst hne
      simp only [NotifyAdapter.setSlot, update_self] at hc₁
      obtain rfl := Option.some.inj hc₁
      exact h
    · simp only [NotifyAdapter.setSlot, update_of_ne hne] at hc₁
      exact .inl ⟨c₁, hc₁, .refl c₁⟩
  queue msg hmsg := .inl hmsg

/-- **Closing** takes a connection away. -/
theorem Follows.close (h : closeInternal callback s fd = .ok s') :
    Follows callback events s s' where
  slots := by
    intro fd' c hc
    rw [(closeInternal_closedAt h).slots] at hc
    by_cases hne : fd' = fd
    · subst hne
      simp at hc
    · rw [update_of_ne hne] at hc
      exact .inl ⟨c, hc, .refl c⟩
  queue msg hmsg := (closeInternal_queue h msg hmsg).imp_right .inl

/-- Where clients and messages come from after a send, which shows events of a command only. -/
theorem Follows.senddata {id : Str} {send_result : Option Nat}
    (hs : senddataInternal callback s id fd send_result = .ok (s', events)) :
    Follows callback events s s' ∧ ∀ event ∈ events, event.ofCommand = true := by
  cases send_result with
  | none =>
      obtain ⟨s₁, hclose, hs⟩ := bind_eq_ok.mp hs
      cases hs
      exact ⟨.close hclose, by simp [Event.ofCommand]⟩
  | some n =>
      cases hs
      exact ⟨.of_eq rfl rfl, by simp [Event.ofCommand]⟩

/-- Where they come from after a broadcast. -/
theorem Follows.boadcast {data : Str} {send_result : Str → Option Nat}
    (hs : boadcastInternal callback s data send_result = .ok (s', events)) :
    Follows callback events s s' ∧ ∀ event ∈ events, event.ofCommand = true := by
  obtain ⟨s₁, hclose, hs⟩ := bind_eq_ok.mp hs
  cases hs
  refine ⟨?_, ?_⟩
  · exact foldlM_invariant (fun _ _ _ hI hstep => hI.trans (.close hstep)) (.of_eq rfl rfl) hclose
  · intro event hevent
    obtain ⟨entry, -, rfl⟩ := List.mem_map.mp hevent
    rfl

/-- **Authentication** needs a client with the descriptor and the tag of the command. -/
theorem Follows.authOk {cmd : EpollRtn} (htype : cmd.cmd_type = .authOk)
    (hs : authOkInternal callback s cmd = .ok (s', events)) :
    Follows callback events s s' ∧ ∀ event ∈ events, event.ofCommand = true := by
  rcases authOkInternal_eq_ok hs with ⟨rfl, rfl, -⟩ | ⟨c, hc, -, hfd, htag, hid, rfl, s₁, rfl, hs⟩
  · exact ⟨.of_eq rfl rfl, by simp⟩
  refine ⟨?_, by simp [Event.ofCommand]⟩
  have hset : Follows callback [.authed cmd] s (NotifyAdapter.setSlot s cmd.clientfd (some { c with
      m_socket_identity := cmd.socket_ientity
      m_is_authed := true })) := by
    refine .setSlot (.inr ⟨hfd, fun _ => ?_⟩)
    exact ⟨cmd, List.mem_singleton_self _, htype, hfd.symm, htag.symm, rfl, hid⟩
  rcases hs with ⟨-, rfl⟩ | ⟨info, -, ⟨-, rfl⟩ | ⟨-, s₂, hclose, rfl⟩⟩
  · exact hset.trans (.of_eq rfl rfl)
  · exact hset
  · exact (hset.trans (.close hclose)).trans (.of_eq rfl rfl)

/-- Where they come from after any command. -/
theorem Follows.pipeCmd {cmd : EpollRtn} {now : Nat} {send_result : Str → Option Nat}
    (hs : dealwithPipeCmd callback s cmd now send_result = .ok (s', events)) :
    Follows callback events s s' ∧ ∀ event ∈ events, event.ofCommand = true := by
  rcases dealwithPipeCmd_eq_ok hs with ⟨rfl, rfl⟩ | ⟨-, hboadcast⟩ |
    ⟨fd, c, s₁, -, hc, rfl, hsend⟩ | ⟨fd, hclose, rfl⟩ | ⟨htype, hauth⟩
  · exact ⟨.of_eq rfl rfl, by simp⟩
  · exact Follows.boadcast hboadcast
  · have hnow : Follows callback events s
        (NotifyAdapter.setSlot s fd (some { c with m_last_update_seconds := now })) :=
      .setSlot (.inl ⟨c, hc, rfl, rfl, rfl, rfl⟩)
    rcases hsend with ⟨rfl, rfl⟩ | ⟨-, hsend⟩ | ⟨info, -, hsend⟩
    · exact ⟨hnow, by simp⟩
    · obtain ⟨hfollows, hevents⟩ := Follows.senddata hsend
      exact ⟨hnow.trans hfollows, hevents⟩
    · obtain ⟨hfollows, hevents⟩ := Follows.senddata hsend
      exact ⟨hnow.trans hfollows, hevents⟩
  · exact ⟨.close hclose, by simp⟩
  · exact Follows.authOk htype hauth

/-- Where they come from after bytes were read: a message is that of the connection that they
complete. -/
theorem Follows.recv {read : ReadResult} (hs : recvEvent callback s fd read = .ok (s', events)) :
    Follows callback events s s' ∧ ∀ event ∈ events, ∃ data c msg, event = .received msg ∧
      read = .bytes data ∧ s.m_array_epoll_data fd = some c ∧ completes c data ∧
      msg ∈ (callback .dataRecv { c with m_data_recv := c.m_data_recv ++ data }).msgs := by
  obtain ⟨-, ⟨-, hclose, rfl⟩ | ⟨c, s₁, hc, hcalled, hs⟩⟩ := recvEvent_eq_ok hs
  · exact ⟨.close hclose, by simp⟩
  obtain ⟨buffer, hbuffer⟩ := dealwithRecv_client callback c read
  have hchange : Follows callback events s
      (NotifyAdapter.setSlot s fd (some (dealwithRecv callback c read).2.1)) := by
    rw [hbuffer]
    exact .setSlot (.inl ⟨c, hc, rfl, rfl, rfl, rfl⟩)
  suffices hcall : Follows callback events s s₁ ∧ ∀ event ∈ events, ∃ data c msg,
      event = .received msg ∧ read = .bytes data ∧ s.m_array_epoll_data fd = some c ∧
      completes c data ∧
      msg ∈ (callback .dataRecv { c with m_data_recv := c.m_data_recv ++ data }).msgs by
    rcases hs with ⟨-, hclose⟩ | ⟨-, rfl⟩
    · exact ⟨hcall.1.trans (.close hclose), hcall.2⟩
    · exact hcall
  unfold calledBack at hcalled
  split at hcalled
  · obtain ⟨rfl, rfl⟩ := Prod.mk.inj hcalled
    exact ⟨hchange, by simp⟩
  · next c' notified hcall =>
      obtain ⟨rfl, rfl⟩ := Prod.mk.inj hcalled
      obtain ⟨data, rfl, hcomplete, rfl, rfl⟩ := dealwithRecv_called hcall
      refine ⟨hchange.trans ⟨fun fd c hc => .inl ⟨c, hc, .refl c⟩, ?_⟩, ?_⟩
      · intro msg hmsg
        refine (List.mem_append.mp hmsg).imp_right fun hnew => .inr ?_
        exact List.mem_map_of_mem hnew
      · intro event hevent
        obtain ⟨msg, hmsg, rfl⟩ := List.mem_map.mp hevent
        exact ⟨data, c, msg, rfl, rfl, hc, hcomplete, hmsg⟩

/-- A new connection is not authenticated. -/
theorem Follows.accept {result : AcceptResult} {now : Nat}
    (hs : dealwithNewConnection s now result = .ok s') : Follows callback events s s' := by
  cases result with
  | failed =>
      cases hs
      exact .of_eq rfl rfl
  | setupFailed fd =>
      cases hs
      exact .of_eq rfl rfl
  | accepted fd =>
      obtain ⟨slot, -, hs⟩ := bind_eq_ok.mp hs
      cases hs
      have hused : Follows callback events s { s with inUse := update s.inUse fd true } :=
        .of_eq rfl rfl
      refine (hused.trans (.setSlot (.inr ⟨?_, ?_⟩))).trans (.of_eq rfl rfl)
      · rfl
      · nofun

theorem adapterCmd_ne_received (msg msg' : MsgInfo) : adapterCmd msg ≠ .received msg' := by
  unfold adapterCmd
  split_ifs <;> nofun

/-- Only a message with the path of an authentication is processed as one. -/
theorem adapterCmd_eq_processAuth {msg msg' : MsgInfo} (h : adapterCmd msg = .processAuth msg') :
    msg' = msg ∧ msg.content_path = contentPathAuth := by
  unfold adapterCmd at h
  split_ifs at h with hauth
  cases h
  exact ⟨rfl, hauth⟩

/-- What a step can do: where clients, queued messages and the events of the two threads
come from. -/
structure StepSpec (callback : NotifyCallback) (s : Server) (act : Act) (s' : Server)
    (events : List Event) : Prop where
  follows : Follows callback events s s'
  received : ∀ msg, Event.received msg ∈ events → ∃ fd data c, act = .recv fd (.bytes data) ∧
    s.m_array_epoll_data fd = some c ∧ completes c data ∧
    msg ∈ (callback .dataRecv { c with m_data_recv := c.m_data_recv ++ data }).msgs
  processAuth : ∀ msg, Event.processAuth msg ∈ events →
    msg ∈ s.m_queue_adapter_cmd ∧ msg.content_path = contentPathAuth

/-- **Step**: every step does no more than that. -/
theorem step_spec {act : Act} (hs : step cfg callback s act = .ok (s', events)) :
    StepSpec callback s act s' events := by
  cases act with
  | accept result now =>
      obtain ⟨s₁, haccept, hs⟩ := bind_eq_ok.mp hs
      cases hs
      exact ⟨.accept haccept, by simp, by simp⟩
  | recv fd read =>
      obtain ⟨hfollows, hevents⟩ := Follows.recv hs
      refine ⟨hfollows, fun msg hmsg => ?_, fun msg hmsg => ?_⟩
      · obtain ⟨data, c, msg', heq, rfl, hrest⟩ := hevents _ hmsg
        cases heq
        exact ⟨fd, data, c, rfl, hrest⟩
      · obtain ⟨data, c, msg', heq, -⟩ := hevents _ hmsg
        cases heq
  | pipeCmd now send_result =>
      unfold NotifyAdapter.step at hs
      simp only at hs
      split at hs
      · cases hs
        exact ⟨.of_eq rfl rfl, by simp, by simp⟩
      · next cmd rest hqueue =>
          have htaken : Follows callback events s { s with m_queue_rtn := rest } := .of_eq rfl rfl
          obtain ⟨hfollows, hevents⟩ := Follows.pipeCmd hs
          refine ⟨htaken.trans hfollows, fun msg hmsg => ?_, fun msg hmsg => ?_⟩
          · cases hevents _ hmsg
          · cases hevents _ hmsg
  | checkTimeout now =>
      obtain ⟨s₁, hcheck, hs⟩ := bind_eq_ok.mp hs
      cases hs
      have hchecked : Follows callback [] s { s with m_last_timeout_check_seconds := now } :=
        .of_eq rfl rfl
      refine ⟨?_, by simp, by simp⟩
      exact checkTimeout_invariant (fun _ _ _ hI hclose => hI.trans (.close hclose)) hchecked
        (.of_eq rfl rfl) hcheck
  | post cmd =>
      cases hs
      exact ⟨.of_eq rfl rfl, by simp, by simp⟩
  | dispatch =>
      unfold NotifyAdapter.step at hs
      simp only at hs
      split at hs
      · cases hs
        exact ⟨.of_eq rfl rfl, by simp, by simp⟩
      · next msg rest hqueue =>
          cases hs
          refine ⟨⟨fun fd c hc => .inl ⟨c, hc, .refl c⟩, fun msg' hmsg' => .inl ?_⟩, ?_, ?_⟩
          · rw [hqueue]
            exact List.mem_cons_of_mem msg hmsg'
          · intro msg' hmsg'
            exact absurd (List.mem_singleton.mp hmsg').symm (adapterCmd_ne_received msg msg')
          · intro msg' hmsg'
            obtain ⟨rfl, hauth⟩ := adapterCmd_eq_processAuth (List.mem_singleton.mp hmsg').symm
            exact ⟨by rw [hqueue]; exact List.mem_cons_self .., hauth⟩
  | other fd used =>
      cases hs
      exact ⟨.of_eq rfl rfl, by simp, by simp⟩

end

/-! ## the callback of the adapter -/

/-- The message that is queued for a content. -/
def messageOf (c : SocketClient) (content : Str) : MsgInfo :=
  ⟨c.m_fd, c.m_unify_tag, c.m_socket_identity, getContentPath (decodeContent content), content⟩

section

variable (get_md5 : Str → Str) (m_verify_key : Str)

/-- The part of `data_notify_callback` after `get_body`. -/
def bodyNotified (c : SocketClient) (body : Int × Str) : Notified :=
  if body.1 = -1 then ⟨tcpCheckError, [], []⟩
  else if c.m_is_authed = false ∧
      unauthedAllowed get_md5 m_verify_key (decodeContent body.2) = false then
    ⟨tcpCheckError, [], []⟩
  else if getContentPath (decodeContent body.2) = contentPathHeartbeat then
    ⟨tcpCheckOk, [{ messageOf c body.2 with content_path := contentPathHeartbeat }],
      [heartbeatReply c]⟩
  else ⟨tcpCheckOk, [messageOf c body.2], []⟩

/-- Received bytes are handed to the decoder of messages. -/
theorem dataNotifyCallback_dataRecv (c : SocketClient) :
    dataNotifyCallback get_md5 m_verify_key .dataRecv c =
      bodyNotified get_md5 m_verify_key c
        (getBody .little c.m_data_recv (i32 c.m_data_recv.length) []) := rfl

end

section

variable {get_md5 : Str → Str} {m_verify_key : Str} {c : SocketClient} {msg : MsgInfo}

/-- A message is accepted when its sender may send it, and refused otherwise. -/
theorem bodyNotified_eq (result : Int) (content : Str) :
    bodyNotified get_md5 m_verify_key c (result, content) =
      if result ≠ -1 ∧ (c.m_is_authed = true ∨
          unauthedAllowed get_md5 m_verify_key (decodeContent content) = true) then
        ⟨tcpCheckOk, [messageOf c content],
          if (messageOf c content).content_path = contentPathHeartbeat then [heartbeatReply c]
          else []⟩
      else ⟨tcpCheckError, [], []⟩ := by
  unfold bodyNotified
  simp only [messageOf]
  split_ifs with hresult hno hpath
  all_goals simp_all

/-- What is queued for a frame. -/
theorem mem_dataNotifyCallback_dataRecv
    (h : msg ∈ (dataNotifyCallback get_md5 m_verify_key .dataRecv c).msgs) :
    ∃ result content, getBody .little c.m_data_recv (i32 c.m_data_recv.length) [] =
        (result, content) ∧ result ≠ -1 ∧ msg = messageOf c content ∧
      (c.m_is_authed = true ∨
        unauthedAllowed get_md5 m_verify_key (decodeContent content) = true) := by
  rw [dataNotifyCallback_dataRecv] at h
  generalize getBody .little c.m_data_recv (i32 c.m_data_recv.length) [] = body at h
  obtain ⟨result, content⟩ := body
  refine ⟨result, content, rfl, ?_⟩
  rw [bodyNotified_eq] at h
  split at h
  · next hok => exact ⟨hok.1, List.mem_singleton.mp h, hok.2⟩
  · cases h

/-- What is queued when a connection is closed is no request. -/
theorem mem_dataNotifyCallback_close
    (h : msg ∈ (dataNotifyCallback get_md5 m_verify_key .close c).msgs) :
    msg.content_path = contentPathOffline := by
  rw [dataNotifyCallback] at h
  split at h
  · cases h
  · obtain rfl := List.mem_singleton.mp h
    rfl

end

/-! ## confinement -/

/-- A client that is authenticated was authenticated by a command. -/
def AuthInv (history : List Event) (s : Server) : Prop :=
  ∀ fd c, s.m_array_epoll_data fd = some c →
    c.m_fd = fd ∧ (c.m_is_authed = true → AuthedBy history c)

section

variable {cfg : Config} {callback : NotifyCallback} {s s' : Server}

/-- A step keeps the invariant, with its events behind the history. -/
theorem AuthInv.step {history events : List Event} (h : AuthInv history s)
    (hfollows : Follows callback events s s') : AuthInv (history ++ events) s' := by
  intro fd c' hc'
  rcases hfollows.slots fd c' hc' with ⟨c, hc, hsame⟩ | ⟨hfd, hauthed⟩
  · obtain ⟨hfd, hauthed⟩ := h fd c hc
    refine ⟨hsame.fd.trans hfd, fun htrue => ?_⟩
    have hold := (hauthed (hsame.authed.symm.trans htrue)).same hsame
    exact hold.mono (List.subset_append_left history events)
  · exact ⟨hfd, fun htrue => (hauthed htrue).mono (List.subset_append_right history events)⟩

/-- **Run**: so it is in every state reached, whatever the callback does. -/
theorem AuthInv.run {ok : Server → Act → Prop} {inUse : Nat → Bool} {now : Nat}
    {t : List (Act × List Event)}
    (h : Run (NotifyAdapter.step cfg callback) ok (Server.init inUse now) t s) :
    AuthInv (t.flatMap (·.2)) s := by
  refine h.invariant (I := fun t s => AuthInv (t.flatMap (·.2)) s) ?_ ?_
  · intro fd c hc
    simp [Server.init] at hc
  · intro t s act s' events hI _ hs
    rw [List.flatMap_append, List.flatMap_singleton]
    exact hI.step (step_spec hs).follows

end

section

variable {cfg : Config} {get_md5 : Str → Str} {m_verify_key : Str} {s s' : Server}
  {inUse : Nat → Bool} {now : Nat} {t : List (Act × List Event)} {act : Act} {events : List Event}

/-- **Confinement**: a message that is queued for received data, and is not one of the two
that anyone may send, comes from a connection that a `PIPE_CMD_AUTH_OK` with an identity was
processed for, and carries the identity of that connection. -/
theorem unauthed_confined
    (hrun : Run (step cfg (dataNotifyCallback get_md5 m_verify_key)) Enabled
      (Server.init inUse now) t s)
    (hs : step cfg (dataNotifyCallback get_md5 m_verify_key) s act = .ok (s', events))
    {msg : MsgInfo} (hmsg : Event.received msg ∈ events)
    (hauth : msg.content_path ≠ contentPathAuth) (hkey : msg.content_path ≠ contentPathGetkey) :
    ∃ c cmd, s.m_array_epoll_data msg.fd = some c ∧ c.m_unify_tag = msg.tag ∧
      c.m_socket_identity = msg.tokenid ∧ Event.authed cmd ∈ t.flatMap (·.2) ∧
      cmd.cmd_type = .authOk ∧ cmd.clientfd = msg.fd ∧ cmd.fd_unify_tag = msg.tag ∧
      cmd.socket_ientity = msg.tokenid ∧ cmd.socket_ientity ≠ [] := by
  obtain ⟨fd, data, c, -, hc, -, hqueued⟩ := (step_spec hs).received msg hmsg
  obtain ⟨result, content, -, -, rfl, hallowed⟩ := mem_dataNotifyCallback_dataRecv hqueued
  have hauthed : c.m_is_authed = true := by
    rcases hallowed with hauthed | hallowed
    · exact hauthed
    · -- the path is neither of the two that are allowed
      simp only [messageOf] at hauth hkey
      simp [unauthedAllowed, hauth, hkey] at hallowed
  obtain ⟨hfd, hby⟩ := AuthInv.run hrun fd c hc
  obtain ⟨cmd, hcmd, htype, hcfd, htag, hid, hne⟩ := hby hauthed
  refine ⟨c, cmd, ?_, rfl, rfl, hcmd, htype, hcfd, htag, hid, hne⟩
  rw [messageOf, hfd]
  exact hc

end

/-- The two events that deliver a content: the head of its frame, and its body. -/
def delivers (fd : Nat) (content : Str) : List Act :=
  [.recv fd (.bytes ((encodeBuffer .little 0 content []).2.take 4)),
    .recv fd (.bytes ((encodeBuffer .little 0 content []).2.drop 4))]

/-- The content `path=/x`. -/
def plainContent : Str := pathName ++ ascii ['=', '/', 'x']

/-- The messages that were queued for received data. -/
def receivedMsgs (events : List Event) : List MsgInfo :=
  events.filterMap fun
    | .received msg => some msg
    | _ => none

theorem mem_receivedMsgs {events : List Event} {msg : MsgInfo} :
    msg ∈ receivedMsgs events ↔ Event.received msg ∈ events := by
  rw [receivedMsgs, List.mem_filterMap]
  constructor
  · rintro ⟨event, hmem, heq⟩
    cases event <;> cases heq
    exact hmem
  · intro hmem
    exact ⟨_, hmem, rfl⟩

/-- A connection is authenticated as `u1` and sends `path=/x`. -/
theorem unauthed_confined_plain :
    ∃ t s s' events cmd, Run (step ⟨100, 100⟩ (dataNotifyCallback id [])) Enabled
        (Server.init (fun _ => false) 0) t s ∧
      step ⟨100, 100⟩ (dataNotifyCallback id []) s (.recv 7 (.bytes plainContent)) =
        .ok (s', events) ∧
      receivedMsgs events =
        [⟨7, 0x700000001, ascii ['u', '1'], ascii ['/', 'x'], plainContent⟩] ∧
      Event.authed cmd ∈ t.flatMap (·.2) ∧ cmd.fd_unify_tag = 0x700000001 ∧
      cmd.socket_ientity = ascii ['u', '1'] := by
  have hreplay : (replay (step ⟨100, 100⟩ (dataNotifyCallback id [])) Enabled
      (Server.init (fun _ => false) 0)
      ([.accept (.accepted 7) 0, .post (authOkCmd 7 0x700000001 (ascii ['u', '1'])),
        .pipeCmd 0 fun _ => none] ++ (delivers 7 plainContent).take 1)).map (fun r =>
          (step ⟨100, 100⟩ (dataNotifyCallback id []) r.2
            (.recv 7 (.bytes plainContent))).toOption.map fun q => receivedMsgs q.2) =
      some (some [⟨7, 0x700000001, ascii ['u', '1'], ascii ['/', 'x'], plainContent⟩]) := by
    decide +kernel
  obtain ⟨⟨t, s⟩, hs, hlast⟩ := Option.map_eq_some_iff.mp hreplay
  obtain ⟨⟨s', events⟩, hstep, hmsgs⟩ := Option.map_eq_some_iff.mp hlast
  have hrun := Run.nil.replay hs
  have hstep := eq_ok_of_toOption hstep
  have hmem := mem_receivedMsgs.mp (hmsgs ▸ List.mem_singleton_self _)
  obtain ⟨c, cmd, -, -, -, hcmd, -, -, htag, hid, -⟩ :=
    unauthed_confined hrun hstep hmem (by decide) (by decide)
  exact ⟨t, s, s', events, cmd, hrun, hstep, hmsgs, hcmd, htag, hid⟩

section

variable {cfg : Config} {get_md5 : Str → Str} {m_verify_key : Str} {s s' : Server}
  {inUse : Nat → Bool} {now : Nat} {t : List (Act × List Event)} {act : Act} {events : List Event}

/-! ## signatures -/

/-- An `AUTH` message that `content_auth_verify` refuses. -/
def forgedAuth (get_md5 : Str → Str) (m_verify_key : Str) (body : Int × Str) : Bool :=
  body.1 ≠ -1 && getContentPath (decodeContent body.2) = contentPathAuth &&
    contentAuthVerify get_md5 m_verify_key (decodeContent body.2) = -1

/-- A connection that is authenticated completes an `AUTH` message that
`content_auth_verify` refuses. -/
def forgesAgain (get_md5 : Str → Str) (m_verify_key : Str) (s : Server) : Act → Bool
  | .recv fd (.bytes data) =>
      match s.m_array_epoll_data fd with
      | none => false
      | some c =>
          c.m_is_authed && decide (completes c data) &&
            forgedAuth get_md5 m_verify_key (getBody .little (c.m_data_recv ++ data)
              (i32 (c.m_data_recv ++ data).length) [])
  | _ => false

/-- The queued `AUTH` messages have a valid signature. -/
def Verified (get_md5 : Str → Str) (m_verify_key : Str) (s : Server) : Prop :=
  ∀ msg ∈ s.m_queue_adapter_cmd, msg.content_path = contentPathAuth →
    contentAuthVerify get_md5 m_verify_key (decodeContent msg.content) = 0

theorem contentAuthVerify_cases (m_content_map : StrMap) :
    contentAuthVerify get_md5 m_verify_key m_content_map = 0 ∨
      contentAuthVerify get_md5 m_verify_key m_content_map = -1 := by
  unfold contentAuthVerify
  simp only
  split_ifs
  · exact .inr rfl
  · exact .inr rfl
  · exact .inl rfl

/-- **Step**: what is queued stays verified, unless an authenticated connection sends an
`AUTH` message with a wrong signature. -/
theorem Verified.step (h : Verified get_md5 m_verify_key s)
    (hforges : forgesAgain get_md5 m_verify_key s act = false)
    (hs : step cfg (dataNotifyCallback get_md5 m_verify_key) s act = .ok (s', events)) :
    Verified get_md5 m_verify_key s' := by
  have hspec := step_spec hs
  intro msg hmsg hpath
  rcases hspec.follows.queue msg hmsg with hold | ⟨c, hclose⟩ | hnew
  · exact h msg hold hpath
  · have hoffline := mem_dataNotifyCallback_close hclose
    exact absurd (hpath.symm.trans hoffline) (by decide)
  · obtain ⟨fd, data, c, rfl, hc, hcomplete, hqueued⟩ := hspec.received msg hnew
    obtain ⟨result, content, hbody, hresult, rfl, hallowed⟩ :=
      mem_dataNotifyCallback_dataRecv hqueued
    simp only [messageOf] at hpath ⊢
    refine (contentAuthVerify_cases _).resolve_right fun hrefused => ?_
    rcases hallowed with hauthed | hallowed
    · simp only [forgesAgain, hc] at hforges
      simp only at hbody hauthed
      rw [hbody] at hforges
      simp [hauthed, hcomplete, forgedAuth, hresult, hpath, hrefused] at hforges
    · simp [unauthedAllowed, hpath, hrefused] at hallowed

/-- The dispatcher gets to every message that is queued. -/
theorem dispatched {callback : NotifyCallback} {msg : MsgInfo} {s₀ : Server}
    (hrun : Run (NotifyAdapter.step cfg callback) Enabled s₀ t s)
    (hmsg : msg ∈ s.m_queue_adapter_cmd) :
    ∃ t' s', Run (NotifyAdapter.step cfg callback) Enabled s₀ (t ++ t') s' ∧
      adapterCmd msg ∈ t'.flatMap (·.2) := by
  induction hqueue : s.m_queue_adapter_cmd generalizing s t with
  | nil => simp [hqueue] at hmsg
  | cons first rest ih =>
      have hs : NotifyAdapter.step cfg callback s .dispatch =
          .ok ({ s with m_queue_adapter_cmd := rest }, [adapterCmd first]) := by
        simp only [NotifyAdapter.step, hqueue]
      have henabled : Enabled s .dispatch := trivial
      have hnext := hrun.snoc henabled hs
      rw [hqueue] at hmsg
      rcases List.mem_cons.mp hmsg with rfl | hrest
      · exact ⟨_, _, hnext, by simp⟩
      · obtain ⟨t', s', hrun', hmem⟩ := ih hnext hrest rfl
        rw [List.append_assoc] at hrun'
        exact ⟨_, s', hrun', by simp [hmem]⟩

/-- Such a message is queued without a check. -/
theorem forged_queued (hforges : forgesAgain get_md5 m_verify_key s act = true)
    (hs : step cfg (dataNotifyCallback get_md5 m_verify_key) s act = .ok (s', events)) :
    ∃ msg ∈ s'.m_queue_adapter_cmd, Event.received msg ∈ events ∧
      msg.content_path = contentPathAuth ∧
      contentAuthVerify get_md5 m_verify_key (decodeContent msg.content) = -1 := by
  unfold forgesAgain at hforges
  split at hforges
  · next fd data =>
      split at hforges
      · cases hforges
      · next c hc =>
          simp only [Bool.and_eq_true, decide_eq_true_eq] at hforges
          obtain ⟨⟨hauthed, hcomplete⟩, hforged⟩ := hforges
          have hcallback := dataNotifyCallback_dataRecv get_md5 m_verify_key
            { c with m_data_recv := c.m_data_recv ++ data }
          simp only at hcallback
          generalize getBody .little (c.m_data_recv ++ data)
            (i32 (c.m_data_recv ++ data).length) [] = body at hforged hcallback
          obtain ⟨result, content⟩ := body
          simp only [forgedAuth, Bool.and_eq_true, decide_eq_true_eq] at hforged
          obtain ⟨⟨hresult, hpath⟩, hrefused⟩ := hforged
          rw [bodyNotified_eq, if_pos ⟨hresult, .inl hauthed⟩] at hcallback
          have hqueued := recvEvent_accepted hc hcomplete (by rw [hcallback]) hs
          rw [hcallback] at hqueued
          have hmsg := hqueued _ (List.mem_singleton_self _)
          exact ⟨_, hmsg.1, hmsg.2, hpath, hrefused⟩
  · cases hforges

/-- **Signatures**: in every run in which no connection that is authenticated already sends
an `AUTH` message with a wrong signature, every message that reaches `process_auth` has
passed `content_auth_verify`; and if one sends such a message, it is queued without a check
and reaches `process_auth` when its turn comes. -/
theorem processAuth_verified
    (hrun : Run (step cfg (dataNotifyCallback get_md5 m_verify_key))
      (fun s act => Enabled s act ∧ forgesAgain get_md5 m_verify_key s act = false)
      (Server.init inUse now) t s) :
    (∀ msg, Event.processAuth msg ∈ t.flatMap (·.2) →
      contentAuthVerify get_md5 m_verify_key (decodeContent msg.content) = 0 ∧
      getVaule signName (decodeContent msg.content) =
        get_md5 (getVaule gameinternalnoName (decodeContent msg.content) ++
          getVaule keyName (decodeContent msg.content) ++ m_verify_key)) ∧
    ∀ act s' events, forgesAgain get_md5 m_verify_key s act = true →
      step cfg (dataNotifyCallback get_md5 m_verify_key) s act = .ok (s', events) →
      ∃ msg t' s'', Run (step cfg (dataNotifyCallback get_md5 m_verify_key)) Enabled s' t' s'' ∧
        Event.processAuth msg ∈ t'.flatMap (·.2) ∧
        contentAuthVerify get_md5 m_verify_key (decodeContent msg.content) = -1 := by
  constructor
  · have hinv : Verified get_md5 m_verify_key s ∧ ∀ msg, Event.processAuth msg ∈ t.flatMap (·.2) →
        contentAuthVerify get_md5 m_verify_key (decodeContent msg.content) = 0 := by
      refine hrun.invariant (I := fun t s => Verified get_md5 m_verify_key s ∧
        ∀ msg, Event.processAuth msg ∈ t.flatMap (·.2) →
          contentAuthVerify get_md5 m_verify_key (decodeContent msg.content) = 0) ?_ ?_
      · exact ⟨by simp [Verified, Server.init], by simp⟩
      · intro t s act s' events hI hok hs
        refine ⟨hI.1.step hok.2 hs, fun msg hmsg => ?_⟩
        rw [List.flatMap_append, List.flatMap_singleton] at hmsg
        rcases List.mem_append.mp hmsg with hold | hnew
        · exact hI.2 msg hold
        · obtain ⟨hqueued, hpath⟩ := (step_spec hs).processAuth msg hnew
          exact hI.1 msg hqueued hpath
    intro msg hmsg
    have hverified := hinv.2 msg hmsg
    exact ⟨hverified, (contentAuthVerify_eq_zero_iff.mp hverified).2.2⟩
  · intro act s' events hforges hs
    obtain ⟨msg, hqueued, -, hpath, hrefused⟩ := forged_queued hforges hs
    obtain ⟨t', s'', hrun', hmem⟩ := dispatched .nil hqueued
    rw [adapterCmd, if_pos hpath] at hmem
    exact ⟨msg, t', s'', hrun', hmem, hrefused⟩

end

/-- The content of an `AUTH` message with the key `k` and a signature. -/
def authContent (sign : Str) : Str :=
  pathName ++ [61] ++ contentPathAuth ++ [38] ++ keyName ++ ascii ['=', 'k', '&'] ++ signName ++
    [61] ++ sign

/-- What `content_auth_verify` says about the messages that have reached `process_auth`. -/
def authResults (get_md5 : Str → Str) (m_verify_key : Str) (events : List Event) : List Int :=
  events.filterMap fun
    | .processAuth msg =>
        some (contentAuthVerify get_md5 m_verify_key (decodeContent msg.content))
    | _ => none

theorem mem_authResults {get_md5 : Str → Str} {m_verify_key : Str} {events : List Event}
    {result : Int} : result ∈ authResults get_md5 m_verify_key events ↔
      ∃ msg, Event.processAuth msg ∈ events ∧
        contentAuthVerify get_md5 m_verify_key (decodeContent msg.content) = result := by
  rw [authResults, List.mem_filterMap]
  constructor
  · rintro ⟨event, hmem, heq⟩
    cases event <;> cases heq
    exact ⟨_, hmem, rfl⟩
  · rintro ⟨msg, hmem, rfl⟩
    exact ⟨_, hmem, rfl⟩

/-- A hash whose value is `m` for every text. -/
def md5m : Str → Str := fun _ => ascii ['m']

/-- A connection authenticates with the signature `m`, which is right. -/
theorem processAuth_verified_first :
    ∃ t s, Run (step ⟨100, 100⟩ (dataNotifyCallback md5m []))
        (fun s act => Enabled s act ∧ forgesAgain md5m [] s act = false)
        (Server.init (fun _ => false) 0) t s ∧
      ∃ msg, Event.processAuth msg ∈ t.flatMap (·.2) ∧
        getVaule signName (decodeContent msg.content) =
          md5m (getVaule gameinternalnoName (decodeContent msg.content) ++
            getVaule keyName (decodeContent msg.content) ++ []) := by
  have hreplay : (replay (step ⟨100, 100⟩ (dataNotifyCallback md5m []))
      (fun s act => Enabled s act ∧ forgesAgain md5m [] s act = false)
      (Server.init (fun _ => false) 0)
      ([.accept (.accepted 7) 0] ++ delivers 7 (authContent (ascii ['m'])) ++ [.dispatch])).map
        (fun r => authResults md5m [] (r.1.flatMap (·.2))) = some [0] := by
    decide +kernel
  obtain ⟨⟨t, s⟩, hs, hresults⟩ := Option.map_eq_some_iff.mp hreplay
  have hrun := Run.nil.replay hs
  obtain ⟨msg, hmsg, -⟩ := mem_authResults.mp (hresults ▸ List.mem_singleton_self _)
  exact ⟨t, s, hrun, msg, hmsg, ((processAuth_verified hrun).1 msg hmsg).2⟩

/-- A connection that is authenticated as `u1` sends an `AUTH` message with the signature
`x`, which is wrong: it reaches `process_auth` all the same. -/
theorem processAuth_forged :
    ∃ t s, Run (step ⟨100, 100⟩ (dataNotifyCallback md5m [])) Enabled
        (Server.init (fun _ => false) 0) t s ∧
      ∃ msg, Event.processAuth msg ∈ t.flatMap (·.2) ∧
        contentAuthVerify md5m [] (decodeContent msg.content) = -1 := by
  have hreplay : (replay (step ⟨100, 100⟩ (dataNotifyCallback md5m [])) Enabled
      (Server.init (fun _ => false) 0)
      ([.accept (.accepted 7) 0] ++ delivers 7 (authContent (ascii ['m'])) ++
        [.dispatch, .post (authOkCmd 7 0x700000001 (ascii ['u', '1'])), .pipeCmd 0 fun _ => none] ++
        delivers 7 (authContent (ascii ['x'])) ++ [.dispatch])).map
        (fun r => authResults md5m [] (r.1.flatMap (·.2))) = some [0, -1] := by
    decide +kernel
  obtain ⟨⟨t, s⟩, hs, hresults⟩ := Option.map_eq_some_iff.mp hreplay
  have hmem : (-1 : Int) ∈ authResults md5m [] (t.flatMap (·.2)) := by
    rw [hresults]
    decide
  exact ⟨t, s, Run.nil.replay hs, mem_authResults.mp hmem⟩

end NotifyAdapter
end MySrc
