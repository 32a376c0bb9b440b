import MySrc.NotifyAdapter.Authentication

/-!
# MySrc.NotifyAdapter.SendStream

What the clients of `notify_adapter_v2/src/main/tcpserver.cpp` see: the bytes that
were put on each connection, through `senddata_internal` and `boadcast_internal`.

`send` takes any number of the bytes it is asked to send.  `stream_framed` says that
the bytes on a connection are whole frames, with a part of one behind them only
where the connection is closed, as long as no `send` of `senddata_internal` takes
a part of its data and no `boadcast` goes on with a descriptor after that.
-/

namespace MySrc
namespace NotifyAdapter

open Lib ProtocolCodec
open Function (update update_of_ne update_self)

/-! ## frames -/

/-- What `encode_buffer` makes of a content. -/
def frame (content : Str) : Str := (encodeBuffer .little 0 content []).2

/-- A concatenation of complete frames. -/
def Whole (bytes : Str) : Prop := ∃ contents : List Str, bytes = contents.flatMap frame

/-- Complete frames, with the first part of one behind them. -/
def Framed (bytes : Str) : Prop :=
  ∃ sent content part, Whole sent ∧ part <+: frame content ∧ bytes = sent ++ part

theorem Whole.nil : Whole [] := ⟨[], rfl⟩

theorem whole_frame (content : Str) : Whole (frame content) := ⟨[content], by simp⟩

theorem Whole.append {bytes bytes' : Str} (h : Whole bytes) (h' : Whole bytes') :
    Whole (bytes ++ bytes') := by
  obtain ⟨contents, rfl⟩ := h
  obtain ⟨contents', rfl⟩ := h'
  exact ⟨contents ++ contents', List.flatMap_append.symm⟩

/-- A part of a frame behind whole frames. -/
theorem Whole.append_framed {bytes bytes' : Str} (h : Whole bytes) (h' : Framed bytes') :
    Framed (bytes ++ bytes') := by
  obtain ⟨sent, content, part, hsent, hpart, rfl⟩ := h'
  exact ⟨bytes ++ sent, content, part, h.append hsent, hpart, (List.append_assoc ..).symm⟩

theorem framed_part {content part : Str} (h : part <+: frame content) : Framed part :=
  ⟨[], content, part, .nil, h, rfl⟩

theorem Whole.framed {bytes : Str} (h : Whole bytes) : Framed bytes := by
  have hframed := h.append_framed (framed_part (List.nil_prefix : [] <+: frame []))
  rwa [List.append_nil] at hframed

/-! ### the pieces of one frame -/

/-- A number of bytes is some of the data, but not all. -/
def cuts (data : Str) (n : Nat) : Prop := 0 < n ∧ n < data.length

instance (data : Str) (n : Nat) : Decidable (cuts data n) := inferInstanceAs (Decidable (_ ∧ _))

/-- A send that does not cut a frame puts all of it on the connection, or nothing. -/
theorem whole_take {content : Str} {n : Nat} (h : ¬ cuts (frame content) n) :
    Whole ((frame content).take n) := by
  by_cases hn : n = 0
  · rw [hn, List.take_zero]
    exact .nil
  · rw [List.take_of_length_le (by unfold cuts at h; omega)]
    exact whole_frame content

/-- A frame that is sent again and again, but not after it was cut. -/
theorem framed_pieces {content : Str} {ns : List Nat}
    (h : ns.Pairwise fun n m => cuts (frame content) n → m = 0) :
    Framed (ns.flatMap fun n => (frame content).take n) := by
  induction ns with
  | nil => exact Whole.nil.framed
  | cons n ns ih =>
      obtain ⟨hfirst, hrest⟩ := List.pairwise_cons.mp h
      rw [List.flatMap_cons]
      by_cases hcut : cuts (frame content) n
      · have hnothing : (ns.flatMap fun n => (frame content).take n) = [] := by
          rw [List.flatMap_eq_nil_iff]
          intro m hm
          rw [hfirst m hm hcut, List.take_zero]
        rw [hnothing, List.append_nil]
        exact framed_part (List.take_prefix n _)
      · exact (whole_take hcut).append_framed (ih hrest)

/-- Sends that do not cut a frame leave whole frames behind. -/
theorem whole_pieces {content : Str} {ns : List Nat} (h : ∀ n ∈ ns, ¬ cuts (frame content) n) :
    Whole (ns.flatMap fun n => (frame content).take n) := by
  induction ns with
  | nil => exact .nil
  | cons n ns ih =>
      rw [List.flatMap_cons]
      exact (whole_take (h n List.mem_cons_self)).append
        (ih fun m hm => h m (List.mem_cons_of_mem n hm))

/-! ## the connections -/

/-- The server with the bytes that were put on the connection of each descriptor. -/
structure Wire where
  server : Server
  stream : Nat → Str

def Wire.init (inUse : Nat → Bool) (now : Nat) : Wire := ⟨Server.init inUse now, fun _ => []⟩

/-- The bytes that `send` puts on the connection of `fd`. -/
def bytesTo (fd : Nat) (data : Str) (send_result : Str → Option Nat) : Event → Str
  | .sent identity fd' (some _) =>
      if fd' = fd then data.take ((send_result identity).getD 0) else []
  | _ => []

/-- What a step puts on the connections: a new one has nothing on it yet. -/
def put (s : Server) (act : Act) (events : List Event) (stream : Nat → Str) : Nat → Str :=
  match act, s.m_queue_rtn with
  | .pipeCmd _ send_result, cmd :: _ => fun fd =>
      stream fd ++ events.flatMap (bytesTo fd cmd.str_data_send send_result)
  | .accept (.accepted fd) _, _ => update stream fd []
  | _, _ => stream

/-- `step`, with the bytes. -/
def wireStep (cfg : Config) (callback : NotifyCallback) (w : Wire) (act : Act) :
    Except Fault (Wire × List Event) := do
  let (s', events) ← step cfg callback w.server act
  return (⟨s', put w.server act events w.stream⟩, events)

/-- A command that sends something sends a frame, as all the callers of `send_data`,
`send_data_ientity` and `boadcast` do. -/
def Encoded (cmd : EpollRtn) : Prop :=
  cmd.cmd_type = .send ∨ cmd.cmd_type = .boadcast → ∃ content, cmd.str_data_send = frame content

/-- The commands that the threads put into the queue send frames. -/
def PostsFrames : Act → Prop
  | .post cmd => Encoded cmd
  | _ => True

/-- `send` takes all of the data of a `PIPE_CMD_SEND`, or nothing; and a `PIPE_CMD_BOADCAST` puts
nothing more on a connection after a part of the data. -/
def NotCutCmd (s : Server) (send_result : Str → Option Nat) : Option EpollRtn → Prop
  | none => True
  | some cmd =>
      (cmd.cmd_type = .send →
        ¬ cuts cmd.str_data_send ((send_result cmd.socket_ientity).getD 0)) ∧
      (cmd.cmd_type = .boadcast →
        s.m_map_socket_ientity.toList.Pairwise fun a b => a.2.clientfd = b.2.clientfd →
          (s.m_array_epoll_data a.2.clientfd).isSome →
          cuts cmd.str_data_send ((send_result a.1).getD 0) → (send_result b.1).getD 0 = 0)

/-- The command that a step takes from the queue is not cut. -/
def NotCut (s : Server) : Act → Prop
  | .pipeCmd _ send_result => NotCutCmd s send_result s.m_queue_rtn.head?
  | _ => True

/-! ## what a step can do -/

/-- No connection is new, and the commands that are new send frames. -/
structure Quiet (s s' : Server) : Prop where
  slots : ∀ fd, s.m_array_epoll_data fd = none → s'.m_array_epoll_data fd = none
  queue : ∀ cmd ∈ s'.m_queue_rtn, cmd ∈ s.m_queue_rtn ∨ Encoded cmd

section

variable {cfg : Config} {callback : NotifyCallback} {s s' s'' : Server} {fd : Nat}
  {events : List Event}

theorem Quiet.of_eq (hslots : s'.m_array_epoll_data = s.m_array_epoll_data)
    (hqueue : s'.m_queue_rtn = s.m_queue_rtn) : Quiet s s' where
  slots fd hfd := by rwa [hslots]
  queue cmd hcmd := .inl (by rwa [hqueue] at hcmd)

theorem Quiet.trans (h : Quiet s s') (h' : Quiet s' s'') : Quiet s s'' where
  slots fd hfd := h'.slots fd (h.slots fd hfd)
  queue := by
    intro cmd hcmd
    rcases h'.queue cmd hcmd with hcmd | hcmd
    · exact h.queue cmd hcmd
    · exact .inr hcmd

theorem Quiet.setSlot {c : SocketClient} (hc : s.m_array_epoll_data fd = some c)
    (slot : Option SocketClient) : Quiet s (setSlot s fd slot) where
  slots := by
    intro fd' hfd'
    have hne : fd' ≠ fd := by
      rintro rfl
      cases hc.symm.trans hfd'
    simp only [NotifyAdapter.setSlot, update_of_ne hne, hfd']
  queue cmd hcmd := .inl hcmd

/-- Replies that are frames may be queued. -/
theorem Quiet.notify {notified : Notified} (h : ∀ cmd ∈ notified.replies, Encoded cmd) :
    Quiet s (notify s notified) where
  slots _ hfd := hfd
  queue cmd hcmd := (List.mem_append.mp hcmd).imp_right (h cmd)

variable (hcallback : ∀ type c, ∀ cmd ∈ (callback type c).replies, Encoded cmd)

include hcallback

theorem Quiet.close (h : closeInternal callback s fd = .ok s') : Quiet s s' where
  slots := by
    intro fd' hfd'
    rw [(closeInternal_closedAt h).slots]
    by_cases hne : fd' = fd
    · rw [hne, update_self]
    · rw [update_of_ne hne, hfd']
  queue := by
    obtain ⟨slot, -, h⟩ := bind_eq_ok.mp h
    intro cmd hcmd
    cases slot with
    | none =>
        cases h
        exact .inl hcmd
    | some c =>
        simp only at h
        have hmem : cmd ∈ s.m_queue_rtn ++ (callback .close c).replies := by
          split at h <;>
          · cases h
            exact hcmd
        exact (List.mem_append.mp hmem).imp_right (hcallback _ _ cmd)

/-- Sending opens no connection, and what it queues are frames. -/
theorem Quiet.senddata {id : Str} {send_result : Option Nat}
    (hs : senddataInternal callback s id fd send_result = .ok (s', events)) : Quiet s s' := by
  cases send_result with
  | none =>
      obtain ⟨s₁, hclose, hs⟩ := bind_eq_ok.mp hs
      cases hs
      exact .close hcallback hclose
  | some n =>
      cases hs
      exact .of_eq rfl rfl

theorem Quiet.closeAll {fds : List Nat} (h : fds.foldlM (closeInternal callback) s = .ok s') :
    Quiet s s' :=
  foldlM_invariant (fun _ _ _ hI hstep => hI.trans (.close hcallback hstep)) (.of_eq rfl rfl) h

/-- An authentication opens no connection, and what it queues are frames. -/
theorem Quiet.authOk {cmd : EpollRtn} (hs : authOkInternal callback s cmd = .ok (s', events)) :
    Quiet s s' := by
  rcases authOkInternal_eq_ok hs with ⟨rfl, rfl, -⟩ | ⟨c, hc, -, -, -, -, rfl, s₁, rfl, hs⟩
  · exact .of_eq rfl rfl
  have hset : Quiet s (NotifyAdapter.setSlot s cmd.clientfd (some { c with
      m_socket_identity := cmd.socket_ientity
      m_is_authed := true })) := .setSlot hc _
  rcases hs with ⟨-, rfl⟩ | ⟨info, -, ⟨-, rfl⟩ | ⟨-, s₂, hclose, rfl⟩⟩
  · exact hset.trans (.of_eq rfl rfl)
  · exact hset
  · exact (hset.trans (.close hcallback hclose)).trans (.of_eq rfl rfl)

/-- Receiving opens no connection, and what it queues are frames. -/
theorem Quiet.recv {read : ReadResult} (hs : recvEvent callback s fd read = .ok (s', events)) :
    Quiet s s' := by
  obtain ⟨-, ⟨-, hclose, rfl⟩ | ⟨c, s₁, hc, hcalled, hs⟩⟩ := recvEvent_eq_ok hs
  · exact .close hcallback hclose
  have hset : Quiet s (NotifyAdapter.setSlot s fd (some (dealwithRecv callback c read).2.1)) :=
    .setSlot hc _
  have hcall : Quiet s s₁ := by
    unfold calledBack at hcalled
    split at hcalled
    · obtain ⟨rfl, rfl⟩ := Prod.mk.inj hcalled
      exact hset
    · next c' notified hcall =>
        obtain ⟨rfl, rfl⟩ := Prod.mk.inj hcalled
        obtain ⟨data, -, -, -, rfl⟩ := dealwithRecv_called hcall
        exact hset.trans (.notify (hcallback _ _))
  rcases hs with ⟨-, hclose⟩ | ⟨-, rfl⟩
  · exact hcall.trans (.close hcallback hclose)
  · exact hcall

/-- The time-outs open no connection, and what they queue are frames. -/
theorem Quiet.checkTimeout {now : Nat} (hs : checkTimeout cfg callback s now = .ok s') :
    Quiet s s' := by
  have hchecked : Quiet s { s with m_last_timeout_check_seconds := now } := .of_eq rfl rfl
  exact checkTimeout_invariant (fun _ _ _ hI hclose => hI.trans (.close hcallback hclose)) hchecked
    (.of_eq rfl rfl) hs

end

/-! ## what is put on the connections -/

/-- The connections that are there have whole frames on them. -/
structure StreamInv (w : Wire) : Prop where
  queue : ∀ cmd ∈ w.server.m_queue_rtn, Encoded cmd
  whole : ∀ fd, (w.server.m_array_epoll_data fd).isSome → Whole (w.stream fd)
  framed : ∀ fd, Framed (w.stream fd)

section

variable {callback : NotifyCallback} {s s' : Server} {stream : Nat → Str} {events : List Event}

/-- A step that puts nothing on the connections. -/
theorem StreamInv.quiet (h : StreamInv ⟨s, stream⟩) (hquiet : Quiet s s') :
    StreamInv ⟨s', stream⟩ where
  queue cmd hcmd := (hquiet.queue cmd hcmd).elim (h.queue cmd) id
  whole := by
    intro fd hfd
    refine h.whole fd ?_
    by_contra hnone
    rw [Option.not_isSome_iff_eq_none] at hnone
    rw [hquiet.slots fd hnone] at hfd
    cases hfd
  framed := h.framed

/-- A step that puts bytes on connections that were there before: frames where the connection
stays, and a part of one only where it goes. -/
theorem StreamInv.put {bytes : Nat → Str} (h : StreamInv ⟨s, stream⟩) (hquiet : Quiet s s')
    (hnone : ∀ fd, s.m_array_epoll_data fd = none → bytes fd = [])
    (hwhole : ∀ fd, (s'.m_array_epoll_data fd).isSome → Whole (bytes fd))
    (hframed : ∀ fd, Framed (bytes fd)) :
    StreamInv ⟨s', fun fd => stream fd ++ bytes fd⟩ where
  queue := (h.quiet hquiet).queue
  whole fd hfd := ((h.quiet hquiet).whole fd hfd).append (hwhole fd hfd)
  framed := by
    intro fd
    cases hslot : s.m_array_epoll_data fd with
    | none =>
        simp only [hnone fd hslot, List.append_nil]
        exact h.framed fd
    | some c =>
        have hwhole : Whole (stream fd) := h.whole fd (by simp [hslot])
        exact hwhole.append_framed (hframed fd)

variable (hcallback : ∀ type c, ∀ cmd ∈ (callback type c).replies, Encoded cmd)

include hcallback

/-- **Sending** a whole frame, or nothing. -/
theorem StreamInv.senddata {content id : Str} {fd : Nat} {send_result : Str → Option Nat}
    (h : StreamInv ⟨s, stream⟩) (hcut : ¬ cuts (frame content) ((send_result id).getD 0))
    (hs : senddataInternal callback s id fd (send_result id) = .ok (s', events)) :
    StreamInv ⟨s', fun fd => stream fd ++
      events.flatMap (bytesTo fd (frame content) send_result)⟩ := by
  have hevents : events = [.sent id fd (s.m_array_epoll_data fd)] := by
    cases hresult : send_result id with
    | none =>
        rw [hresult] at hs
        obtain ⟨s₁, -, hs⟩ := bind_eq_ok.mp hs
        cases hs
        rfl
    | some n =>
        rw [hresult] at hs
        cases hs
        rfl
  have hbytes : ∀ fd', Whole (events.flatMap (bytesTo fd' (frame content) send_result)) := by
    intro fd'
    rw [hevents, List.flatMap_singleton]
    unfold bytesTo
    split
    · next heq =>
        obtain ⟨rfl, rfl, -⟩ := Event.sent.inj heq
        split
        · exact whole_take hcut
        · exact .nil
    · exact .nil
  refine h.put (.senddata hcallback hs) (fun fd' hnone => ?_) (fun fd' _ => hbytes fd')
    (fun fd' => (hbytes fd').framed)
  rw [hevents, List.flatMap_singleton]
  unfold bytesTo
  split
  · next identity fd'' c heq =>
      have hne : fd'' ≠ fd' := by
        rintro rfl
        obtain ⟨-, rfl, hslot⟩ := Event.sent.inj heq
        cases hnone.symm.trans hslot
      exact if_neg hne
  · rfl

omit hcallback in
/-- Closing takes the connections of all the descriptors away. -/
theorem closeAll_slots {fds : List Nat} (h : fds.foldlM (closeInternal callback) s = .ok s')
    (fd : Nat) : s'.m_array_epoll_data fd = if fd ∈ fds then none else s.m_array_epoll_data fd := by
  induction fds generalizing s with
  | nil =>
      cases h
      simp
  | cons fd₀ fds ih =>
      rw [List.foldlM_cons] at h
      obtain ⟨s₁, hclose, h⟩ := bind_eq_ok.mp h
      rw [ih h, (closeInternal_closedAt hclose).slots]
      by_cases hmem : fd ∈ fds
      · simp [hmem]
      · by_cases hfd : fd = fd₀
        · simp [hfd]
        · rw [if_neg hmem, update_of_ne hfd, if_neg (by simp [hmem, hfd])]

omit hcallback in
/-- The bytes of a broadcast for one descriptor are pieces of the data. -/
theorem boadcast_bytes (s : Server) (data : Str) (send_result : Str → Option Nat)
    (entries : List (Str × SocketInfo)) (fd : Nat) :
    (entries.map fun entry => Event.sent entry.1 entry.2.clientfd
        (s.m_array_epoll_data entry.2.clientfd)).flatMap (bytesTo fd data send_result) =
      if (s.m_array_epoll_data fd).isSome then
        ((entries.map fun entry =>
          if entry.2.clientfd = fd then (send_result entry.1).getD 0 else 0).flatMap fun n =>
            data.take n)
      else [] := by
  induction entries with
  | nil => simp
  | cons entry entries ih =>
      rw [List.map_cons, List.flatMap_cons, ih]
      by_cases hfd : entry.2.clientfd = fd
      · cases hslot : s.m_array_epoll_data fd with
        | none => simp [bytesTo, hfd, hslot]
        | some c => simp [bytesTo, hfd, hslot]
      · have hnothing : bytesTo fd data send_result (.sent entry.1 entry.2.clientfd
            (s.m_array_epoll_data entry.2.clientfd)) = [] := by
          unfold bytesTo
          split
          · next heq =>
              obtain ⟨-, rfl, -⟩ := Event.sent.inj heq
              exact if_neg hfd
          · rfl
        rw [hnothing, List.map_cons, if_neg hfd, List.flatMap_cons, List.take_zero]
        rfl

/-- **Broadcasting**: a descriptor that does not take the whole frame is closed afterwards. -/
theorem StreamInv.boadcast {content : Str} {send_result : Str → Option Nat}
    (h : StreamInv ⟨s, stream⟩)
    (hcut : s.m_map_socket_ientity.toList.Pairwise fun a b => a.2.clientfd = b.2.clientfd →
      (s.m_array_epoll_data a.2.clientfd).isSome →
      cuts (frame content) ((send_result a.1).getD 0) → (send_result b.1).getD 0 = 0)
    (hs : boadcastInternal callback s (frame content) send_result = .ok (s', events)) :
    StreamInv ⟨s', fun fd => stream fd ++
      events.flatMap (bytesTo fd (frame content) send_result)⟩ := by
  obtain ⟨s₁, hclose, hs⟩ := bind_eq_ok.mp hs
  cases hs
  simp only [boadcast_bytes]
  refine h.put (.closeAll hcallback hclose) (fun fd hnone => ?_) (fun fd hfd => ?_) (fun fd => ?_)
  · rw [hnone]
    rfl
  · -- the connection stays, so every `send` to it has taken all of the frame
    rw [closeAll_slots hclose] at hfd
    split at hfd
    · cases hfd
    · next hopen =>
        rw [if_pos hfd]
        refine whole_pieces fun n hn => ?_
        obtain ⟨entry, hentry, rfl⟩ := List.mem_map.mp hn
        split
        · next hfd' =>
            have hall : send_result entry.1 = some (frame content).length := by
              by_contra hpart
              refine hopen (List.mem_map.mpr ⟨entry, List.mem_filter.mpr ⟨hentry, ?_⟩, hfd'⟩)
              simpa using hpart
            rw [hall]
            exact fun hcut => absurd hcut.2 (Nat.lt_irrefl _)
        · exact fun hcut => absurd hcut.1 (Nat.lt_irrefl _)
  · split
    · next hfd =>
        refine framed_pieces (List.pairwise_map.mpr (hcut.imp ?_))
        intro a b hab
        by_cases ha : a.2.clientfd = fd
        · by_cases hb : b.2.clientfd = fd
          · rw [if_pos ha, if_pos hb]
            exact hab (ha.trans hb.symm) (by rwa [ha])
          · rw [if_neg hb]
            exact fun _ => rfl
        · rw [if_neg ha]
          exact fun hcut => absurd hcut.1 (Nat.lt_irrefl _)
    · exact Whole.nil.framed

/-- A command for which nothing is cut. -/
theorem StreamInv.pipeCmd {cmd : EpollRtn} {now : Nat} {send_result : Str → Option Nat}
    (h : StreamInv ⟨s, stream⟩) (hencoded : Encoded cmd)
    (hsend : cmd.cmd_type = .send →
      ¬ cuts cmd.str_data_send ((send_result cmd.socket_ientity).getD 0))
    (hboadcast : cmd.cmd_type = .boadcast →
      s.m_map_socket_ientity.toList.Pairwise fun a b => a.2.clientfd = b.2.clientfd →
        (s.m_array_epoll_data a.2.clientfd).isSome →
        cuts cmd.str_data_send ((send_result a.1).getD 0) → (send_result b.1).getD 0 = 0)
    (hs : dealwithPipeCmd callback s cmd now send_result = .ok (s', events)) :
    StreamInv ⟨s', fun fd => stream fd ++
      events.flatMap (bytesTo fd cmd.str_data_send send_result)⟩ := by
  rcases dealwithPipeCmd_eq_ok hs with ⟨rfl, rfl⟩ | ⟨htype, hs⟩ |
    ⟨fd, c, s₁, htype, hc, rfl, hs⟩ | ⟨fd, hclose, rfl⟩ | ⟨htype, hauth⟩
  · simpa using h
  · obtain ⟨content, hcontent⟩ := hencoded (.inr htype)
    rw [hcontent] at hboadcast hs ⊢
    exact h.boadcast hcallback (hboadcast htype) hs
  · obtain ⟨content, hcontent⟩ := hencoded (.inl htype)
    have hnow : StreamInv ⟨setSlot s fd (some { c with m_last_update_seconds := now }), stream⟩ :=
      h.quiet (.setSlot hc _)
    have hsend := hsend htype
    rw [hcontent] at hsend ⊢
    rcases hs with ⟨rfl, rfl⟩ | ⟨hid, hs⟩ | ⟨info, -, hs⟩
    · simpa using hnow
    · rw [hid] at hsend
      exact hnow.senddata hcallback hsend hs
    · exact hnow.senddata hcallback hsend hs
  · simpa using h.quiet (.close hcallback hclose)
  · have hevents : ∀ fd, events.flatMap (bytesTo fd cmd.str_data_send send_result) = [] := by
      intro fd
      rcases authOkInternal_eq_ok hauth with ⟨-, rfl, -⟩ | ⟨c, -, -, -, -, -, rfl, -⟩
      · rfl
      · rfl
    simpa [hevents] using h.quiet (.authOk hcallback hauth)

omit hcallback in
/-- A new connection has nothing on it. -/
theorem StreamInv.accept {now fd : Nat} (h : StreamInv ⟨s, stream⟩)
    (hs : dealwithNewConnection s now (.accepted fd) = .ok s') :
    StreamInv ⟨s', update stream fd []⟩ := by
  obtain ⟨slot, -, hs⟩ := bind_eq_ok.mp hs
  cases hs
  constructor
  · exact h.queue
  · intro fd' hfd'
    by_cases hfd : fd' = fd
    · simp only [hfd, update_self]
      exact .nil
    · simp only [setSlot, update_of_ne hfd] at hfd' ⊢
      exact h.whole fd' hfd'
  · intro fd'
    by_cases hfd : fd' = fd
    · simp only [hfd, update_self]
      exact Whole.nil.framed
    · simp only [update_of_ne hfd]
      exact h.framed fd'

/-- Every step for which nothing is cut keeps the connections whole. -/
theorem StreamInv.step {cfg : Config} {w w' : Wire} {act : Act} (h : StreamInv w)
    (hposts : PostsFrames act) (hcut : NotCut w.server act)
    (hwire : wireStep cfg callback w act = .ok (w', events)) : StreamInv w' := by
  obtain ⟨s, stream⟩ := w
  obtain ⟨⟨s', events'⟩, hs, hw⟩ := bind_eq_ok.mp hwire
  clear hwire
  cases hw
  cases act with
  | accept result now =>
      obtain ⟨s₁, haccept, hs⟩ := bind_eq_ok.mp hs
      cases hs
      cases result with
      | failed =>
          cases haccept
          exact h
      | setupFailed fd =>
          cases haccept
          exact h.quiet (.of_eq rfl rfl)
      | accepted fd => exact h.accept haccept
  | recv fd read => exact h.quiet (.recv hcallback hs)
  | pipeCmd now send_result =>
      cases hqueue : s.m_queue_rtn with
      | nil =>
          simp only [NotifyAdapter.step, hqueue] at hs
          cases hs
          simpa only [NotifyAdapter.put, hqueue] using h
      | cons cmd rest =>
          simp only [NotifyAdapter.step, hqueue] at hs
          simp only [NotCut, hqueue, List.head?_cons, NotCutCmd] at hcut
          have hencoded := h.queue cmd (by simp [hqueue])
          have htaken : StreamInv ⟨{ s with m_queue_rtn := rest }, stream⟩ := by
            refine h.quiet ⟨fun _ hfd => hfd, fun cmd' hcmd' => .inl ?_⟩
            rw [hqueue]
            exact List.mem_cons_of_mem cmd hcmd'
          simpa only [NotifyAdapter.put, hqueue] using
            htaken.pipeCmd hcallback hencoded hcut.1 hcut.2 hs
  | checkTimeout now =>
      obtain ⟨s₁, hcheck, hs⟩ := bind_eq_ok.mp hs
      cases hs
      exact h.quiet (.checkTimeout hcallback hcheck)
  | post cmd =>
      cases hs
      refine h.quiet ⟨fun _ hfd => hfd, fun cmd' hcmd' => ?_⟩
      rcases List.mem_append.mp hcmd' with hold | hnew
      · exact .inl hold
      · rw [List.mem_singleton.mp hnew]
        exact .inr hposts
  | dispatch =>
      simp only [NotifyAdapter.step] at hs
      split at hs
      · cases hs
        exact h
      · cases hs
        exact h.quiet (.of_eq rfl rfl)
  | other fd used =>
      cases hs
      exact h.quiet (.of_eq rfl rfl)

end

/-! ## the adapter -/

/-- The reply to a heartbeat is a frame. -/
theorem encoded_dataNotifyCallback (get_md5 : Str → Str) (m_verify_key : Str) (type : NotifyType)
    (c : SocketClient) :
    ∀ cmd ∈ (dataNotifyCallback get_md5 m_verify_key type c).replies, Encoded cmd := by
  intro cmd hcmd
  cases type with
  | dataRecv =>
      rw [dataNotifyCallback_dataRecv] at hcmd
      generalize getBody .little c.m_data_recv (i32 c.m_data_recv.length) [] = body at hcmd
      obtain ⟨result, content⟩ := body
      rw [bodyNotified_eq] at hcmd
      split at hcmd
      · simp only at hcmd
        split at hcmd
        · rw [List.mem_singleton.mp hcmd]
          exact fun _ => ⟨encodeHeartbeatRtn, rfl⟩
        · cases hcmd
      · cases hcmd
  | close =>
      rw [dataNotifyCallback] at hcmd
      split at hcmd <;> cases hcmd

/-- **Whole frames**: in every run in which no `send` of a `PIPE_CMD_SEND` takes a part of its data,
and no `PIPE_CMD_BOADCAST` puts more on a connection after a part of its data, the bytes on every
connection that is there are a concatenation of complete frames, and those on a connection that was
closed may end in a part of one. -/
theorem stream_framed (get_md5 : Str → Str) (m_verify_key : Str) {cfg : Config}
    {inUse : Nat → Bool} {now : Nat} {t : List (Act × List Event)} {w : Wire}
    (h : Run (wireStep cfg (dataNotifyCallback get_md5 m_verify_key))
      (fun w act => Enabled w.server act ∧ PostsFrames act ∧ NotCut w.server act)
      (Wire.init inUse now) t w) (fd : Nat) :
    ((w.server.m_array_epoll_data fd).isSome → Whole (w.stream fd)) ∧ Framed (w.stream fd) := by
  have hinit : StreamInv (Wire.init inUse now) :=
    ⟨by simp [Wire.init, Server.init], by simp [Wire.init, Server.init], fun _ => Whole.nil.framed⟩
  have hinv : StreamInv w := by
    refine h.invariant (I := fun _ w => StreamInv w) hinit ?_
    intro t w act w' events hI hok hs
    exact hI.step (encoded_dataNotifyCallback get_md5 m_verify_key) hok.2.1 hok.2.2 hs
  exact ⟨hinv.whole fd, hinv.framed fd⟩

/-! ### short writes -/

theorem drop_frame (content : Str) : (frame content).drop 4 = content := drop_encodeBuffer ..

theorem length_frame (content : Str) : (frame content).length = content.length + 4 :=
  length_encodeBuffer ..

instance (data : Str) : Decidable (∃ content, data = frame content) :=
  decidable_of_iff (data = frame (data.drop 4))
    ⟨fun h => ⟨_, h⟩, fun ⟨content, h⟩ => by rw [h, drop_frame]⟩

instance (cmd : EpollRtn) : Decidable (Encoded cmd) := inferInstanceAs (Decidable (_ → _))

instance (act : Act) : Decidable (PostsFrames act) :=
  match act with
  | .post cmd => inferInstanceAs (Decidable (Encoded cmd))
  | .accept _ _ | .recv _ _ | .pipeCmd _ _ | .checkTimeout _ | .dispatch | .other _ _ =>
      inferInstanceAs (Decidable True)

instance (s : Server) (send_result : Str → Option Nat) (cmd : Option EpollRtn) :
    Decidable (NotCutCmd s send_result cmd) :=
  match cmd with
  | none => inferInstanceAs (Decidable True)
  | some _ => inferInstanceAs (Decidable (_ ∧ _))

instance (s : Server) (act : Act) : Decidable (NotCut s act) :=
  match act with
  | .pipeCmd _ send_result =>
      inferInstanceAs (Decidable (NotCutCmd s send_result s.m_queue_rtn.head?))
  | .accept _ _ | .recv _ _ | .post _ | .checkTimeout _ | .dispatch | .other _ _ =>
      inferInstanceAs (Decidable True)

/-- The first client of a server, on the descriptor `7`. -/
def firstTag : UInt64 := 0x700000001

/-- A frame for the first client. -/
def sendFrame : EpollRtn := ⟨7, firstTag, [], frame (ascii ['a']), .send⟩

/-- A frame for everybody. -/
def boadcastFrame : EpollRtn := ⟨0, 0, [], frame (ascii ['a']), .boadcast⟩

/-- A client is sent a frame, and takes a part of the next one, from a broadcast: it is closed. -/
theorem stream_framed_boadcast :
    ∃ t w, Run (wireStep ⟨60, 60⟩ (dataNotifyCallback id []))
        (fun w act => Enabled w.server act ∧ PostsFrames act ∧ NotCut w.server act)
        (Wire.init (fun _ => false) 0) t w ∧
      w.stream 7 = frame (ascii ['a']) ++ [0] ∧ (w.server.m_array_epoll_data 7).isNone ∧
      Framed (w.stream 7) := by
  have hreplay : (replay (wireStep ⟨60, 60⟩ (dataNotifyCallback id []))
      (fun w act => Enabled w.server act ∧ PostsFrames act ∧ NotCut w.server act)
      (Wire.init (fun _ => false) 0)
      [.accept (.accepted 7) 0, .post ⟨7, firstTag, [97], [], .authOk⟩, .post sendFrame,
        .post boadcastFrame, .pipeCmd 0 fun _ => none, .pipeCmd 0 fun _ => some 5,
        .pipeCmd 0 fun _ => some 1]).map
      (fun r => (r.2.stream 7, (r.2.server.m_array_epoll_data 7).isNone)) =
      some (frame (ascii ['a']) ++ [0], true) := by
    decide
  obtain ⟨⟨t, w⟩, hw, hend⟩ := Option.map_eq_some_iff.mp hreplay
  obtain ⟨hstream, hnone⟩ := Prod.mk.inj hend
  have hrun := Run.nil.replay hw
  exact ⟨t, w, hrun, hstream, hnone, (stream_framed id [] hrun 7).2⟩

/-- A few bytes are nothing but one frame. -/
theorem eq_frame_of_whole {bytes : Str} (h : Whole bytes) (hne : bytes ≠ [])
    (hshort : bytes.length < 8) : bytes = frame (bytes.drop 4) := by
  obtain ⟨contents, rfl⟩ := h
  cases contents with
  | nil => exact absurd rfl hne
  | cons content contents =>
      cases contents with
      | nil => rw [List.flatMap_cons, List.flatMap_nil, List.append_nil, drop_frame]
      | cons content' contents =>
          simp only [List.flatMap_cons, List.length_append, length_frame] at hshort
          omega

/-- A client takes one byte of a frame, stays, and is sent the next frame behind that byte. -/
theorem stream_torn :
    ∃ t w, Run (wireStep ⟨60, 60⟩ (dataNotifyCallback id []))
        (fun w act => Enabled w.server act ∧ PostsFrames act) (Wire.init (fun _ => false) 0) t w ∧
      (w.server.m_array_epoll_data 7).isSome ∧ w.stream 7 = 0 :: frame (ascii ['a']) ∧
      ¬ Whole (w.stream 7) := by
  have hreplay : (replay (wireStep ⟨60, 60⟩ (dataNotifyCallback id []))
      (fun w act => Enabled w.server act ∧ PostsFrames act) (Wire.init (fun _ => false) 0)
      [.accept (.accepted 7) 0, .post sendFrame, .post sendFrame, .pipeCmd 0 fun _ => some 1,
        .pipeCmd 0 fun _ => some 5]).map
      (fun r => ((r.2.server.m_array_epoll_data 7).isSome, r.2.stream 7)) =
      some (true, 0 :: frame (ascii ['a'])) := by
    decide
  obtain ⟨⟨t, w⟩, hw, hend⟩ := Option.map_eq_some_iff.mp hreplay
  obtain ⟨hsome, hstream⟩ := Prod.mk.inj hend
  refine ⟨t, w, Run.nil.replay hw, hsome, hstream, fun hwhole => ?_⟩
  rw [hstream] at hwhole
  have hframe := eq_frame_of_whole hwhole (by simp) (by decide)
  revert hframe
  decide

end NotifyAdapter
end MySrc
