import MySrc.TemplateHttp.HttpGrammar

/-!
# MySrc.TemplateHttp.HttpManager

What happens to the bytes of one connection: `httpserver::dealwith_recv` appends
what `recv` returned to the buffer of the connection and asks the callback,
`http_manager::http_callback`, which lets `HttpRequestPacket` decode the buffer.

The callback never asks for more bytes (`parseHttpRequest_cases`), so a request is
served exactly when it arrives in one piece (`segmentation_iff`).
-/

namespace MySrc

open Lib

/-! ## the callback -/

/-- `STU_EPOLL_DATA` -/
structure EpollData where
  clientfd : Nat
  fd_unify_tag : UInt64
  str_data_recved : Str
  deriving DecidableEq

/-- `enum_notify_type` -/
inductive NotifyType
  | newConn
  | dataRecv
  | close
  deriving DecidableEq

/-- `HTTP_CHECK_DATA_OK` -/
def checkDataOk : Int := 0

/-- `HTTP_CHECK_DATA_NEEDMORE` -/
def checkDataNeedmore : Int := -1

/-- `HTTP_CHECK_DATA_ERROR` -/
def checkDataError : Int := -2

/-- `httprecv_callback`: the check result, and the request that was put into
`m_request_queue`, if any. -/
abbrev RecvCallback :=
  NotifyType → Option Str → EpollData → Except Fault (Int × Option HttpRequestPacket)

section

variable (utf8ToGbk : Str → Str) (peerName : Nat → Option Str)

/-- `http_manager::parse_http_request` -/
def parseHttpRequest (strdata : Str) (clientfd : Nat) (client_unify_tag : UInt64) :
    Except Fault (Int × Option HttpRequestPacket) := do
  let (decode_result, prequest) ← decode utf8ToGbk .init strdata
  if decode_result = -1 ∨ decode_result = -2 then
    return (-1, none)
  else
    let prequest := { prequest with m_client_tag := client_unify_tag, m_clientfd := clientfd }
    return (0, some (generateClientIp peerName prequest))

/-- `http_manager::http_callback` -/
def httpCallback : RecvCallback := fun notify_type pdata pstu_epoll_data =>
  match notify_type, pdata with
  | .newConn, _ => .ok (checkDataOk, none)
  | .close, _ => .ok (checkDataOk, none)
  | .dataRecv, none => .ok (checkDataOk, none)
  | .dataRecv, some strdata => do
      let (parse_result, request) ←
        parseHttpRequest utf8ToGbk peerName strdata pstu_epoll_data.clientfd
          pstu_epoll_data.fd_unify_tag
      if parse_result = -1 then return (checkDataError, request)
      else if parse_result = 0 then return (checkDataOk, request)
      else return (checkDataNeedmore, request)

end

/-! ## receiving -/

/-- What `recv` returns: bytes, the end of the stream, or an error. -/
inductive RecvResult
  | bytes (char_buffer : Str)
  | closed
  | again
  | failed
  deriving DecidableEq

/-- `httpserver::dealwith_recv` on the slot of a descriptor: the return value, the slot
afterwards, and the request that the callback put into the queue. -/
def dealwithRecv (callback : RecvCallback) (slot : Option EpollData) (recv_result : RecvResult) :
    Except Fault (Int × Option EpollData × Option HttpRequestPacket) :=
  match slot, recv_result with
  | none, _ => .ok (-1, none, none)
  | some data, .closed => .ok (-1, some data, none)
  | some data, .again => .ok (0, some data, none)
  | some data, .failed => .ok (-1, some data, none)
  | some data, .bytes char_buffer => do
      let data := { data with str_data_recved := data.str_data_recved ++ char_buffer }
      let (notify_result, request) ← callback .dataRecv (some data.str_data_recved) data
      if notify_result = checkDataOk then
        return (0, some { data with str_data_recved := [] }, request)
      else if notify_result = checkDataNeedmore then return (0, some data, request)
      else if notify_result = checkDataError then return (-1, some data, request)
      else return (0, some data, request)

/-- Receive some chunks one after another on a connection, until it is closed:
the requests that were queued, and whether the connection is still open. -/
def recvChunks (callback : RecvCallback) (slot : Option EpollData) :
    List Str → Except Fault (List HttpRequestPacket × Bool)
  | [] => .ok ([], true)
  | chunk :: chunks => do
      let (recv_result, slot, request) ← dealwithRecv callback slot (.bytes chunk)
      if recv_result = -1 then
        return (request.toList, false)
      else
        let (requests, isOpen) ← recvChunks callback slot chunks
        return (request.toList ++ requests, isOpen)

/-! ## one connection -/

section

variable (utf8ToGbk : Str → Str) (peerName : Nat → Option Str) (fd : Nat) (tag : UInt64)

/-- The slot of a connection whose buffer is empty. -/
def freshSlot (fd : Nat) (tag : UInt64) : Option EpollData := some ⟨fd, tag, []⟩

/-- A buffer is parsed into a request, or refused: there is no third answer. -/
theorem parseHttpRequest_cases {strdata : Str} {ret : Int} {request : Option HttpRequestPacket}
    (h : parseHttpRequest utf8ToGbk peerName strdata fd tag = .ok (ret, request)) :
    (ret = -1 ∧ request = none) ∨ (ret = 0 ∧ request.isSome) := by
  obtain ⟨⟨decode_result, packet⟩, -, h⟩ := bind_eq_ok.mp h
  simp only at h
  split at h
  · cases h
    exact .inl ⟨rfl, rfl⟩
  · cases h
    exact .inr ⟨rfl, rfl⟩

/-- Behind an empty buffer a chunk is parsed alone: it closes the connection, or leaves
the buffer empty again. -/
theorem recvChunks_cons (chunk : Str) (chunks : List Str) :
    recvChunks (httpCallback utf8ToGbk peerName) (freshSlot fd tag) (chunk :: chunks) =
      (do
        let (_, request) ← parseHttpRequest utf8ToGbk peerName chunk fd tag
        match request with
        | none => return ([], false)
        | some r =>
            let (requests, isOpen) ←
              recvChunks (httpCallback utf8ToGbk peerName) (freshSlot fd tag) chunks
            return (r :: requests, isOpen)) := by
  rw [recvChunks, freshSlot, dealwithRecv]
  simp only [httpCallback, List.nil_append]
  cases hp : parseHttpRequest utf8ToGbk peerName chunk fd tag with
  | error e => rfl
  | ok p =>
      obtain ⟨ret, request⟩ := p
      rcases parseHttpRequest_cases utf8ToGbk peerName fd tag hp with ⟨rfl, rfl⟩ | ⟨rfl, hr⟩
      · rfl
      · obtain ⟨r, rfl⟩ := Option.isSome_iff_exists.mp hr
        rfl

/-- **No request without its chunk**: while the connection stays open, every chunk is
taken for a request of its own. -/
theorem length_of_open {chunks : List Str} {requests : List HttpRequestPacket}
    (h : recvChunks (httpCallback utf8ToGbk peerName) (freshSlot fd tag) chunks =
      .ok (requests, true)) : requests.length = chunks.length := by
  induction chunks generalizing requests with
  | nil =>
      cases h
      rfl
  | cons chunk chunks ih =>
      rw [recvChunks_cons] at h
      obtain ⟨⟨ret, request⟩, -, h⟩ := bind_eq_ok.mp h
      cases request with
      | none => cases h
      | some r =>
          obtain ⟨⟨rest, isOpen⟩, hrest, h⟩ := bind_eq_ok.mp h
          cases h
          simp [ih hrest]

/-- What a request looks like to those who serve it. -/
def HttpRequestPacket.view (r : HttpRequestPacket) : Str × StrMap × StrMap :=
  (r.m_str_cmdpath, r.mapParam, r.mapHead)

/-- The requests that some chunks add to the queue, and whether the connection stays
open. -/
def outcome (chunks : List Str) : Except Fault (List (Str × StrMap × StrMap) × Bool) := do
  let (requests, isOpen) ←
    recvChunks (httpCallback utf8ToGbk peerName) (freshSlot fd tag) chunks
  return (requests.map (·.view), isOpen)

/-- In one piece, the bytes are served: they add one request, and the connection stays
open. -/
def Served (w : Str) : Prop := ∃ v, outcome utf8ToGbk peerName fd tag [w] = .ok ([v], true)

theorem length_of_outcome {chunks : List Str} {views : List (Str × StrMap × StrMap)}
    (h : outcome utf8ToGbk peerName fd tag chunks = .ok (views, true)) :
    views.length = chunks.length := by
  obtain ⟨⟨requests, isOpen⟩, hrecv, h⟩ := bind_eq_ok.mp h
  cases h
  simpa using length_of_open utf8ToGbk peerName fd tag hrecv

/-- A well-formed request is served when it arrives in one piece. -/
theorem served_render {r : HttpRequest} (h : r.WellFormed) :
    Served utf8ToGbk peerName fd tag r.render := by
  obtain ⟨packet, hd⟩ := decode_render utf8ToGbk h
  let prequest := { packet with m_client_tag := tag, m_clientfd := fd }
  refine ⟨(generateClientIp peerName prequest).view, ?_⟩
  simp only [outcome, recvChunks_cons, parseHttpRequest, hd, ok_bind]
  rfl

/-- In one piece, the bytes are refused: the connection is closed. -/
def Refused (w : Str) : Prop := outcome utf8ToGbk peerName fd tag [w] = .ok ([], false)

/-- Nothing is queued before the connection is closed exactly when the first chunk is
refused. -/
theorem outcome_refused_iff (chunk : Str) (chunks : List Str) :
    outcome utf8ToGbk peerName fd tag (chunk :: chunks) = .ok ([], false) ↔
      Refused utf8ToGbk peerName fd tag chunk := by
  simp only [Refused, outcome, recvChunks_cons]
  cases parseHttpRequest utf8ToGbk peerName chunk fd tag with
  | error e => simp
  | ok p =>
      cases hr : p.2 with
      | none => simp [hr]
      | some r =>
          cases recvChunks (httpCallback utf8ToGbk peerName) (freshSlot fd tag) chunks <;>
            simp [hr, recvChunks]

/-- **Segmentation**: well-formed requests are served when they arrive in one piece.
Whatever is served in one piece is served the same in chunks exactly when there is only
one chunk, and what is refused in one piece is refused in chunks exactly when its first
chunk is. -/
theorem segmentation_iff :
    (∀ r : HttpRequest, r.WellFormed → Served utf8ToGbk peerName fd tag r.render) ∧
      (∀ w, Served utf8ToGbk peerName fd tag w → ∀ chunks : List Str, chunks.flatten = w →
        (outcome utf8ToGbk peerName fd tag chunks = outcome utf8ToGbk peerName fd tag [w] ↔
          chunks.length = 1)) ∧
      ∀ w, Refused utf8ToGbk peerName fd tag w → ∀ chunk chunks, (chunk :: chunks).flatten = w →
        (outcome utf8ToGbk peerName fd tag (chunk :: chunks) =
            outcome utf8ToGbk peerName fd tag [w] ↔
          Refused utf8ToGbk peerName fd tag chunk) := by
  refine ⟨fun r h => served_render utf8ToGbk peerName fd tag h, ?_, ?_⟩
  · intro w hserved chunks hflat
    obtain ⟨v, hv⟩ := hserved
    constructor
    · intro heq
      have hlen := length_of_outcome utf8ToGbk peerName fd tag (heq.trans hv)
      simpa using hlen.symm
    · intro hlen
      obtain ⟨c, rfl⟩ := List.length_eq_one_iff.mp hlen
      obtain rfl : c = w := by simpa using hflat
      rfl
  · intro w hrefused chunk chunks _
    rw [hrefused]
    exact outcome_refused_iff utf8ToGbk peerName fd tag chunk chunks

end

/-- `GET / H` -/
def getRoot : HttpRequest where
  method := .get
  target := ascii ['/']
  version := ascii ['H']
  headers := []
  body := []

theorem getRoot_wellFormed : getRoot.WellFormed where
  slash := ⟨[], rfl⟩
  target := by decide
  escaped := escaped_of_notMem (by decide)
  version := by decide
  names := by simp [getRoot]
  values := by simp [getRoot]
  cookies := by simp [getRoot]
  body := by decide
  length := by simp [getRoot]

/-- Cut in two, the request is not served the same. -/
theorem segmentation_getRoot :
    Served id (fun _ => none) 7 1 getRoot.render ∧
      outcome id (fun _ => none) 7 1 [getRoot.render.take 9, getRoot.render.drop 9] ≠
        outcome id (fun _ => none) 7 1 [getRoot.render] := by
  have hserved := (segmentation_iff id (fun _ => none) 7 1).1 getRoot getRoot_wellFormed
  refine ⟨hserved, fun heq => ?_⟩
  have hlen := ((segmentation_iff id (fun _ => none) 7 1).2.1 _ hserved _ (by simp)).mp heq
  simp at hlen

/-- A request whose first five bytes arrive alone closes its connection. -/
theorem segmentation_closes :
    getRoot.WellFormed ∧
      outcome id (fun _ => none) 7 1 [getRoot.render.take 5, getRoot.render.drop 5] ≠
        outcome id (fun _ => none) 7 1 [getRoot.render] := by
  refine ⟨getRoot_wellFormed, fun heq => ?_⟩
  have hcut : (outcome id (fun _ => none) 7 1
      [getRoot.render.take 5, getRoot.render.drop 5]).toOption.map (·.2) = some false := by
    decide
  have hwhole : (outcome id (fun _ => none) 7 1 [getRoot.render]).toOption.map (·.2) =
      some true := by
    decide
  rw [heq, hwhole] at hcut
  simp at hcut

end MySrc
