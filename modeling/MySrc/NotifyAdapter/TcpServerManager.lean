import MySrc.NotifyAdapter.TcpServer

/-!
# MySrc.NotifyAdapter.TcpServerManager

`data_notify_callback` of `notify_adapter_v2/src/main/tcpservermanager.cpp`: what
the adapter does with a complete frame, and when a connection is closed.

Before a connection is authenticated it may send two kinds of messages only, and
the signature of the one that authenticates is checked.  Afterwards everything
is passed on, whatever it is.
-/

namespace MySrc
namespace NotifyAdapter

open Lib ProtocolCodec

section

variable (get_md5 : Str → Str) (m_verify_key : Str)

/-- The check of a message from a connection that is not authenticated. -/
def unauthedAllowed (m_content_map : StrMap) : Bool :=
  let contentpath := getContentPath m_content_map
  if contentpath = contentPathAuth then
    contentAuthVerify get_md5 m_verify_key m_content_map ≠ -1
  else contentpath = contentPathGetkey

/-- The reply to a heartbeat, as a command for the reactor. -/
def heartbeatReply (pclient : SocketClient) : EpollRtn where
  clientfd := pclient.m_fd
  fd_unify_tag := pclient.m_unify_tag
  socket_ientity := []
  str_data_send := (encodeBuffer .little 0 encodeHeartbeatRtn []).2
  cmd_type := .send

/-- `data_notify_callback` -/
def dataNotifyCallback : NotifyCallback
  | .dataRecv, pclient =>
      let body := getBody .little pclient.m_data_recv (i32 pclient.m_data_recv.length) []
      if body.1 = -1 then ⟨tcpCheckError, [], []⟩
      else
        let content := body.2
        let m_content_map := decodeContent content
        let contentpath := getContentPath m_content_map
        if pclient.m_is_authed = false ∧
            unauthedAllowed get_md5 m_verify_key m_content_map = false then
          ⟨tcpCheckError, [], []⟩
        else
          let msg : MsgInfo :=
            ⟨pclient.m_fd, pclient.m_unify_tag, pclient.m_socket_identity, contentpath, content⟩
          if contentpath = contentPathHeartbeat then
            ⟨tcpCheckOk, [{ msg with content_path := contentPathHeartbeat }],
              [heartbeatReply pclient]⟩
          else ⟨tcpCheckOk, [msg], []⟩
  | .close, pclient =>
      if pclient.m_socket_identity = [] then ⟨tcpCheckOk, [], []⟩
      else
        ⟨tcpCheckOk, [⟨pclient.m_fd, pclient.m_unify_tag, pclient.m_socket_identity,
          contentPathOffline, []⟩], []⟩

/-- What is not a frame is refused. -/
theorem dataNotifyCallback_of_getBody {pclient : SocketClient} {content : Str}
    (h : getBody .little pclient.m_data_recv (i32 pclient.m_data_recv.length) [] = (-1, content)) :
    dataNotifyCallback get_md5 m_verify_key .dataRecv pclient = ⟨tcpCheckError, [], []⟩ := by
  have hresult := congrArg Prod.fst h
  rw [dataNotifyCallback]
  exact if_pos hresult

end

end NotifyAdapter
end MySrc
