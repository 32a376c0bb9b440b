import MySrc.NotifyAdapter.TcpServerManager

/-!
# MySrc.NotifyAdapter.IdentityMap

`m_map_socket_ientity` against the clients of the reactor: an entry leads to the
connection that has authenticated as its key, and every connection with an
identity has its entry.

`PIPE_CMD_AUTH_OK` replaces the identity of a connection and leaves the entry of
the one before where it is, so this holds as long as no connection is
authenticated under a second identity (`identityMap_live`).
-/

namespace MySrc
namespace NotifyAdapter

open Lib ProtocolCodec
open Function (update update_of_ne update_self)

/-! ## the map -/

theorem map_erase (m : Std.TreeMap Str SocketInfo compare) (id id' : Str) :
    (m.erase id)[id']? = if id' = id then none else m[id']? := by
  rw [Std.TreeMap.getElem?_erase]
  simp only [Std.LawfulEqCmp.compare_eq_iff_eq, @eq_comm _ id id']

theorem map_insertIfNew {m : Std.TreeMap Str SocketInfo compare} {id : Str}
    (h : m[id]? = none) (info : SocketInfo) (id' : Str) :
    (m.insertIfNew id info)[id']? = if id' = id then some info else m[id']? := by
  have hmem : id ∉ m := by
    rw [Std.TreeMap.mem_iff_isSome_getElem?, h]
    exact Bool.false_ne_true
  rw [Std.TreeMap.getElem?_insertIfNew]
  simp only [Std.LawfulEqCmp.compare_eq_iff_eq, hmem, not_false_eq_true, and_true,
    @eq_comm _ id id']

/-! ## the invariant -/

/-- Every entry leads to a live client that has authenticated as its key. -/
def EntriesLive (s : Server) : Prop :=
  ∀ id info, s.m_map_socket_ientity[id]? = some info →
    ∃ c, s.m_array_epoll_data info.clientfd = some c ∧ c.m_unify_tag = info.fd_unify_tag ∧
      c.m_is_authed = true ∧ c.m_socket_identity = id

/-- Every client with an identity has its entry. -/
def ClientsListed (s : Server) : Prop :=
  ∀ fd c, s.m_array_epoll_data fd = some c → c.m_socket_identity ≠ [] →
    s.m_map_socket_ientity[c.m_socket_identity]? = some ⟨fd, c.m_unify_tag⟩

structure IdentityInv (s : Server) : Prop where
  slots : ∀ fd c, s.m_array_epoll_data fd = some c → c.m_fd = fd ∧ s.inUse fd = true
  entries : EntriesLive s
  clients : ClientsListed s
  named : ∀ (id : Str) info, s.m_map_socket_ientity[id]? = some info → id ≠ []

/-- A command is about to give a second identity to a connection. -/
def reauths (s : Server) : Act → Bool
  | .pipeCmd _ _ =>
      match s.m_queue_rtn with
      | [] => false
      | cmd :: _ =>
          match s.m_array_epoll_data cmd.clientfd with
          | none => false
          | some pclient =>
              cmd.cmd_type = .authOk && cmd.clientfd < epollMaxsize &&
              pclient.m_fd = cmd.clientfd && pclient.m_unify_tag = cmd.fd_unify_tag &&
              cmd.socket_ientity ≠ [] && pclient.m_socket_identity ≠ [] &&
              pclient.m_socket_identity ≠ cmd.socket_ientity
  | _ => false

/-- The connection that a command is for has no identity, or that of the command. -/
def FirstIdentity (s : Server) (cmd : EpollRtn) : Prop :=
  ∀ c, s.m_array_epoll_data cmd.clientfd = some c → cmd.clientfd < epollMaxsize →
    c.m_fd = cmd.clientfd → c.m_unify_tag = cmd.fd_unify_tag → cmd.socket_ientity ≠ [] →
    c.m_socket_identity = [] ∨ c.m_socket_identity = cmd.socket_ientity

section

variable {cfg : Config} {callback : NotifyCallback} {s s' : Server} {fd : Nat}

/-- The invariant reads no more than the slots, the map and the descriptors. -/
theorem IdentityInv.congr (h : IdentityInv s)
    (hslots : s'.m_array_epoll_data = s.m_array_epoll_data)
    (hmap : s'.m_map_socket_ientity = s.m_map_socket_ientity) (hused : s'.inUse = s.inUse) :
    IdentityInv s' where
  slots := by rw [hslots, hused]; exact h.slots
  entries := by rw [EntriesLive, hslots, hmap]; exact h.entries
  clients := by rw [ClientsListed, hslots, hmap]; exact h.clients
  named := by rw [hmap]; exact h.named

/-- An entry that leads to a client is the one of its identity. -/
theorem IdentityInv.entry_iff (h : IdentityInv s) {id : Str} {info : SocketInfo} {c : SocketClient}
    (hinfo : s.m_map_socket_ientity[id]? = some info) (hc : s.m_array_epoll_data fd = some c) :
    info.clientfd = fd ↔ id = c.m_socket_identity := by
  obtain ⟨c', hc', htag, -, hid⟩ := h.entries id info hinfo
  constructor
  · intro hfd
    rw [hfd, hc] at hc'
    obtain rfl := Option.some.inj hc'
    exact hid.symm
  · intro hid'
    have hlisted := h.clients fd c hc (hid' ▸ h.named id info hinfo)
    rw [← hid', hinfo] at hlisted
    exact congrArg SocketInfo.clientfd (Option.some.inj hlisted)

/-- The entries that closing leaves are those of the other clients. -/
theorem IdentityInv.kept_iff (h : IdentityInv s) (hclosed : ClosedAt fd s s') (id : Str)
    (info : SocketInfo) : s'.m_map_socket_ientity[id]? = some info ↔
      s.m_map_socket_ientity[id]? = some info ∧ info.clientfd ≠ fd := by
  rw [hclosed.map]
  cases hc : s.m_array_epoll_data fd with
  | none =>
      refine ⟨fun hinfo => ⟨hinfo, ?_⟩, And.left⟩
      rintro rfl
      obtain ⟨c, hc', -⟩ := h.entries id info hinfo
      cases hc.symm.trans hc'
  | some c =>
      simp only
      split
      · next hempty =>
          refine ⟨fun hinfo => ⟨hinfo, fun hfd => ?_⟩, And.left⟩
          exact h.named id info hinfo (((h.entry_iff hinfo hc).mp hfd).trans hempty)
      · rw [map_erase]
        split
        · next hid =>
            refine ⟨nofun, fun ⟨hinfo, hne⟩ => ?_⟩
            exact absurd ((h.entry_iff hinfo hc).mpr hid) hne
        · next hid =>
            exact ⟨fun hinfo => ⟨hinfo, fun hfd => hid ((h.entry_iff hinfo hc).mp hfd)⟩, And.left⟩

/-- **Closing** removes a client with its entry. -/
theorem IdentityInv.close (h : IdentityInv s) (hclosed : ClosedAt fd s s') : IdentityInv s' := by
  have hslot : ∀ fd' c, s'.m_array_epoll_data fd' = some c →
      fd' ≠ fd ∧ s.m_array_epoll_data fd' = some c := by
    intro fd' c hc
    rw [hclosed.slots] at hc
    by_cases hne : fd' = fd
    · subst hne
      simp at hc
    · exact ⟨hne, by rwa [update_of_ne hne] at hc⟩
  have hkept := h.kept_iff hclosed
  refine ⟨?_, ?_, ?_, ?_⟩
  · intro fd' c hc
    obtain ⟨hne, hc⟩ := hslot fd' c hc
    rw [hclosed.inUse, update_of_ne hne]
    exact h.slots fd' c hc
  · intro id info hinfo
    obtain ⟨hinfo, hne⟩ := (hkept id info).mp hinfo
    rw [hclosed.slots, update_of_ne hne]
    exact h.entries id info hinfo
  · intro fd' c hc hid
    obtain ⟨hne, hc⟩ := hslot fd' c hc
    exact (hkept _ _).mpr ⟨h.clients fd' c hc hid, hne⟩
  · intro id info hinfo
    exact h.named id info ((hkept id info).mp hinfo).1

theorem IdentityInv.closed (h : IdentityInv s)
    (hs : closeInternal callback s fd = .ok s') : IdentityInv s' :=
  h.close (closeInternal_closedAt hs)

/-- A client may change in what the map does not tell about it. -/
theorem IdentityInv.change (h : IdentityInv s) {c c' : SocketClient}
    (hc : s.m_array_epoll_data fd = some c) (hfd : c'.m_fd = c.m_fd)
    (htag : c'.m_unify_tag = c.m_unify_tag) (hauthed : c'.m_is_authed = c.m_is_authed)
    (hid : c'.m_socket_identity = c.m_socket_identity) :
    IdentityInv (setSlot s fd (some c')) := by
  have hslot : ∀ fd₁ c₁, (setSlot s fd (some c')).m_array_epoll_data fd₁ = some c₁ →
      ∃ c₂, s.m_array_epoll_data fd₁ = some c₂ ∧ c₁.m_fd = c₂.m_fd ∧
        c₁.m_unify_tag = c₂.m_unify_tag ∧ c₁.m_socket_identity = c₂.m_socket_identity := by
    intro fd₁ c₁ hc₁
    by_cases hne : fd₁ = fd
    · subst hne
      simp only [setSlot, update_self] at hc₁
      obtain rfl := Option.some.inj hc₁
      exact ⟨c, hc, hfd, htag, hid⟩
    · simp only [setSlot, update_of_ne hne] at hc₁
      exact ⟨c₁, hc₁, rfl, rfl, rfl⟩
  refine ⟨?_, ?_, ?_, h.named⟩
  · intro fd₁ c₁ hc₁
    obtain ⟨c₂, hc₂, hfd₂, -, -⟩ := hslot fd₁ c₁ hc₁
    rw [hfd₂]
    exact h.slots fd₁ c₂ hc₂
  · intro id info hinfo
    obtain ⟨c₁, hc₁, htag₁, hauthed₁, hid₁⟩ := h.entries id info hinfo
    by_cases hne : info.clientfd = fd
    · rw [hne, hc] at hc₁
      obtain rfl := Option.some.inj hc₁
      refine ⟨c', ?_, htag.trans htag₁, hauthed.trans hauthed₁, hid.trans hid₁⟩
      simp only [setSlot, hne, update_self]
    · exact ⟨c₁, by simpa only [setSlot, update_of_ne hne] using hc₁,
        htag₁, hauthed₁, hid₁⟩
  · intro fd₁ c₁ hc₁ hid₁
    obtain ⟨c₂, hc₂, -, htag₂, hid₂⟩ := hslot fd₁ c₁ hc₁
    rw [hid₂] at hid₁ ⊢
    rw [htag₂]
    exact h.clients fd₁ c₂ hc₂ hid₁

/-- A new connection takes a slot that was free, and has no identity. -/
theorem IdentityInv.accept (h : IdentityInv s) {result : AcceptResult} {now : Nat}
    (hfree : Enabled s (.accept result now))
    (hs : dealwithNewConnection s now result = .ok s') : IdentityInv s' := by
  cases result with
  | failed =>
      cases hs
      exact h
  | setupFailed fd =>
      cases hs
      refine ⟨?_, h.entries, h.clients, h.named⟩
      intro fd' c hc
      obtain ⟨hfd, hused⟩ := h.slots fd' c hc
      exact ⟨hfd, by by_cases hne : fd' = fd <;> simp [hne, update_of_ne, hused]⟩
  | accepted fd =>
      obtain ⟨slot, -, hs⟩ := bind_eq_ok.mp hs
      cases hs
      have hold : ∀ fd' c, s.m_array_epoll_data fd' = some c → fd' ≠ fd := by
        rintro fd' c hc rfl
        have hused := (h.slots fd' c hc).2
        rw [show s.inUse fd' = false from hfree] at hused
        cases hused
      refine ⟨?_, ?_, ?_, h.named⟩
      · intro fd' c hc
        by_cases hne : fd' = fd
        · subst hne
          simp only [setSlot, update_self] at hc ⊢
          obtain rfl := Option.some.inj hc
          exact ⟨rfl, trivial⟩
        · simp only [setSlot, update_of_ne hne] at hc ⊢
          exact h.slots fd' c hc
      · intro id info hinfo
        obtain ⟨c, hc, hrest⟩ := h.entries id info hinfo
        refine ⟨c, ?_, hrest⟩
        simpa only [setSlot, update_of_ne (hold _ c hc)] using hc
      · intro fd' c hc hid
        by_cases hne : fd' = fd
        · subst hne
          simp only [setSlot, update_self] at hc
          obtain rfl := Option.some.inj hc
          exact absurd rfl hid
        · simp only [setSlot, update_of_ne hne] at hc
          exact h.clients fd' c hc hid

/-! ## authentication -/

/-- A client takes an identity that has no entry, or had one that is gone: `map` is without
the entry, and `slots` without the client of the entry. -/
theorem IdentityInv.take (h : IdentityInv s) {c : SocketClient} {id : Str}
    (hc : s.m_array_epoll_data fd = some c) (hfresh : c.m_socket_identity = [])
    (hid : id ≠ []) (hnone : s.m_map_socket_ientity[id]? = none)
    (hslots : s'.m_array_epoll_data = update s.m_array_epoll_data fd
      (some { c with m_socket_identity := id, m_is_authed := true }))
    (hmap : s'.m_map_socket_ientity =
      s.m_map_socket_ientity.insertIfNew id ⟨fd, c.m_unify_tag⟩)
    (hused : s'.inUse = s.inUse) : IdentityInv s' := by
  refine ⟨?_, ?_, ?_, ?_⟩
  · intro fd' c' hc'
    rw [hused]
    rw [hslots] at hc'
    by_cases hne : fd' = fd
    · subst hne
      rw [update_self] at hc'
      obtain rfl := Option.some.inj hc'
      exact h.slots fd' c hc
    · rw [update_of_ne hne] at hc'
      exact h.slots fd' c' hc'
  · intro id' info hinfo
    rw [hmap, map_insertIfNew hnone] at hinfo
    rw [hslots]
    split at hinfo
    · next hid' =>
        obtain rfl := Option.some.inj hinfo
        exact ⟨_, update_self .., rfl, rfl, hid'.symm⟩
    · obtain ⟨c', hc', htag, hauthed, hid'⟩ := h.entries id' info hinfo
      have hne : info.clientfd ≠ fd := by
        intro hfd
        rw [hfd, hc] at hc'
        obtain rfl := Option.some.inj hc'
        exact h.named id' info hinfo (hid'.symm.trans hfresh)
      exact ⟨c', by rwa [update_of_ne hne], htag, hauthed, hid'⟩
  · intro fd' c' hc' hid'
    rw [hslots] at hc'
    rw [hmap, map_insertIfNew hnone]
    by_cases hne : fd' = fd
    · subst hne
      rw [update_self] at hc'
      obtain rfl := Option.some.inj hc'
      rw [if_pos rfl]
    · rw [update_of_ne hne] at hc'
      have hlisted := h.clients fd' c' hc' hid'
      rw [if_neg, hlisted]
      rintro rfl
      cases hnone.symm.trans hlisted
  · intro id' info hinfo
    rw [hmap, map_insertIfNew hnone] at hinfo
    split at hinfo
    · next hid' => exact hid' ▸ hid
    · exact h.named id' info hinfo

/-- **Authentication** under a first identity, or again under the same one. -/
theorem IdentityInv.authOk (h : IdentityInv s) {cmd : EpollRtn} {events : List Event}
    (hfirst : FirstIdentity s cmd) (hs : authOkInternal callback s cmd = .ok (s', events)) :
    IdentityInv s' := by
  rcases authOkInternal_eq_ok hs with ⟨rfl, -⟩ | ⟨c, hc, hlt, hfd, htag, hid, -, s₁, rfl, hs⟩
  · exact h
  have hfirst := hfirst c hc hlt hfd htag hid
  rcases hs with ⟨hnone, rfl⟩ | ⟨info, hinfo, ⟨hsame, rfl⟩ | ⟨hother, s₂, hclose, rfl⟩⟩
  · -- the identity is new: so is the one of the client
    have hempty : c.m_socket_identity = [] := by
      rcases hfirst with h' | h'
      · exact h'
      · cases hnone.symm.trans (h' ▸ h.clients _ c hc (h' ▸ hid))
    exact h.take hc hempty hid hnone rfl (by rw [htag]) rfl
  · -- the entry leads to the client already
    obtain ⟨c', hc', -, hauthed, hid'⟩ := h.entries _ info hinfo
    rw [← hsame, hc] at hc'
    obtain rfl := Option.some.inj hc'
    exact h.change hc rfl rfl hauthed.symm hid'.symm
  · -- another connection has the identity: it is closed first
    have hempty : c.m_socket_identity = [] := by
      rcases hfirst with h' | h'
      · exact h'
      · have hlisted := h.clients _ c hc (h' ▸ hid)
        rw [h', hinfo] at hlisted
        exact absurd (congrArg SocketInfo.clientfd (Option.some.inj hlisted)).symm hother
    obtain ⟨old, hold, -, -, hoId⟩ := h.entries _ info hinfo
    have hold' : (setSlot s cmd.clientfd (some { c with
        m_socket_identity := cmd.socket_ientity
        m_is_authed := true })).m_array_epoll_data info.clientfd = some old := by
      simpa only [setSlot, update_of_ne (Ne.symm hother)] using hold
    have hclosed := closeInternal_closedAt hclose
    -- the same state, with the old connection closed before the client changes
    have hgone : IdentityInv { s with
        inUse := update s.inUse info.clientfd false
        m_array_epoll_data := update s.m_array_epoll_data info.clientfd none
        m_map_socket_ientity := s.m_map_socket_ientity.erase cmd.socket_ientity } := by
      have hat : ClosedAt info.clientfd s { s with
          inUse := update s.inUse info.clientfd false
          m_array_epoll_data := update s.m_array_epoll_data info.clientfd none
          m_map_socket_ientity := s.m_map_socket_ientity.erase cmd.socket_ientity } :=
        ⟨rfl, rfl, by simp only [hold, hoId, if_neg hid]⟩
      exact h.close hat
    have hmap := hclosed.map
    simp only [hold', hoId, if_neg hid] at hmap
    have hstays : update s.m_array_epoll_data info.clientfd none cmd.clientfd = some c := by
      rw [update_of_ne hother, hc]
    refine hgone.take hstays hempty hid ?_ ?_ ?_ hclosed.inUse
    · simp only [map_erase, if_true]
    · rw [hclosed.slots]
      exact Function.update_comm hother _ _ _
    · rw [hmap, htag]
      rfl

/-! ## the other operations -/

/-- Data that is sent on behalf of an identity reaches the client that has authenticated
as that identity. -/
def ReachesOwn (event : Event) : Prop :=
  ∀ id fd client, event = .sent id fd client → id ≠ [] →
    ∃ c, client = some c ∧ c.m_fd = fd ∧ c.m_is_authed = true ∧ c.m_socket_identity = id

/-- What an entry leads to. -/
theorem IdentityInv.reaches (h : IdentityInv s) {id : Str} {info : SocketInfo}
    (hinfo : s.m_map_socket_ientity[id]? = some info) :
    ReachesOwn (.sent id info.clientfd (s.m_array_epoll_data info.clientfd)) := by
  intro id' fd' client heq _
  cases heq
  obtain ⟨c, hc, -, hauthed, hid⟩ := h.entries id info hinfo
  exact ⟨c, hc, (h.slots _ c hc).1, hauthed, hid⟩

theorem IdentityInv.senddata (h : IdentityInv s) {id : Str} {send_result : Option Nat}
    {events : List Event} (hs : senddataInternal callback s id fd send_result = .ok (s', events)) :
    IdentityInv s' ∧ events = [.sent id fd (s.m_array_epoll_data fd)] := by
  cases send_result with
  | none =>
      obtain ⟨s₁, hclose, hs⟩ := bind_eq_ok.mp hs
      cases hs
      exact ⟨h.closed hclose, rfl⟩
  | some n =>
      cases hs
      exact ⟨h, rfl⟩

theorem IdentityInv.boadcast (h : IdentityInv s) {data : Str} {send_result : Str → Option Nat}
    {events : List Event} (hs : boadcastInternal callback s data send_result = .ok (s', events)) :
    IdentityInv s' ∧ ∀ event ∈ events, ReachesOwn event := by
  obtain ⟨s₁, hclose, hs⟩ := bind_eq_ok.mp hs
  cases hs
  refine ⟨foldlM_invariant (fun _ _ _ hI hstep => hI.closed hstep) h hclose, ?_⟩
  intro event hevent
  obtain ⟨⟨id, info⟩, hentry, rfl⟩ := List.mem_map.mp hevent
  exact h.reaches (Std.TreeMap.mem_toList_iff_getElem?_eq_some.mp hentry)

theorem IdentityInv.pipeCmd (h : IdentityInv s) {cmd : EpollRtn} {now : Nat}
    {send_result : Str → Option Nat} {events : List Event}
    (hfirst : cmd.cmd_type = .authOk → FirstIdentity s cmd)
    (hs : dealwithPipeCmd callback s cmd now send_result = .ok (s', events)) :
    IdentityInv s' ∧ ∀ event ∈ events, ReachesOwn event := by
  rcases dealwithPipeCmd_eq_ok hs with ⟨rfl, rfl⟩ | ⟨-, hboadcast⟩ |
    ⟨fd, c, s₁, -, hc, rfl, hsend⟩ | ⟨fd, hclose, rfl⟩ | ⟨htype, hauth⟩
  · exact ⟨h, by simp⟩
  · exact h.boadcast hboadcast
  · have hnow : IdentityInv (setSlot s fd (some { c with m_last_update_seconds := now })) :=
      h.change hc rfl rfl rfl rfl
    rcases hsend with ⟨rfl, rfl⟩ | ⟨-, hsend⟩ | ⟨info, hinfo, hsend⟩
    · exact ⟨hnow, by simp⟩
    · obtain ⟨hinv, rfl⟩ := hnow.senddata hsend
      refine ⟨hinv, fun event hevent => ?_⟩
      obtain rfl := List.mem_singleton.mp hevent
      intro id fd client heq hid
      cases heq
      exact absurd rfl hid
    · obtain ⟨hinv, rfl⟩ := hnow.senddata hsend
      refine ⟨hinv, fun event hevent => ?_⟩
      obtain rfl := List.mem_singleton.mp hevent
      exact hnow.reaches hinfo
  · exact ⟨h.closed hclose, by simp⟩
  · refine ⟨h.authOk (hfirst htype) hauth, fun event hevent => ?_⟩
    have hevents : events = [] ∨ events = [.authed cmd] := by
      rcases authOkInternal_eq_ok hauth with ⟨-, h, -⟩ | ⟨c, -, -, -, -, -, h, -⟩
      · exact .inl h
      · exact .inr h
    rcases hevents with rfl | rfl
    · cases hevent
    · obtain rfl := List.mem_singleton.mp hevent
      exact fun id fd client heq => by cases heq

theorem IdentityInv.recv (h : IdentityInv s) {read : ReadResult} {events : List Event}
    (hs : recvEvent callback s fd read = .ok (s', events)) :
    IdentityInv s' ∧ ∀ event ∈ events, ReachesOwn event := by
  obtain ⟨-, ⟨-, hclose, rfl⟩ | ⟨c, s₁, hc, hcalled, hs⟩⟩ := recvEvent_eq_ok hs
  · exact ⟨h.closed hclose, by simp⟩
  obtain ⟨buffer, hbuffer⟩ := dealwithRecv_client callback c read
  have hchange : IdentityInv (setSlot s fd (some (dealwithRecv callback c read).2.1)) := by
    rw [hbuffer]
    exact h.change hc rfl rfl rfl rfl
  have hcall : IdentityInv s₁ ∧ ∀ event ∈ events, ReachesOwn event := by
    unfold calledBack at hcalled
    split at hcalled
    · obtain ⟨rfl, rfl⟩ := Prod.mk.inj hcalled
      exact ⟨hchange, by simp⟩
    · obtain ⟨rfl, rfl⟩ := Prod.mk.inj hcalled
      refine ⟨hchange.congr rfl rfl rfl, fun event hevent => ?_⟩
      obtain ⟨msg, -, rfl⟩ := List.mem_map.mp hevent
      exact fun id fd client heq => by cases heq
  rcases hs with ⟨-, hclose⟩ | ⟨-, rfl⟩
  · exact ⟨hcall.1.closed hclose, hcall.2⟩
  · exact hcall

/-- A command gives no second identity, or it is one that `reauths` tells. -/
theorem reauths_eq_false_iff {cmd : EpollRtn} {rest : List EpollRtn} {now : Nat}
    {send_result : Str → Option Nat} (hqueue : s.m_queue_rtn = cmd :: rest) :
    reauths s (.pipeCmd now send_result) = false ↔
      (cmd.cmd_type = .authOk → FirstIdentity s cmd) := by
  simp only [reauths, hqueue, FirstIdentity]
  cases s.m_array_epoll_data cmd.clientfd with
  | none => simp
  | some c =>
      simp only [Bool.and_eq_false_iff, decide_eq_false_iff_not, not_not, Option.some.injEq]
      constructor
      · rintro h hauth c' rfl hlt hfd htag hid
        tauto
      · intro h
        by_contra hno
        simp only [not_or, not_not] at hno
        obtain ⟨⟨⟨⟨⟨⟨hauth, hlt⟩, hfd⟩, htag⟩, hid⟩, hc⟩, hne⟩ := hno
        rcases h hauth c rfl hlt hfd htag hid with h | h
        · exact hc h
        · exact hne h

/-- **Step**: the invariant is kept, unless a connection gets a second identity. -/
theorem IdentityInv.step (h : IdentityInv s) {act : Act} {events : List Event}
    (henabled : Enabled s act) (hreauth : reauths s act = false)
    (hs : step cfg callback s act = .ok (s', events)) :
    IdentityInv s' ∧ ∀ event ∈ events, ReachesOwn event := by
  cases act with
  | accept result now =>
      obtain ⟨s₁, haccept, hs⟩ := bind_eq_ok.mp hs
      cases hs
      exact ⟨h.accept henabled haccept, by simp⟩
  | recv fd read => exact h.recv hs
  | pipeCmd now send_result =>
      unfold NotifyAdapter.step at hs
      simp only at hs
      split at hs
      · cases hs
        exact ⟨h, by simp⟩
      · next cmd rest hqueue =>
          have hrest : IdentityInv { s with m_queue_rtn := rest } := h.congr rfl rfl rfl
          have hfirst := (reauths_eq_false_iff hqueue).mp hreauth
          exact hrest.pipeCmd hfirst hs
  | checkTimeout now =>
      obtain ⟨s₁, hcheck, hs⟩ := bind_eq_ok.mp hs
      cases hs
      have hchecked : IdentityInv { s with m_last_timeout_check_seconds := now } :=
        h.congr rfl rfl rfl
      exact ⟨checkTimeout_invariant (fun _ _ _ hI hclose => hI.closed hclose) hchecked h hcheck,
        by simp⟩
  | post cmd =>
      cases hs
      exact ⟨h.congr rfl rfl rfl, by simp⟩
  | dispatch =>
      unfold NotifyAdapter.step at hs
      simp only at hs
      split at hs
      · cases hs
        exact ⟨h, by simp⟩
      · next msg rest hqueue =>
          cases hs
          refine ⟨h.congr rfl rfl rfl, fun event hevent => ?_⟩
          obtain rfl := List.mem_singleton.mp hevent
          unfold adapterCmd
          split_ifs <;> exact fun id fd client heq => by cases heq
  | other fd used =>
      cases hs
      refine ⟨⟨?_, h.entries, h.clients, h.named⟩, by simp⟩
      intro fd' c hc
      have hne : fd' ≠ fd := by
        rintro rfl
        have hnone : (s.m_array_epoll_data fd').isNone = true := henabled
        rw [show s.m_array_epoll_data fd' = some c from hc] at hnone
        cases hnone
      simp only [update_of_ne hne]
      exact h.slots fd' c hc

/-- The command that `reauths` tells. -/
theorem reauths_eq_true {act : Act} (h : reauths s act = true) :
    ∃ now send_result cmd rest c, act = .pipeCmd now send_result ∧ s.m_queue_rtn = cmd :: rest ∧
      s.m_array_epoll_data cmd.clientfd = some c ∧ cmd.cmd_type = .authOk ∧
      cmd.clientfd < epollMaxsize ∧ c.m_fd = cmd.clientfd ∧ c.m_unify_tag = cmd.fd_unify_tag ∧
      cmd.socket_ientity ≠ [] ∧ c.m_socket_identity ≠ [] ∧
      c.m_socket_identity ≠ cmd.socket_ientity := by
  cases act with
  | pipeCmd now send_result =>
      cases hqueue : s.m_queue_rtn with
      | nil => simp [reauths, hqueue] at h
      | cons cmd rest =>
          cases hc : s.m_array_epoll_data cmd.clientfd with
          | none => simp [reauths, hqueue, hc] at h
          | some c =>
              simp only [reauths, hqueue, hc, Bool.and_eq_true, decide_eq_true_eq] at h
              obtain ⟨⟨⟨⟨⟨⟨htype, hlt⟩, hfd⟩, htag⟩, hid⟩, hold⟩, hne⟩ := h
              exact ⟨now, send_result, cmd, rest, c, rfl, rfl, hc, htype, hlt, hfd, htag, hid, hold,
                hne⟩
  | _ => cases h

/-- `PIPE_CMD_AUTH_OK` leaves the entry of the identity that the client had before. -/
theorem IdentityInv.entry_stays (h : IdentityInv s) {cmd : EpollRtn} {c : SocketClient}
    {events : List Event} (hc : s.m_array_epoll_data cmd.clientfd = some c)
    (hfd : c.m_fd = cmd.clientfd) (htag : c.m_unify_tag = cmd.fd_unify_tag)
    (hid : cmd.socket_ientity ≠ []) (hold : c.m_socket_identity ≠ [])
    (hne : c.m_socket_identity ≠ cmd.socket_ientity)
    (hs : authOkInternal callback s cmd = .ok (s', events)) :
    s'.m_map_socket_ientity[c.m_socket_identity]? = some ⟨cmd.clientfd, c.m_unify_tag⟩ ∧
      ∃ c', s'.m_array_epoll_data cmd.clientfd = some c' ∧
        c'.m_socket_identity = cmd.socket_ientity := by
  have hlisted := h.clients _ c hc hold
  rcases authOkInternal_eq_ok hs with ⟨-, -, hno⟩ | ⟨c₁, hc₁, -, -, -, -, -, s₁, rfl, hs⟩
  · exact absurd (hno c hc hfd htag) hid
  obtain rfl := Option.some.inj (hc.symm.trans hc₁)
  rcases hs with ⟨hnone, rfl⟩ | ⟨info, hinfo, ⟨hsame, rfl⟩ | ⟨hother, s₂, hclose, rfl⟩⟩
  · refine ⟨?_, _, update_self .., rfl⟩
    simp only
    rw [map_insertIfNew hnone, if_neg hne, hlisted]
  · exact ⟨hlisted, _, update_self .., rfl⟩
  · -- the connection that had the new identity is closed, which takes no other entry away
    have hclosed := closeInternal_closedAt hclose
    obtain ⟨owner, howner, -, -, hownerId⟩ := h.entries _ info hinfo
    have hmap := hclosed.map
    simp only [setSlot, update_of_ne (Ne.symm hother), howner, hownerId, if_neg hid] at hmap
    refine ⟨?_, ?_⟩
    · have hgone : (s.m_map_socket_ientity.erase cmd.socket_ientity)[cmd.socket_ientity]? =
          none := by
        simp only [map_erase, if_true]
      rw [hmap, map_insertIfNew hgone, if_neg hne, map_erase, if_neg hne, hlisted]
    · have hslot : s₂.m_array_epoll_data cmd.clientfd = some { c with
          m_socket_identity := cmd.socket_ientity
          m_is_authed := true } := by
        rw [hclosed.slots, update_of_ne hother]
        exact update_self ..
      exact ⟨_, hslot, rfl⟩

/-- A second identity leaves the entry of the first behind. -/
theorem IdentityInv.reauthed (h : IdentityInv s) {act : Act} {events : List Event}
    (hreauth : reauths s act = true)
    (hs : NotifyAdapter.step cfg callback s act = .ok (s', events)) : ¬ EntriesLive s' := by
  obtain ⟨now, send_result, cmd, rest, c, rfl, hqueue, hc, htype, hlt, hfd, htag, hid, hold, hne⟩ :=
    reauths_eq_true hreauth
  have hinfo : commandInfo { s with m_queue_rtn := rest } cmd =
      some ⟨cmd.clientfd, cmd.fd_unify_tag⟩ := by
    simp [commandInfo, htype]
  have hbranch : dealwithPipeCmd callback { s with m_queue_rtn := rest } cmd now send_result =
      authOkInternal callback { s with m_queue_rtn := rest } cmd := by
    simp [dealwithPipeCmd, hinfo, htype, hc, hfd, htag, Nat.not_le.mpr hlt]
  simp only [NotifyAdapter.step, hqueue, hbranch] at hs
  have hrest : IdentityInv { s with m_queue_rtn := rest } := h.congr rfl rfl rfl
  obtain ⟨hentry, c', hc', hid'⟩ := hrest.entry_stays hc hfd htag hid hold hne hs
  intro hlive
  obtain ⟨c'', hc'', -, -, hid''⟩ := hlive _ _ hentry
  obtain rfl := Option.some.inj (hc'.symm.trans hc'')
  exact hne (hid''.symm.trans hid')

/-- **The identity map**: in every run in which no connection is authenticated under a
second identity, every entry leads to a live client that has authenticated as its key,
every client with an identity has its entry, and what was sent to an identity was sent to
the client that had authenticated as it; and the first time a connection gets a second
identity, the entry of the first one is left behind. -/
theorem identityMap_live {inUse : Nat → Bool} {now : Nat} {t : List (Act × List Event)}
    (h : Run (NotifyAdapter.step cfg callback)
      (fun s act => Enabled s act ∧ reauths s act = false) (Server.init inUse now) t s) :
    EntriesLive s ∧ ClientsListed s ∧ (∀ p ∈ t, ∀ event ∈ p.2, ReachesOwn event) ∧
      ∀ act s' events, reauths s act = true →
        NotifyAdapter.step cfg callback s act = .ok (s', events) → ¬ EntriesLive s' := by
  have hinit : IdentityInv (Server.init inUse now) := by
    refine ⟨by simp [Server.init], ?_, ?_, ?_⟩
    · intro id info hinfo
      simp [Server.init] at hinfo
    · intro fd c hc
      simp [Server.init] at hc
    · intro id info hinfo
      simp [Server.init] at hinfo
  obtain ⟨hinv, hsent⟩ : IdentityInv s ∧ ∀ p ∈ t, ∀ event ∈ p.2, ReachesOwn event := by
    refine h.invariant (I := fun t s => IdentityInv s ∧ ∀ p ∈ t, ∀ event ∈ p.2, ReachesOwn event)
      ⟨hinit, by simp⟩ ?_
    intro t s act s' events hI hok hs
    obtain ⟨hstep, hevents⟩ := hI.1.step hok.1 hok.2 hs
    refine ⟨hstep, fun p hp => ?_⟩
    rcases List.mem_append.mp hp with hp | hp
    · exact hI.2 p hp
    · obtain rfl := List.mem_singleton.mp hp
      exact hevents
  exact ⟨hinv.entries, hinv.clients, hsent,
    fun act s' events hreauth hs => hinv.reauthed hreauth hs⟩

end

/-- `PIPE_CMD_AUTH_OK` for the connection with a descriptor and a tag. -/
def authOkCmd (fd : Nat) (tag : UInt64) (identity : Str) : EpollRtn :=
  ⟨fd, tag, identity, [], .authOk⟩

/-- The identity `u1` is taken over by a second connection, and then sent to. -/
theorem identityMap_live_takeover :
    ∃ t s, Run (step ⟨100, 100⟩ (dataNotifyCallback id []))
        (fun s act => Enabled s act ∧ reauths s act = false) (Server.init (fun _ => false) 0) t s ∧
      s.m_map_socket_ientity.toList = [(ascii ['u', '1'], ⟨8, 0x800000002⟩)] ∧
      (t.flatMap (·.2)).length = 3 ∧ EntriesLive s ∧ ClientsListed s := by
  have hreplay : (replay (step ⟨100, 100⟩ (dataNotifyCallback id []))
      (fun s act => Enabled s act ∧ reauths s act = false) (Server.init (fun _ => false) 0)
      [.accept (.accepted 7) 0, .accept (.accepted 8) 0,
        .post (authOkCmd 7 0x700000001 (ascii ['u', '1'])), .pipeCmd 0 fun _ => none,
        .post (authOkCmd 8 0x800000002 (ascii ['u', '1'])), .pipeCmd 0 fun _ => none,
        .post ⟨0, 0, ascii ['u', '1'], [88], .send⟩, .pipeCmd 0 fun _ => some 1]).map (fun r =>
          (r.2.m_map_socket_ientity.toList, (r.1.flatMap (·.2)).length)) =
      some ([(ascii ['u', '1'], ⟨8, 0x800000002⟩)], 3) := by
    decide
  obtain ⟨⟨t, s⟩, hs, hlog⟩ := Option.map_eq_some_iff.mp hreplay
  obtain ⟨hmap, hevents⟩ := Prod.mk.inj hlog
  have hrun := Run.nil.replay hs
  obtain ⟨hlive, hlisted, -, -⟩ := identityMap_live hrun
  exact ⟨t, s, hrun, hmap, hevents, hlive, hlisted⟩

/-- The identities that data was sent to, with the identity of the client that it has
reached. -/
def deliveries (events : List Event) : List (Str × Str) :=
  events.filterMap fun
    | .sent id _ (some client) => some (id, client.m_socket_identity)
    | _ => none

/-- A connection authenticates as `u1`, then as `u2`, and closes; its descriptor is
accepted anew and authenticates as `u3`: a broadcast sends to it on behalf of `u1`. -/
theorem identity_left_behind :
    ∃ t s, Run (step ⟨100, 100⟩ (dataNotifyCallback id [])) Enabled
        (Server.init (fun _ => false) 0) t s ∧
      s.m_map_socket_ientity.toList = [(ascii ['u', '1'], ⟨7, 0x700000001⟩),
        (ascii ['u', '3'], ⟨7, 0x700000002⟩)] ∧
      (s.m_array_epoll_data 7).map (·.m_unify_tag) = some 0x700000002 ∧
      deliveries (t.flatMap (·.2)) = [(ascii ['u', '1'], ascii ['u', '3']),
        (ascii ['u', '3'], ascii ['u', '3'])] ∧
      ¬ EntriesLive s := by
  have hreplay : (replay (step ⟨100, 100⟩ (dataNotifyCallback id [])) Enabled
      (Server.init (fun _ => false) 0)
      [.accept (.accepted 7) 0,
        .post (authOkCmd 7 0x700000001 (ascii ['u', '1'])), .pipeCmd 0 fun _ => none,
        .post (authOkCmd 7 0x700000001 (ascii ['u', '2'])), .pipeCmd 0 fun _ => none,
        .recv 7 .closed, .accept (.accepted 7) 0,
        .post (authOkCmd 7 0x700000002 (ascii ['u', '3'])), .pipeCmd 0 fun _ => none,
        .post ⟨0, 0, [], [88], .boadcast⟩, .pipeCmd 0 fun _ => some 1]).map (fun r =>
          (r.2.m_map_socket_ientity.toList, (r.2.m_array_epoll_data 7).map (·.m_unify_tag),
            deliveries (r.1.flatMap (·.2)))) =
      some ([(ascii ['u', '1'], ⟨7, 0x700000001⟩), (ascii ['u', '3'], ⟨7, 0x700000002⟩)],
        some 0x700000002,
        [(ascii ['u', '1'], ascii ['u', '3']), (ascii ['u', '3'], ascii ['u', '3'])]) := by
    decide
  obtain ⟨⟨t, s⟩, hs, hlog⟩ := Option.map_eq_some_iff.mp hreplay
  simp only [Prod.mk.injEq] at hlog
  obtain ⟨hmap, hslot, hsent⟩ := hlog
  refine ⟨t, s, Run.nil.replay hs, hmap, hslot, hsent, fun hlive => ?_⟩
  have hentry : s.m_map_socket_ientity[ascii ['u', '1']]? = some ⟨7, 0x700000001⟩ := by
    rw [← Std.TreeMap.mem_toList_iff_getElem?_eq_some, hmap]
    exact List.mem_cons_self ..
  obtain ⟨c, hc, htag, -, -⟩ := hlive _ _ hentry
  simp only at hc htag
  rw [hc, Option.map_some, htag] at hslot
  exact absurd (Option.some.inj hslot) (by decide)

end NotifyAdapter
end MySrc
