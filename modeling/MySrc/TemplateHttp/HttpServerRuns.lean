import MySrc.TemplateHttp.HttpServer
import Mathlib.Data.Finset.Insert
import Mathlib.Data.Finset.Card

/-!
# MySrc.TemplateHttp.HttpServerRuns

Two ledgers of the reactor of `template_http`, over all runs.

The first is of connections: `m_clientcount` against the slots that are in use,
and the calls of `close` against the accepts.  `close_socket_internal` counts a
client out whether or not its slot is still in use, so both are right as long
as no event is handled for a client that an earlier event of its batch has
closed.  The array of slots is indexed by descriptors that nobody compares with
its size (`Inside`); where all of them have a slot, only the callback can end a
step (`Covered.fault`).

The second is of commands: each one is queued first and announced by a byte in
the pipe afterwards, by threads that overtake each other between the two.
-/

namespace MySrc
namespace HttpServer

open Lib
open Function (update update_of_ne update_self)

/-! ## who may do what -/

section

variable (cfg : Config)

/-- What the kernel and the threads can do when the commands may name any descriptor and
any tag. -/
def Enabled (s : Server) : Act → Prop
  | .queue thread _ => s.writing thread = false
  | act => Allowed cfg s act

instance (s : Server) (act : Act) : Decidable (Enabled cfg s act) :=
  match act with
  | .wait fds => inferInstanceAs (Decidable (Allowed cfg s (.wait fds)))
  | .event answer => inferInstanceAs (Decidable (Allowed cfg s (.event answer)))
  | .dequeue result => inferInstanceAs (Decidable (Allowed cfg s (.dequeue result)))
  | .queue _ _ => inferInstanceAs (Decidable (_ = _))
  | .notify thread written => inferInstanceAs (Decidable (Allowed cfg s (.notify thread written)))

/-- The next event is for a client whose slot is NULL: it has been closed since the batch
was reported. -/
def stale (s : Server) (act : Act) : Bool :=
  match act, s.events with
  | .event _, fd :: _ =>
      fd ≠ cfg.m_listen_fd && fd ≠ cfg.m_pipe_read &&
        match s.m_array_epoll_data[fd]? with
        | some none => true
        | _ => false
  | _, _ => false

/-- The descriptors that a step brings in have an entry in the table: the one that `accept`
returns for an event of the listening socket, and that of a command. -/
def Inside (s : Server) : Act → Prop
  | .event ⟨.accepted fd, _, _⟩ =>
      s.events.head? = some cfg.m_listen_fd → fd < cfg.m_epoll_maxsize
  | .queue _ cmd => cmd.clientfd < cfg.m_epoll_maxsize
  | _ => True

instance (s : Server) (act : Act) : Decidable (Inside cfg s act) :=
  match act with
  | .wait _ => inferInstanceAs (Decidable True)
  | .event ⟨.failed, _, _⟩ => inferInstanceAs (Decidable True)
  | .event ⟨.setupFailed _, _, _⟩ => inferInstanceAs (Decidable True)
  | .event ⟨.accepted _, _, _⟩ => inferInstanceAs (Decidable (_ → _))
  | .dequeue _ => inferInstanceAs (Decidable True)
  | .queue _ _ => inferInstanceAs (Decidable (_ < _))
  | .notify _ _ => inferInstanceAs (Decidable True)

/-- A call of the callback ends in the fault `e`. -/
def Refuses (callback : RecvCallback) (e : Fault) : Prop :=
  ∃ notify_type pdata data, callback notify_type pdata data = .error e

/-- The number of slots that are in use. -/
def clients (s : Server) : Nat :=
  s.m_array_epoll_data.countP Option.isSome

/-- The calls of `close` among what was done, by who held the descriptor. -/
def closings (touches : List Touch) : List (Option Holder) :=
  (touches.filter (·.bytes.isNone)).map (·.holder)

/-- The calls of `close` in a run. -/
def closed (t : List (Act × List Touch)) : List (Option Holder) :=
  closings (t.flatMap (·.2))

end

/-! ## the array of slots -/

/-- The array has its size, and a slot for every client that is watched or reported and for
every command in the queue. -/
structure Covered (cfg : Config) (s : Server) : Prop where
  size : s.m_array_epoll_data.length = cfg.m_epoll_maxsize
  interest : ∀ fd, s.interest fd = true → fd < cfg.m_epoll_maxsize
  events : ∀ fd ∈ s.events,
    fd = cfg.m_listen_fd ∨ fd = cfg.m_pipe_read ∨ fd < cfg.m_epoll_maxsize
  queue : ∀ cmd ∈ s.m_queue_send, cmd.clientfd < cfg.m_epoll_maxsize

/-- `s'` watches no client that `s` does not watch, and has its batch and its queue. -/
structure Narrower (s s' : Server) : Prop where
  size : s'.m_array_epoll_data.length = s.m_array_epoll_data.length
  interest : ∀ fd, s'.interest fd = true → s.interest fd = true
  events : s'.events = s.events
  queue : s'.m_queue_send = s.m_queue_send

section

variable {cfg : Config} {callback : RecvCallback} {s s' : Server} {touches : List Touch} {fd : Nat}
  {e : Fault}

/-- What has its slots keeps them when it watches no more clients. -/
theorem Covered.narrow (h : Covered cfg s) (hnarrower : Narrower s s') : Covered cfg s' where
  size := hnarrower.size.trans h.size
  interest fd hfd := h.interest fd (hnarrower.interest fd hfd)
  events := by
    rw [hnarrower.events]
    exact h.events
  queue := by
    rw [hnarrower.queue]
    exact h.queue

/-- A slot of the array can be looked at. -/
theorem slotAt_ne_error (hfd : fd < s.m_array_epoll_data.length) : slotAt s fd ≠ .error e := by
  simp [slotAt, List.getElem?_eq_getElem hfd]

/-- Closing watches no further client. -/
theorem closeSocketInternal_narrower {cmd : Option EpollRtn}
    (hs : closeSocketInternal callback s cmd fd = .ok (s', touches)) : Narrower s s' := by
  obtain ⟨rfl, -⟩ := closeSocketInternal_eq_ok hs
  refine ⟨List.length_set, fun fd' hfd' => ?_, rfl, rfl⟩
  by_cases hne : fd' = fd
  · subst hne
    simp at hfd'
  · simpa [update_of_ne hne] using hfd'

/-- Receiving watches no further client. -/
theorem recvEvent_narrower {recv_result : RecvResult}
    (hs : recvEvent callback s fd recv_result = .ok (s', touches)) : Narrower s s' := by
  obtain ⟨slot, -, hs⟩ := bind_eq_ok.mp hs
  obtain ⟨⟨result, slot', request⟩, -, hs⟩ := bind_eq_ok.mp hs
  simp only at hs
  split at hs
  · obtain ⟨hsize, hinterest, hevents, hqueue⟩ := closeSocketInternal_narrower hs
    exact ⟨hsize.trans List.length_set, hinterest, hevents, hqueue⟩
  · cases hs
    exact ⟨List.length_set, fun _ hfd' => hfd', rfl, rfl⟩

/-- A command watches no further client. -/
theorem dispatch_narrower {cmd : EpollRtn} {send_result : Option Nat}
    (hs : dispatch callback s cmd send_result = .ok (s', touches)) : Narrower s s' := by
  have hnothing : Narrower s s := ⟨rfl, fun _ hfd' => hfd', rfl, rfl⟩
  obtain ⟨slot, -, hs⟩ := bind_eq_ok.mp hs
  cases slot with
  | none =>
      cases hs
      exact hnothing
  | some data =>
      simp only at hs
      split at hs
      · split at hs
        · split at hs
          · cases hs
            exact hnothing
          · obtain ⟨⟨s₁, touches₁⟩, hclose, hs⟩ := bind_eq_ok.mp hs
            cases hs
            exact closeSocketInternal_narrower hclose
        · exact closeSocketInternal_narrower hs
      · cases hs
        exact hnothing

/-- Inside the array only the callback can end a closing. -/
theorem closeSocketInternal_fault {cmd : Option EpollRtn}
    (hfd : fd < s.m_array_epoll_data.length)
    (hs : closeSocketInternal callback s cmd fd = .error e) : Refuses callback e := by
  rcases bind_eq_error.mp hs with hslot | ⟨slot, -, hs⟩
  · exact absurd hslot (slotAt_ne_error hfd)
  · cases slot with
    | none => cases hs
    | some data =>
        rcases bind_eq_error.mp hs with hcallback | ⟨_, -, hs⟩
        · exact ⟨_, _, _, hcallback⟩
        · cases hs

/-- An accept inside the table faults only by the callback. -/
theorem acceptEvent_fault {result : AcceptResult}
    (hfd : ∀ fd, result = .accepted fd → fd < s.m_array_epoll_data.length)
    (hs : acceptEvent callback s result = .error e) : Refuses callback e := by
  cases result with
  | failed => cases hs
  | setupFailed fd => cases hs
  | accepted fd =>
      rcases bind_eq_error.mp hs with hslot | ⟨slot, -, hs⟩
      · exact absurd hslot (slotAt_ne_error (hfd fd rfl))
      · rcases bind_eq_error.mp hs with hcallback | ⟨_, -, hs⟩
        · exact ⟨_, _, _, hcallback⟩
        · cases hs

/-- What is done with received bytes faults only by the callback. -/
theorem dealwithRecv_fault {slot : Option EpollData} {recv_result : RecvResult}
    (hs : dealwithRecv callback slot recv_result = .error e) : Refuses callback e := by
  unfold dealwithRecv at hs
  split at hs
  · cases hs
  · cases hs
  · cases hs
  · cases hs
  · next data chunk =>
      rcases bind_eq_error.mp hs with hcallback | ⟨_, -, hs⟩
      · exact ⟨_, _, _, hcallback⟩
      · simp only at hs
        split at hs
        · cases hs
        · split at hs
          · cases hs
          · split at hs
            all_goals cases hs

/-- Receiving inside the table faults only by the callback. -/
theorem recvEvent_fault {recv_result : RecvResult} (hfd : fd < s.m_array_epoll_data.length)
    (hs : recvEvent callback s fd recv_result = .error e) : Refuses callback e := by
  rcases bind_eq_error.mp hs with hslot | ⟨slot, -, hs⟩
  · exact absurd hslot (slotAt_ne_error hfd)
  · rcases bind_eq_error.mp hs with hrecv | ⟨⟨result, slot', request⟩, -, hs⟩
    · exact dealwithRecv_fault hrecv
    · simp only at hs
      split at hs
      · refine closeSocketInternal_fault ?_ hs
        rw [setSlot, List.length_set]
        exact hfd
      · cases hs

/-- A command inside the table faults only by the callback. -/
theorem dispatch_fault {cmd : EpollRtn} {send_result : Option Nat}
    (hfd : cmd.clientfd < s.m_array_epoll_data.length)
    (hs : dispatch callback s cmd send_result = .error e) : Refuses callback e := by
  rcases bind_eq_error.mp hs with hslot | ⟨slot, -, hs⟩
  · exact absurd hslot (slotAt_ne_error hfd)
  · cases slot with
    | none => cases hs
    | some data =>
        simp only at hs
        split at hs
        · split at hs
          · split at hs
            · cases hs
            · rcases bind_eq_error.mp hs with hclose | ⟨_, -, hs⟩
              · exact closeSocketInternal_fault hfd hclose
              · cases hs
          · exact closeSocketInternal_fault hfd hs
        · cases hs

theorem init_covered : Covered cfg (init cfg) where
  size := List.length_replicate
  interest _ hfd := Bool.noConfusion hfd
  events _ hfd := absurd hfd List.not_mem_nil
  queue _ hcmd := absurd hcmd List.not_mem_nil

/-- The listening socket is a descriptor that the step of an event asks `Inside` for. -/
theorem Inside.accepted {answer : Answer} {events : List Nat}
    (h : Inside cfg s (.event answer)) (hevents : s.events = cfg.m_listen_fd :: events)
    (haccept : answer.accept = .accepted fd) : fd < cfg.m_epoll_maxsize := by
  obtain ⟨accept, read, recv⟩ := answer
  obtain rfl : accept = .accepted fd := haccept
  exact h (by rw [hevents, List.head?_cons])

/-- A new client whose descriptor is inside the array has a slot. -/
theorem Covered.accept (h : Covered cfg s) {result : AcceptResult}
    (hfd : ∀ fd, result = .accepted fd → fd < cfg.m_epoll_maxsize)
    (hs : acceptEvent callback s result = .ok (s', touches)) : Covered cfg s' := by
  cases result with
  | failed =>
      cases hs
      exact h
  | setupFailed fd =>
      cases hs
      exact ⟨h.size, h.interest, h.events, h.queue⟩
  | accepted fd =>
      obtain ⟨slot, -, hs⟩ := bind_eq_ok.mp hs
      obtain ⟨r, -, hs⟩ := bind_eq_ok.mp hs
      cases hs
      refine ⟨List.length_set.trans h.size, fun fd' hfd' => ?_, h.events, h.queue⟩
      by_cases hne : fd' = fd
      · exact hne ▸ hfd fd rfl
      · exact h.interest fd' (by simpa [setSlot, update_of_ne hne] using hfd')

/-- **Step**: the slots stay enough as long as the descriptors that come in have one. -/
theorem Covered.step (h : Covered cfg s) {act : Act} (henabled : Enabled cfg s act)
    (hinside : Inside cfg s act) (hs : HttpServer.step cfg callback s act = .ok (s', touches)) :
    Covered cfg s' := by
  cases act with
  | wait fds =>
      cases hs
      refine ⟨h.size, h.interest, fun fd hfd => ?_, h.queue⟩
      exact (henabled.2.2.2 fd hfd).imp_right (Or.imp_right (h.interest fd))
  | event answer =>
      obtain ⟨-, hr⟩ | ⟨fd, events, hevents, hcases⟩ := step_event_cases hs
      · cases hr
        exact h
      · have hrest : ∀ fd' ∈ events,
            fd' = cfg.m_listen_fd ∨ fd' = cfg.m_pipe_read ∨ fd' < cfg.m_epoll_maxsize := by
          intro fd' hfd'
          exact h.events fd' (by simp [hevents, hfd'])
        have hbatch : Covered cfg { s with events } := ⟨h.size, h.interest, hrest, h.queue⟩
        obtain ⟨rfl, hs⟩ | ⟨-, -, hr⟩ | ⟨-, -, hr⟩ | ⟨-, -, hs⟩ := hcases
        · exact hbatch.accept (fun fd' => hinside.accepted hevents) hs
        · cases hr
          exact ⟨h.size, h.interest, hrest, h.queue⟩
        · cases hr
          exact hbatch
        · exact hbatch.narrow (recvEvent_narrower hs)
  | dequeue send_result =>
      obtain ⟨-, hr⟩ | ⟨cmd, rest, hqueue, hs⟩ := step_dequeue_cases hs
      · cases hr
        exact ⟨h.size, h.interest, h.events, h.queue⟩
      · have hrest : ∀ cmd' ∈ rest, cmd'.clientfd < cfg.m_epoll_maxsize := by
          intro cmd' hcmd'
          exact h.queue cmd' (by simp [hqueue, hcmd'])
        have htaken : Covered cfg { s with reading := false, m_queue_send := rest } :=
          ⟨h.size, h.interest, h.events, hrest⟩
        exact htaken.narrow (dispatch_narrower hs)
  | queue thread cmd =>
      cases hs
      refine ⟨h.size, h.interest, h.events, fun cmd' hcmd' => ?_⟩
      rcases List.mem_append.mp hcmd' with hold | hnew
      · exact h.queue cmd' hold
      · rw [List.mem_singleton.mp hnew]
        exact hinside
  | notify thread written =>
      cases hs
      exact ⟨h.size, h.interest, h.events, h.queue⟩

/-- **Progress**: where the descriptors have their slots, a step that does not succeed is
one in which the callback does not return. -/
theorem Covered.fault (h : Covered cfg s) {act : Act} (hinside : Inside cfg s act)
    (hs : HttpServer.step cfg callback s act = .error e) : Refuses callback e := by
  cases act with
  | wait fds => cases hs
  | event answer =>
      obtain ⟨-, hr⟩ | ⟨fd, events, hevents, hcases⟩ := step_event_cases hs
      · cases hr
      · obtain ⟨rfl, hs⟩ | ⟨-, -, hr⟩ | ⟨-, -, hr⟩ | ⟨hlisten, hpipe, hs⟩ := hcases
        · refine acceptEvent_fault (fun fd' haccept => ?_) hs
          rw [h.size]
          exact hinside.accepted hevents haccept
        · cases hr
        · cases hr
        · refine recvEvent_fault ?_ hs
          rw [h.size]
          have hfd := h.events fd (by simp [hevents])
          exact (hfd.resolve_left hlisten).resolve_left hpipe
  | dequeue send_result =>
      obtain ⟨-, hr⟩ | ⟨cmd, rest, hqueue, hs⟩ := step_dequeue_cases hs
      · cases hr
      · refine dispatch_fault ?_ hs
        rw [h.size]
        exact h.queue cmd (by simp [hqueue])
  | queue thread cmd => cases hs
  | notify thread written => cases hs

/-- A new client whose descriptor is past the array is stored outside it. -/
theorem Covered.outside (h : Covered cfg s) {answer : Answer} {events : List Nat}
    (hevents : s.events = cfg.m_listen_fd :: events) (haccept : answer.accept = .accepted fd)
    (hfd : cfg.m_epoll_maxsize ≤ fd) :
    HttpServer.step cfg callback s (.event answer) = .error .outOfBounds := by
  have hnone : s.m_array_epoll_data[fd]? = none := by
    rw [List.getElem?_eq_none_iff, h.size]
    exact hfd
  simp [HttpServer.step, hevents, haccept, acceptEvent, slotAt, hnone]

end

/-! ## connections -/

/-- The ledger of connections, with the holders that were closed so far. -/
structure Accounted (closes : List (Option Holder)) (s : Server) : Prop where
  inv : Inv s
  count : s.m_clientcount = clients s
  number : ∀ fd k, s.table fd = some (.conn k) → k < s.tags.length
  holders : ∀ fd fd' k, s.table fd = some (.conn k) → s.table fd' = some (.conn k) → fd' = fd
  gone : ∀ h ∈ closes, ∃ k, h = some (.conn k) ∧ k < s.tags.length ∧
    ∀ fd, s.table fd ≠ some (.conn k)
  once : closes.Nodup

section

variable {cfg : Config} {callback : RecvCallback} {s s' : Server} {closes : List (Option Holder)}
  {touches : List Touch} {fd : Nat}

theorem clients_setSlot {slot : Option EpollData}
    (hslot : s.m_array_epoll_data[fd]? = some slot) (slot' : Option EpollData) :
    clients (setSlot s fd slot') + slot.isSome.toNat = clients s + slot'.isSome.toNat := by
  obtain ⟨hlt, hget⟩ := List.getElem?_eq_some_iff.mp hslot
  have hpos : slot.isSome = true → 0 < s.m_array_epoll_data.countP Option.isSome := by
    intro hsome
    exact List.countP_pos_iff.mpr ⟨slot, hget ▸ List.getElem_mem hlt, hsome⟩
  simp only [clients, setSlot, List.countP_set hlt, hget]
  cases slot <;> cases slot' <;> simp_all

/-- **Closing** a slot in use counts one client out and is the only closing of its
connection. -/
theorem Accounted.close (h : Accounted closes s) {cmd : Option EpollRtn} {data : EpollData}
    (hdata : s.m_array_epoll_data[fd]? = some (some data))
    (hs : closeSocketInternal callback s cmd fd = .ok (s', touches)) :
    Accounted (closes ++ closings touches) s' := by
  have hkept := h.inv.closeSlot hs
  obtain ⟨-, k, htable, -⟩ := h.inv.slots fd data hdata
  have hsame : ∀ fd' k', update s.table fd none fd' = some (.conn k') → fd' ≠ fd ∧
      s.table fd' = some (.conn k') := by
    intro fd' k' hfd'
    by_cases hne : fd' = fd
    · subst hne
      simp at hfd'
    · exact ⟨hne, by simpa [update_of_ne hne] using hfd'⟩
  obtain ⟨rfl, rfl⟩ := closeSocketInternal_eq_ok hs
  have hclosings : closings [⟨cmd, none, fd, s.table fd⟩] = [s.table fd] := rfl
  rw [hclosings]
  refine ⟨hkept, ?_, ?_, ?_, ?_, ?_⟩
  · have hset := clients_setSlot hdata none
    have hcount := h.count
    simp only [clients, setSlot, Option.isSome_some, Option.isSome_none, Bool.toNat_true,
      Bool.toNat_false] at hset hcount ⊢
    omega
  · intro fd' k' hfd'
    exact h.number fd' k' (hsame fd' k' hfd').2
  · intro fd₁ fd₂ k' h₁ h₂
    exact h.holders fd₁ fd₂ k' (hsame fd₁ k' h₁).2 (hsame fd₂ k' h₂).2
  · intro holder hholder
    rcases List.mem_append.mp hholder with hholder | hholder
    · obtain ⟨k', rfl, hlt, hno⟩ := h.gone holder hholder
      exact ⟨k', rfl, hlt, fun fd' hfd' => hno fd' (hsame fd' k' hfd').2⟩
    · obtain rfl := List.mem_singleton.mp hholder
      refine ⟨k, htable, h.number fd k htable, fun fd' hfd' => ?_⟩
      obtain ⟨hne, hfd'⟩ := hsame fd' k hfd'
      exact hne (h.holders fd fd' k htable hfd')
  · refine List.nodup_append.mpr ⟨h.once, List.nodup_singleton _, ?_⟩
    intro holder hholder holder' hholder' heq
    obtain rfl := List.mem_singleton.mp hholder'
    obtain ⟨k', hk', -, hno⟩ := h.gone holder hholder
    exact hno fd (by rw [← heq, hk'])

/-- The ledger stands when no descriptor gets a connection that it did not have. -/
theorem Accounted.fewer (h : Accounted closes s) (hinv : Inv s')
    (hsame : ∀ fd k, s'.table fd = some (.conn k) → s.table fd = some (.conn k))
    (hslots : s'.m_array_epoll_data = s.m_array_epoll_data) (htags : s'.tags = s.tags)
    (hcount : s'.m_clientcount = s.m_clientcount) : Accounted closes s' where
  inv := hinv
  count := by rw [hcount, h.count, clients, clients, hslots]
  number fd k hfd := by
    rw [htags]
    exact h.number fd k (hsame fd k hfd)
  holders fd₁ fd₂ k h₁ h₂ := h.holders fd₁ fd₂ k (hsame fd₁ k h₁) (hsame fd₂ k h₂)
  gone holder hholder := by
    obtain ⟨k, rfl, hlt, hno⟩ := h.gone holder hholder
    exact ⟨k, rfl, by rwa [htags], fun fd hfd => hno fd (hsame fd k hfd)⟩
  once := h.once

/-- The ledger reads no more than the table, the slots, the tags and the counter. -/
theorem Accounted.congr (h : Accounted closes s) (hinv : Inv s') (htable : s'.table = s.table)
    (hslots : s'.m_array_epoll_data = s.m_array_epoll_data) (htags : s'.tags = s.tags)
    (hcount : s'.m_clientcount = s.m_clientcount) : Accounted closes s' := by
  refine h.fewer hinv (fun fd k hfd => ?_) hslots htags hcount
  rwa [htable] at hfd

/-- A new connection is counted in, under a number that was not used before. -/
theorem Accounted.accept (h : Accounted closes s) {result : AcceptResult} (hfree : result.Free s)
    (hs : acceptEvent callback s result = .ok (s', touches)) :
    Accounted (closes ++ closings touches) s' := by
  have hinv := (h.inv.accept hfree hs).inv
  cases result with
  | failed =>
      cases hs
      simpa [closings] using h
  | setupFailed fd =>
      cases hs
      have hsame : ∀ fd' k, update s.table fd (some .orphan) fd' = some (.conn k) →
          s.table fd' = some (.conn k) := by
        intro fd' k hfd'
        by_cases hne : fd' = fd
        · subst hne
          simp at hfd'
        · simpa [update_of_ne hne] using hfd'
      rw [closings, List.filter_nil, List.map_nil, List.append_nil]
      exact h.fewer hinv hsame rfl rfl rfl
  | accepted fd =>
      obtain ⟨slot, hslot, hs⟩ := bind_eq_ok.mp hs
      obtain ⟨r, -, hs⟩ := bind_eq_ok.mp hs
      have hslot := slotAt_eq_ok hslot
      have hnull : slot = none := by
        cases slot with
        | none => rfl
        | some data => exact absurd rfl (h.inv.slot_ne hfree hslot)
      cases hs
      -- a holder is the new connection, at the new descriptor, or an old one
      have hsame : ∀ fd' k, update s.table fd (some (.conn s.tags.length)) fd' = some (.conn k) →
          (fd' = fd ∧ k = s.tags.length) ∨ s.table fd' = some (.conn k) := by
        intro fd' k hfd'
        by_cases hne : fd' = fd
        · subst hne
          simp only [update_self, Option.some.injEq, Holder.conn.injEq] at hfd'
          exact .inl ⟨rfl, hfd'.symm⟩
        · exact .inr (by simpa [update_of_ne hne] using hfd')
      rw [closings, List.filter_nil, List.map_nil, List.append_nil]
      refine ⟨hinv, ?_, ?_, ?_, ?_, h.once⟩
      · have hset := clients_setSlot hslot (some ⟨fd, (getUnifyTag s.m_unify_id fd).2, []⟩)
        have hcount := h.count
        rw [hnull] at hset
        simp only [clients, setSlot, getUnifyTag, Option.isSome_some, Option.isSome_none,
          Bool.toNat_true, Bool.toNat_false] at hset hcount ⊢
        omega
      · intro fd' k hfd'
        simp only [setSlot, List.length_append, List.length_singleton]
        rcases hsame fd' k hfd' with ⟨-, rfl⟩ | hold
        · omega
        · have := h.number fd' k hold
          omega
      · intro fd₁ fd₂ k h₁ h₂
        rcases hsame fd₁ k h₁ with ⟨hfd₁, hk⟩ | hold₁
        · rcases hsame fd₂ k h₂ with ⟨hfd₂, -⟩ | hold₂
          · rw [hfd₁, hfd₂]
          · exact absurd hk (h.number fd₂ k hold₂).ne
        · rcases hsame fd₂ k h₂ with ⟨-, hk⟩ | hold₂
          · exact absurd hk (h.number fd₁ k hold₁).ne
          · exact h.holders fd₁ fd₂ k hold₁ hold₂
      · intro holder hholder
        obtain ⟨k, rfl, hlt, hno⟩ := h.gone holder hholder
        simp only [setSlot, List.length_append, List.length_singleton]
        refine ⟨k, rfl, by omega, fun fd' hfd' => ?_⟩
        rcases hsame fd' k hfd' with ⟨-, rfl⟩ | hold
        · exact absurd hlt (lt_irrefl _)
        · exact hno fd' hold

/-- A command closes only a slot in use. -/
theorem Accounted.dispatch (h : Accounted closes s) {cmd : EpollRtn} {send_result : Option Nat}
    (hs : dispatch callback s cmd send_result = .ok (s', touches)) :
    Accounted (closes ++ closings touches) s' := by
  obtain ⟨slot, hslot, hs⟩ := bind_eq_ok.mp hs
  have hslot := slotAt_eq_ok hslot
  cases slot with
  | none =>
      cases hs
      simpa [closings] using h
  | some data =>
      simp only at hs
      split at hs
      · split at hs
        · split at hs
          · cases hs
            simpa [closings] using h
          · obtain ⟨⟨s₁, touches₁⟩, hclose, hs⟩ := bind_eq_ok.mp hs
            cases hs
            simpa [closings] using h.close hslot hclose
        · exact h.close hslot hs
      · cases hs
        simpa [closings] using h

/-- An event for a client whose slot is in use closes that slot or changes its buffer. -/
theorem Accounted.recv (h : Accounted closes s) {data : EpollData} {recv_result : RecvResult}
    (hdata : s.m_array_epoll_data[fd]? = some (some data))
    (hs : recvEvent callback s fd recv_result = .ok (s', touches)) :
    Accounted (closes ++ closings touches) s' := by
  obtain ⟨slot, hslot, hs⟩ := bind_eq_ok.mp hs
  obtain ⟨⟨result, slot', request⟩, hrecv, hs⟩ := bind_eq_ok.mp hs
  obtain rfl : slot = some data := by
    have := (slotAt_eq_ok hslot).symm.trans hdata
    exact Option.some.inj this
  obtain ⟨data', rfl⟩ : ∃ data', slot' = some data' := by
    rcases dealwithRecv_slot hrecv with rfl | ⟨data₁, buffer, -, rfl⟩
    · exact ⟨data, rfl⟩
    · exact ⟨_, rfl⟩
  have hinv := h.inv.received hdata hrecv
  have hbuffer : Accounted closes { setSlot s fd (some data') with
      requests := s.requests ++ request.toList } := by
    refine ⟨hinv, ?_, h.number, h.holders, h.gone, h.once⟩
    have hset := clients_setSlot hdata (some data')
    have hcount := h.count
    simp only [clients, setSlot, Option.isSome_some] at hset hcount ⊢
    omega
  simp only at hs
  split at hs
  · have hslot' : (setSlot s fd (some data')).m_array_epoll_data[fd]? = some (some data') :=
      List.getElem?_set_self (List.getElem?_eq_some_iff.mp hdata).1
    exact hbuffer.close hslot' hs
  · cases hs
    simpa [closings] using hbuffer

/-- An event that is not stale finds the slot of its client in use. -/
theorem slot_of_not_stale {answer : Answer} {events : List Nat} {slot : Option EpollData}
    (hevents : s.events = fd :: events) (hlisten : fd ≠ cfg.m_listen_fd)
    (hpipe : fd ≠ cfg.m_pipe_read) (hslot : s.m_array_epoll_data[fd]? = some slot) :
    stale cfg s (.event answer) = slot.isNone := by
  cases slot <;> simp [stale, hevents, hlisten, hpipe, hslot]

/-- **Step**: the ledger of connections is kept, unless a stale event is handled. -/
theorem Accounted.step (h : Accounted closes s) {act : Act} (henabled : Enabled cfg s act)
    (hstale : stale cfg s act = false) (hs : step cfg callback s act = .ok (s', touches)) :
    Accounted (closes ++ closings touches) s' := by
  have hfree : ∀ answer, act = .event answer → answer.accept.Free s := by
    rintro answer rfl
    exact henabled.2.2.1
  have hinv := (h.inv.step hfree hs).inv
  have hsame : closes ++ closings [] = closes := List.append_nil closes
  cases act with
  | event answer =>
      have hfree := hfree answer rfl
      obtain ⟨-, hr⟩ | ⟨fd, events, hevents, hcases⟩ := step_event_cases hs
      · cases hr
        rwa [hsame]
      · have hbatch : Accounted closes { s with events } :=
          h.congr ⟨h.inv.slots, h.inv.tags, h.inv.ids, h.inv.count⟩ rfl rfl rfl rfl
        obtain ⟨-, hs⟩ | ⟨-, -, hr⟩ | ⟨-, -, hr⟩ | ⟨hlisten, hpipe, hs⟩ := hcases
        · refine hbatch.accept ?_ hs
          revert hfree
          cases answer.accept <;> exact id
        · cases hr
          rw [hsame]
          exact h.congr hinv rfl rfl rfl rfl
        · cases hr
          rwa [hsame]
        · obtain ⟨slot, hslot, -⟩ := bind_eq_ok.mp hs
          have hslot := slotAt_eq_ok hslot
          rw [slot_of_not_stale hevents hlisten hpipe hslot] at hstale
          cases slot with
          | none => cases hstale
          | some data => exact hbatch.recv hslot hs
  | dequeue send_result =>
      obtain ⟨-, hr⟩ | ⟨cmd, rest, -, hs⟩ := step_dequeue_cases hs
      · cases hr
        rw [hsame]
        exact h.congr hinv rfl rfl rfl rfl
      · refine Accounted.dispatch ?_ hs
        exact h.congr ⟨h.inv.slots, h.inv.tags, h.inv.ids, h.inv.count⟩ rfl rfl rfl rfl
  | wait fds =>
      cases hs
      rw [hsame]
      exact h.congr hinv rfl rfl rfl rfl
  | queue thread cmd =>
      cases hs
      rw [hsame]
      exact h.congr hinv rfl rfl rfl rfl
  | notify thread written =>
      cases hs
      rw [hsame]
      exact h.congr hinv rfl rfl rfl rfl

/-- A stale event counts a client out that is not there any more. -/
theorem Accounted.stale_step (h : Accounted closes s) {act : Act}
    (hstale : stale cfg s act = true)
    (hs : HttpServer.step cfg callback s act = .ok (s', touches)) :
    s'.m_clientcount + 1 = clients s' := by
  unfold stale at hstale
  split at hstale
  · next answer fd events hevents =>
      simp only [Bool.and_eq_true, decide_eq_true_eq] at hstale
      obtain ⟨⟨hlisten, hpipe⟩, hnull⟩ := hstale
      have hslot : s.m_array_epoll_data[fd]? = some none := by
        split at hnull
        · assumption
        · cases hnull
      unfold HttpServer.step at hs
      simp only [hevents] at hs
      rw [if_neg hlisten, if_neg hpipe] at hs
      obtain ⟨slot, hslot', hs⟩ := bind_eq_ok.mp hs
      obtain rfl : slot = none := Option.some.inj ((slotAt_eq_ok hslot').symm.trans hslot)
      simp only [dealwithRecv, ok_bind, if_true] at hs
      obtain ⟨rfl, -⟩ := closeSocketInternal_eq_ok hs
      have hcount := h.count
      have hset := clients_setSlot hslot none
      simp only [clients, setSlot, List.set_set] at hset hcount ⊢
      omega
  · cases hstale

/-- **Accounting**: in every run in which the descriptors that come in have a slot and no
event is handled for a client that was closed after the batch was reported,
`m_clientcount` is the number of slots in use, and `close` is applied to a descriptor only
while a connection holds it, once for each connection; the next such step ends in no
fault but one of the callback.  The first event for a closed client makes the count wrong,
and the first client past the array is stored outside it. -/
theorem clientcount_and_closes {t : List (Act × List Touch)}
    (h : Run (HttpServer.step cfg callback)
      (fun s act => Enabled cfg s act ∧ Inside cfg s act ∧ stale cfg s act = false)
      (init cfg) t s) :
    s.m_clientcount = clients s ∧ (closed t).Nodup ∧
      (∀ holder ∈ closed t, ∃ k, holder = some (.conn k) ∧ k < s.tags.length) ∧
      (∀ act e, Inside cfg s act → HttpServer.step cfg callback s act = .error e →
        Refuses callback e) ∧
      (∀ act s' touches, stale cfg s act = true →
        HttpServer.step cfg callback s act = .ok (s', touches) →
          s'.m_clientcount ≠ clients s') ∧
      ∀ answer fd, s.events.head? = some cfg.m_listen_fd → answer.accept = .accepted fd →
        cfg.m_epoll_maxsize ≤ fd →
          HttpServer.step cfg callback s (.event answer) = .error .outOfBounds := by
  have hinit : Accounted [] (init cfg) := by
    refine ⟨init_inv cfg, ?_, ?_, ?_, by simp, List.nodup_nil⟩
    · simp [init, clients, List.countP_replicate]
    · intro fd k hfd
      simp [init] at hfd
    · intro fd fd' k hfd
      simp [init] at hfd
  obtain ⟨hledger, hcovered⟩ : Accounted (closed t) s ∧ Covered cfg s := by
    refine h.invariant (I := fun t s => Accounted (closed t) s ∧ Covered cfg s)
      ⟨hinit, init_covered⟩ ?_
    intro t s act s' touches hI hok hs
    obtain ⟨henabled, hinside, hstale⟩ := hok
    have hclosed : closed (t ++ [(act, touches)]) = closed t ++ closings touches := by
      simp [closed, closings]
    rw [hclosed]
    exact ⟨hI.1.step henabled hstale hs, hI.2.step henabled hinside hs⟩
  refine ⟨hledger.count, hledger.once, ?_, fun act e => hcovered.fault, ?_, ?_⟩
  · intro holder hholder
    obtain ⟨k, hk, hlt, -⟩ := hledger.gone holder hholder
    exact ⟨k, hk, hlt⟩
  · intro act s' touches hstale hs
    have := hledger.stale_step hstale hs
    omega
  · intro answer fd hhead haccept hfd
    obtain ⟨events, hevents⟩ := List.head?_eq_some_iff.mp hhead
    exact hcovered.outside hevents haccept hfd

end

/-- A connection on descriptor 7 sends a request, and its answer closes it; `batch` is
what `epoll_wait` reports when the byte for the answer is in the pipe. -/
def closeActs (batch : List Nat) : List Act :=
  let answer : Answer := ⟨.accepted 7, true, .bytes getRoot.render⟩
  let rest : Answer := ⟨.failed, true, .again⟩
  [.wait [3], .event answer, .wait [7], .event { answer with accept := .failed },
    .queue 0 ⟨7, 0x700000001, [], .close⟩, .notify 0 true,
    .wait batch, .event rest, .dequeue none] ++ batch.tail.map fun _ => .event rest

/-- A batch with the pipe alone: the connection is closed once. -/
theorem clientcount_and_closes_one :
    ∃ t s, Run (step smallConfig (httpCallback id fun _ => none))
        (fun s act => Enabled smallConfig s act ∧ Inside smallConfig s act ∧
          stale smallConfig s act = false)
        (init smallConfig) t s ∧
      closed t = [some (.conn 0)] ∧ s.m_clientcount = clients s ∧ (closed t).Nodup := by
  have hreplay : (replay (step smallConfig (httpCallback id fun _ => none))
      (fun s act => Enabled smallConfig s act ∧ Inside smallConfig s act ∧
        stale smallConfig s act = false)
      (init smallConfig) (closeActs [4])).map (fun r => closed r.1) = some [some (.conn 0)] := by
    decide
  obtain ⟨⟨t, s⟩, hs, hclosed⟩ := Option.map_eq_some_iff.mp hreplay
  have hrun := Run.nil.replay hs
  obtain ⟨hcount, hnodup, -⟩ := clientcount_and_closes hrun
  exact ⟨t, s, hrun, hclosed, hcount, hnodup⟩

/-- A batch with the pipe and a later event of the connection itself: `close` is applied
to descriptor 7 twice after one accept, and `m_clientcount` is -1. -/
theorem closes_twice_after_one_accept :
    ∃ t s, Run (step smallConfig (httpCallback id fun _ => none)) (Allowed smallConfig)
        (init smallConfig) t s ∧
      s.accepts = 1 ∧ (t.flatMap (·.2)).map (·.fd) = [7, 7] ∧
      closed t = [some (.conn 0), none] ∧ s.m_clientcount = -1 ∧ clients s = 0 := by
  have hreplay : (replay (step smallConfig (httpCallback id fun _ => none))
      (Allowed smallConfig) (init smallConfig) (closeActs [4, 7])).map (fun r =>
        (r.2.accepts, (r.1.flatMap (·.2)).map (·.fd), closed r.1, r.2.m_clientcount, clients r.2)) =
      some (1, [7, 7], [some (.conn 0), none], -1, 0) := by
    decide
  obtain ⟨⟨t, s⟩, hs, hlog⟩ := Option.map_eq_some_iff.mp hreplay
  simp only [Prod.mk.injEq] at hlog
  exact ⟨t, s, Run.nil.replay hs, hlog⟩

/-! ## commands -/

/-- The commands that were queued in a run, in order. -/
def queued (t : List (Act × List Touch)) : List EpollRtn :=
  t.filterMap fun
    | (.queue _ cmd, _) => some cmd
    | _ => none

/-- How often the reactor has taken a command. -/
def dequeues (t : List (Act × List Touch)) : Nat :=
  t.countP fun
    | (.dequeue _, _) => true
    | _ => false

/-- As `Enabled`, and every write to the pipe succeeds. -/
def Announced (cfg : Config) (s : Server) : Act → Prop
  | .notify thread written => s.writing thread = true ∧ written = true
  | act => Enabled cfg s act

instance (cfg : Config) (s : Server) (act : Act) : Decidable (Announced cfg s act) :=
  match act with
  | .wait fds => inferInstanceAs (Decidable (Enabled cfg s (.wait fds)))
  | .event answer => inferInstanceAs (Decidable (Enabled cfg s (.event answer)))
  | .dequeue result => inferInstanceAs (Decidable (Enabled cfg s (.dequeue result)))
  | .queue thread cmd => inferInstanceAs (Decidable (Enabled cfg s (.queue thread cmd)))
  | .notify _ _ => inferInstanceAs (Decidable (_ ∧ _))

/-- The ledger of commands: each one in the queue has its byte in the pipe, or with the
reactor, or with the thread that has queued it; `m_queue_send` is what was queued and not
yet taken. -/
structure Delivered (cmds : List EpollRtn) (taken : Nat) (s : Server) : Prop where
  bytes : ∃ threads : Finset Nat, (∀ thread, s.writing thread = true ↔ thread ∈ threads) ∧
    s.m_queue_send.length = s.pipe + s.reading.toNat + threads.card
  queue : cmds.drop taken = s.m_queue_send
  taken : taken ≤ cmds.length

/-- `s'` has the queue, the pipe and the threads of `s`. -/
structure SameQueue (s s' : Server) : Prop where
  queue : s'.m_queue_send = s.m_queue_send
  pipe : s'.pipe = s.pipe
  reading : s'.reading = s.reading
  writing : s'.writing = s.writing

section

variable {cfg : Config} {callback : RecvCallback} {s s' : Server} {cmds : List EpollRtn}
  {taken fd : Nat} {touches : List Touch}

/-- Closing leaves the queue of commands alone. -/
theorem closeSocketInternal_sameQueue {cmd : Option EpollRtn}
    (hs : closeSocketInternal callback s cmd fd = .ok (s', touches)) : SameQueue s s' := by
  obtain ⟨rfl, -⟩ := closeSocketInternal_eq_ok hs
  exact ⟨rfl, rfl, rfl, rfl⟩

/-- An accept leaves the queue of commands alone. -/
theorem acceptEvent_sameQueue {result : AcceptResult}
    (hs : acceptEvent callback s result = .ok (s', touches)) : SameQueue s s' := by
  cases result with
  | failed =>
      cases hs
      exact ⟨rfl, rfl, rfl, rfl⟩
  | setupFailed fd =>
      cases hs
      exact ⟨rfl, rfl, rfl, rfl⟩
  | accepted fd =>
      obtain ⟨slot, -, hs⟩ := bind_eq_ok.mp hs
      obtain ⟨r, -, hs⟩ := bind_eq_ok.mp hs
      cases hs
      exact ⟨rfl, rfl, rfl, rfl⟩

/-- Receiving leaves the queue of commands alone. -/
theorem recvEvent_sameQueue {recv_result : RecvResult}
    (hs : recvEvent callback s fd recv_result = .ok (s', touches)) : SameQueue s s' := by
  obtain ⟨slot, -, hs⟩ := bind_eq_ok.mp hs
  obtain ⟨⟨result, slot', request⟩, -, hs⟩ := bind_eq_ok.mp hs
  simp only at hs
  split at hs
  · obtain ⟨hqueue, hpipe, hreading, hwriting⟩ := closeSocketInternal_sameQueue hs
    exact ⟨hqueue, hpipe, hreading, hwriting⟩
  · cases hs
    exact ⟨rfl, rfl, rfl, rfl⟩

/-- Dispatching a command leaves the queue of the others alone. -/
theorem dispatch_sameQueue {cmd : EpollRtn} {send_result : Option Nat}
    (hs : dispatch callback s cmd send_result = .ok (s', touches)) : SameQueue s s' := by
  obtain ⟨slot, -, hs⟩ := bind_eq_ok.mp hs
  cases slot with
  | none =>
      cases hs
      exact ⟨rfl, rfl, rfl, rfl⟩
  | some data =>
      simp only at hs
      split at hs
      · split at hs
        · split at hs
          · cases hs
            exact ⟨rfl, rfl, rfl, rfl⟩
          · obtain ⟨⟨s₁, touches₁⟩, hclose, hs⟩ := bind_eq_ok.mp hs
            cases hs
            exact closeSocketInternal_sameQueue hclose
        · exact closeSocketInternal_sameQueue hs
      · cases hs
        exact ⟨rfl, rfl, rfl, rfl⟩

/-- What was delivered does not depend on more than the queue. -/
theorem Delivered.congr (h : Delivered cmds taken s) (hsame : SameQueue s s') :
    Delivered cmds taken s' where
  bytes := by
    rw [hsame.writing, hsame.queue, hsame.pipe, hsame.reading]
    exact h.bytes
  queue := by rw [hsame.queue, h.queue]
  taken := h.taken

/-- A thread that was not at its write queues a command. -/
theorem Delivered.enqueue (h : Delivered cmds taken s) {thread : Nat} (cmd : EpollRtn)
    (hidle : s.writing thread = false) :
    Delivered (cmds ++ [cmd]) taken { s with
      m_queue_send := s.m_queue_send ++ [cmd]
      writing := update s.writing thread true } := by
  obtain ⟨threads, hwriting, hlength⟩ := h.bytes
  have hnotin : thread ∉ threads := by
    rw [← hwriting, hidle]
    exact Bool.false_ne_true
  refine ⟨⟨insert thread threads, fun i => ?_, ?_⟩, ?_, ?_⟩
  · by_cases hi : i = thread
    · simp [hi]
    · simp [hi, hwriting]
  · simp only [Finset.card_insert_of_notMem hnotin, List.length_append, List.length_singleton]
    omega
  · rw [List.drop_append_of_le_length h.taken, h.queue]
  · rw [List.length_append]
    exact Nat.le_add_right_of_le h.taken

/-- A thread writes the byte for the command that it has queued. -/
theorem Delivered.announce (h : Delivered cmds taken s) {thread : Nat}
    (hwrites : s.writing thread = true) :
    Delivered cmds taken { s with
      pipe := s.pipe + 1
      writing := update s.writing thread false } := by
  obtain ⟨threads, hwriting, hlength⟩ := h.bytes
  have hin : thread ∈ threads := (hwriting thread).mp hwrites
  refine ⟨⟨threads.erase thread, fun i => ?_, ?_⟩, h.queue, h.taken⟩
  · by_cases hi : i = thread
    · simp [hi]
    · simp [hi, hwriting]
  · have hcard := Finset.card_erase_add_one hin
    simp only at hcard ⊢
    omega

/-- The reactor reads a byte. -/
theorem Delivered.read (h : Delivered cmds taken s) (hpos : 0 < s.pipe)
    (hidle : s.reading = false) (events : List Nat) :
    Delivered cmds taken { s with events, pipe := s.pipe - 1, reading := true } := by
  obtain ⟨threads, hwriting, hlength⟩ := h.bytes
  rw [hidle] at hlength
  refine ⟨⟨threads, hwriting, ?_⟩, h.queue, h.taken⟩
  simp only [Bool.toNat_true, Bool.toNat_false] at hlength ⊢
  omega

/-- The reactor that has read a byte finds a command, the next one that was queued. -/
theorem Delivered.next (h : Delivered cmds taken s) (hreading : s.reading = true) :
    ∃ cmd rest, s.m_queue_send = cmd :: rest ∧ cmds[taken]? = some cmd ∧
      Delivered cmds (taken + 1) { s with reading := false, m_queue_send := rest } := by
  obtain ⟨threads, hwriting, hlength⟩ := h.bytes
  rw [hreading] at hlength
  cases hqueue : s.m_queue_send with
  | nil =>
      rw [hqueue, Bool.toNat_true, List.length_nil] at hlength
      omega
  | cons cmd rest =>
      have hdrop := h.queue
      rw [hqueue] at hdrop hlength
      have hget : cmds[taken]? = some cmd := by
        have := congrArg (·[0]?) hdrop
        simpa [List.getElem?_drop] using this
      refine ⟨cmd, rest, rfl, hget, ⟨threads, hwriting, ?_⟩, ?_, ?_⟩
      · simp only [List.length_cons, Bool.toNat_true, Bool.toNat_false] at hlength ⊢
        omega
      · rw [← List.tail_drop, hdrop, List.tail_cons]
      · exact (List.getElem?_eq_some_iff.mp hget).1

theorem queued_snoc (t : List (Act × List Touch)) (act : Act) (touches : List Touch) :
    queued (t ++ [(act, touches)]) =
      queued t ++ (match act with | .queue _ cmd => [cmd] | _ => []) := by
  cases act <;> simp [queued, List.filterMap_append]

theorem dequeues_snoc (t : List (Act × List Touch)) (act : Act) (touches : List Touch) :
    dequeues (t ++ [(act, touches)]) =
      dequeues t + (match act with | .dequeue _ => 1 | _ => 0) := by
  cases act <;> simp [dequeues, List.countP_append]

/-- **Step**: the ledger of commands is kept. -/
theorem Delivered.step {t : List (Act × List Touch)} (h : Delivered (queued t) (dequeues t) s)
    {act : Act} (hok : Announced cfg s act)
    (hs : HttpServer.step cfg callback s act = .ok (s', touches)) :
    Delivered (queued (t ++ [(act, touches)])) (dequeues (t ++ [(act, touches)])) s' := by
  rw [queued_snoc, dequeues_snoc]
  cases act with
  | wait fds =>
      cases hs
      simp only [List.append_nil, Nat.add_zero]
      exact h.congr ⟨rfl, rfl, rfl, rfl⟩
  | event answer =>
      obtain ⟨-, hidle, -, hbyte⟩ := hok
      simp only [List.append_nil, Nat.add_zero]
      obtain ⟨-, hr⟩ | ⟨fd, events, hevents, hcases⟩ := step_event_cases hs
      · cases hr
        exact h
      · have hbatch : Delivered (queued t) (dequeues t) { s with events } :=
          h.congr ⟨rfl, rfl, rfl, rfl⟩
        obtain ⟨-, hs⟩ | ⟨rfl, hread, hr⟩ | ⟨-, -, hr⟩ | ⟨-, -, hs⟩ := hcases
        · exact hbatch.congr (acceptEvent_sameQueue hs)
        · cases hr
          exact h.read (hbyte (by rw [hevents]; rfl) hread) hidle events
        · cases hr
          exact hbatch
        · exact hbatch.congr (recvEvent_sameQueue hs)
  | dequeue send_result =>
      obtain ⟨cmd, rest, hqueue, -, hnext⟩ := h.next hok
      unfold HttpServer.step at hs
      simp only [hqueue] at hs
      simpa using hnext.congr (dispatch_sameQueue hs)
  | queue thread cmd =>
      cases hs
      exact h.enqueue cmd hok
  | notify thread written =>
      obtain ⟨hwrites, rfl⟩ := hok
      cases hs
      simpa using h.announce hwrites

/-- **Each command is carried out once, in order.**  After every interleaving in which the
writes to the pipe succeed, the bytes in the pipe and the one that the reactor has read
are no more than the queued commands; the reactor that has read a byte finds a command,
namely the `n`-th that was queued when it has taken `n` before; the queue holds those
that were queued and not yet taken; and nothing is left in it when no byte is on its way. -/
theorem commands_once_in_order {t : List (Act × List Touch)}
    (h : Run (HttpServer.step cfg callback) (Announced cfg) (init cfg) t s) :
    s.pipe + s.reading.toNat ≤ s.m_queue_send.length ∧
      (s.reading = true → ∃ cmd, (queued t)[dequeues t]? = some cmd ∧
        ∀ send_result, HttpServer.step cfg callback s (.dequeue send_result) =
          dispatch callback { s with
            reading := false
            m_queue_send := (queued t).drop (dequeues t + 1) } cmd send_result) ∧
      queued t = (queued t).take (dequeues t) ++ s.m_queue_send ∧
      ((queued t).take (dequeues t)).length = dequeues t ∧
      (s.pipe = 0 → s.reading = false → (∀ thread, s.writing thread = false) →
        dequeues t = (queued t).length) := by
  have hinit : Delivered [] 0 (init cfg) := ⟨⟨∅, by simp [init], rfl⟩, rfl, Nat.le_refl 0⟩
  have hledger : Delivered (queued t) (dequeues t) s :=
    h.invariant (I := fun t s => Delivered (queued t) (dequeues t) s) hinit
      fun t s act s' touches hI hok hs => hI.step hok hs
  obtain ⟨threads, hwriting, hlength⟩ := hledger.bytes
  refine ⟨by omega, ?_, ?_, ?_, ?_⟩
  · intro hreading
    obtain ⟨cmd, rest, hqueue, hget, hnext⟩ := hledger.next hreading
    refine ⟨cmd, hget, fun send_result => ?_⟩
    simp only [HttpServer.step, hqueue, hnext.queue]
  · rw [← hledger.queue, List.take_append_drop]
  · rw [List.length_take, Nat.min_eq_left hledger.taken]
  · intro hpipe hreading hnone
    have hthreads : threads = ∅ := by
      refine Finset.eq_empty_of_forall_notMem fun thread hthread => ?_
      rw [← hwriting, hnone] at hthread
      exact Bool.false_ne_true hthread
    rw [hpipe, hreading, hthreads, ← hledger.queue, List.length_drop] at hlength
    have := hledger.taken
    simp only [Bool.toNat_false, Finset.card_empty] at hlength
    omega

end

/-- Two threads overtake each other between the queue and the pipe. -/
theorem commands_once_in_order_two :
    ∃ t s, Run (step smallConfig (httpCallback id fun _ => none)) (Announced smallConfig)
        (init smallConfig) t s ∧
      (queued t).map (·.cmd_type) = [.close, .send] ∧ s.m_queue_send.length = 1 ∧
      s.reading = true ∧ s.pipe + s.reading.toNat ≤ s.m_queue_send.length := by
  have hreplay : (replay (step smallConfig (httpCallback id fun _ => none))
      (Announced smallConfig) (init smallConfig) (reuseActs.take 15)).map (fun r =>
        ((queued r.1).map (·.cmd_type), r.2.m_queue_send.length, r.2.reading)) =
      some ([.close, .send], 1, true) := by
    decide
  obtain ⟨⟨t, s⟩, hs, hlog⟩ := Option.map_eq_some_iff.mp hreplay
  simp only [Prod.mk.injEq] at hlog
  have hrun := Run.nil.replay hs
  exact ⟨t, s, hrun, hlog.1, hlog.2.1, hlog.2.2, (commands_once_in_order hrun).1⟩

end HttpServer
end MySrc
