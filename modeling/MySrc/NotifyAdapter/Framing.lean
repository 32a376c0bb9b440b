import MySrc.NotifyAdapter.TcpServerManager

/-!
# MySrc.NotifyAdapter.Framing

How `dealwith_recv` cuts the bytes of a connection into frames.  The peer has sent
a list of frames; each event of the connection lets one call of `read` or `recv`
return some of the bytes that were not read before, at least one and at most what
was asked for, or nothing yet.

A body is received into a buffer of 4096 bytes, and a call that fills what it has
asked for is taken for the end of the body.  So a call that fills the buffer while
more of the body is missing hands an incomplete frame to the callback:
`framing_lossless` says that nothing else goes wrong.
-/

namespace MySrc
namespace NotifyAdapter
namespace Framing

open Lib ProtocolCodec

/-! ## frames -/

/-- A frame with a body that the decoder accepts. -/
structure Frame where
  version : UInt16
  body : Str
  nonempty : 1 ≤ body.length
  short : body.length < 5000

/-- The version, the length of the body, both in network order, and the body. -/
def Frame.bytes (f : Frame) : Str :=
  netBytes 2 f.version.toNat ++ netBytes 2 f.body.length ++ f.body

theorem Frame.length_bytes (f : Frame) : f.bytes.length = f.body.length + 4 := by
  simp only [Frame.bytes, List.length_append, length_netBytes]
  omega

/-- The length in the head of a frame, read from any part of the frame that has the head. -/
theorem Frame.head_word (f : Frame) {data : Str} (hdata : data <+: f.bytes)
    (hlen : 4 ≤ data.length) :
    hton16 .little (loadWord .little ((data.drop 2).take 2)) = f.body.length := by
  have hword : (data.drop 2).take 2 = netBytes 2 f.body.length := by
    obtain ⟨rest, hrest⟩ := hdata
    have hsame : ((data ++ rest).drop 2).take 2 = (data.drop 2).take 2 := by
      rw [List.drop_append_of_le_length (by omega),
        List.take_append_of_le_length (by rw [List.length_drop]; omega)]
    rw [← hsame, hrest, Frame.bytes, List.append_assoc, List.drop_left' (length_netBytes _ _),
      List.take_left' (length_netBytes _ _)]
  have hshort := f.short
  have hmod : f.body.length % 256 ^ 2 = f.body.length := Nat.mod_eq_of_lt (by omega)
  rw [hword, hton16_loadWord_little (length_netBytes _ _), ofNetBytes_netBytes, hmod]

/-- A part of a frame that has the head tells the length of the body. -/
theorem Frame.getBodyLength_part (f : Frame) {data : Str} (hdata : data <+: f.bytes)
    (hlen : 4 ≤ data.length) :
    getBodyLength .little data (i32 data.length) = f.body.length := by
  have hle := hdata.length_le
  have hshort := f.short
  rw [f.length_bytes] at hle
  have hint : i32 (data.length : Int) = data.length := i32_eq_self ⟨by omega, by omega⟩
  rw [hint, getBodyLength_eq (by omega) (f.head_word hdata hlen), if_pos ⟨f.nonempty, f.short⟩]

/-- A frame gives its body back. -/
theorem Frame.getBody_bytes (f : Frame) :
    getBody .little f.bytes (i32 f.bytes.length) [] = (0, f.body) := by
  have hlen := f.length_bytes
  have hdrop : f.bytes.drop 4 = f.body := by
    have hhead : (netBytes 2 f.version.toNat ++ netBytes 2 f.body.length).length = 4 := by
      rw [List.length_append, length_netBytes, length_netBytes]
    rw [Frame.bytes, List.drop_left' hhead]
  have hbody := (getBody_eq ⟨f.nonempty, f.short⟩ hlen
    (f.head_word List.prefix_rfl (by omega))).2
  rwa [hdrop] at hbody

/-- A part of a frame does not. -/
theorem Frame.getBody_part (f : Frame) {data : Str} (hdata : data <+: f.bytes)
    (hlen : 4 ≤ data.length) (hlt : data.length < f.bytes.length) :
    getBody .little data (i32 data.length) [] = (-1, []) := by
  have hlength := f.getBodyLength_part hdata hlen
  have hbytes := f.length_bytes
  have hshort := f.short
  have hint : i32 (data.length : Int) = data.length := i32_eq_self ⟨by omega, by omega⟩
  rw [hint] at hlength ⊢
  have hne : (f.body.length : Int) ≠ -1 := by omega
  have hsize : (data.length : Int) ≠ f.body.length + (getHeadLength : Nat) := by
    simp only [getHeadLength]
    omega
  rw [getBody, hlength, if_neg hne, if_pos hsize]

/-! ## one connection -/

/-- A connection, with the bytes that its peer has sent and that were not read. -/
structure Link where
  client : SocketClient
  incoming : Str
  isOpen : Bool

/-- An event of the connection: the number of bytes that the call returns, if any, and the
callback of that moment. -/
structure Arrival where
  count : Option Nat
  callback : NotifyCallback

/-- What the call asks for. -/
def sizeAsked (pclient : SocketClient) : Nat :=
  if pclient.m_data_recv.length < getHeadLength then getHeadLength - pclient.m_data_recv.length
  else (bodyNeedtoRecved pclient).toNat

/-- An event, with the call of the callback. -/
def step (l : Link) (arrival : Arrival) :
    Except Fault (Link × Option (SocketClient × Notified)) :=
  match arrival.count with
  | none =>
      let (result, client, called) := dealwithRecv arrival.callback l.client .again
      .ok ({ l with client, isOpen := result ≠ -1 }, called)
  | some n =>
      let (result, client, called) :=
        dealwithRecv arrival.callback l.client (.bytes (l.incoming.take n))
      .ok (⟨client, l.incoming.drop n, result ≠ -1⟩, called)

theorem step_total (l : Link) (arrival : Arrival) :
    ∃ l' out, step l arrival = .ok (l', out) := by
  unfold step
  split <;> exact ⟨_, _, rfl⟩

/-- The call returns between one byte and what was asked, or `EAGAIN`. -/
def Possible (l : Link) (arrival : Arrival) : Prop :=
  l.isOpen = true ∧ ∀ n ∈ arrival.count,
    1 ≤ n ∧ n ≤ sizeAsked l.client ∧ n ≤ l.incoming.length

instance (l : Link) (arrival : Arrival) : Decidable (Possible l arrival) :=
  inferInstanceAs (Decidable (_ ∧ _))

/-- The call fills the buffer while more of the body is missing. -/
def capped (l : Link) (arrival : Arrival) : Bool :=
  getHeadLength ≤ l.client.m_data_recv.length && arrival.count = some bodyBuffer &&
    (bodyBuffer : Int) < bodyMissing l.client

/-- What the callback was called with, in order. -/
def calledWith (t : List (Arrival × Option (SocketClient × Notified))) : List Str :=
  t.filterMap fun p => p.2.map (·.1.m_data_recv)

def stream (frames : List Frame) : Str := (frames.map Frame.bytes).flatten

/-! ## the invariant -/

/-- The frames that were handed over, and those of which less than the first was read. -/
structure Cut (frames : List Frame) (t : List (Arrival × Option (SocketClient × Notified)))
    (l : Link) (done todo : List Frame) : Prop where
  frames : frames = done ++ todo
  calls : calledWith t = done.map Frame.bytes
  rest : l.isOpen = true → l.client.m_data_recv ++ l.incoming = stream todo ∧
    ∀ f ∈ todo.head?, l.client.m_data_recv.length < f.bytes.length
  shut : l.isOpen = false → ∃ arrival c notified,
    t.getLast? = some (arrival, some (c, notified)) ∧ notified.result ≠ tcpCheckOk

section

variable {frames done todo : List Frame} {l l' : Link} {arrival : Arrival}
  {t : List (Arrival × Option (SocketClient × Notified))}
  {out : Option (SocketClient × Notified)}

theorem calledWith_snoc (t : List (Arrival × Option (SocketClient × Notified)))
    (arrival : Arrival) (out : Option (SocketClient × Notified)) :
    calledWith (t ++ [(arrival, out)]) =
      calledWith t ++ (out.map (·.1.m_data_recv)).toList := by
  cases out <;> simp [calledWith, List.filterMap_append]

/-- What has been read of the next frame. -/
theorem Cut.part (h : Cut frames t l done todo) (hopen : l.isOpen = true) {f : Frame}
    {rest : List Frame} (htodo : todo = f :: rest) :
    l.client.m_data_recv <+: f.bytes ∧ l.client.m_data_recv.length < f.bytes.length := by
  obtain ⟨hstream, hlt⟩ := h.rest hopen
  have hlt := hlt f (by rw [htodo]; rfl)
  refine ⟨?_, hlt⟩
  have hpre : l.client.m_data_recv <+: f.bytes ++ stream rest := by
    rw [htodo] at hstream
    exact ⟨l.incoming, by simpa [stream] using hstream⟩
  exact List.prefix_of_prefix_length_le hpre (List.prefix_append _ _)
    (Nat.le_of_lt hlt)

/-- There is a next frame when a head has been read, or when there are bytes to read. -/
theorem Cut.next (h : Cut frames t l done todo) (hopen : l.isOpen = true)
    (hsome : 4 ≤ l.client.m_data_recv.length ∨ 1 ≤ l.incoming.length) :
    ∃ f rest, todo = f :: rest := by
  cases todo with
  | nil =>
      have hnil := congrArg List.length (h.rest hopen).1
      simp only [stream, List.map_nil, List.flatten_nil, List.length_append,
        List.length_nil] at hnil
      omega
  | cons f rest => exact ⟨f, rest, rfl⟩

/-- A head that has been read is valid. -/
theorem Cut.head_valid (h : Cut frames t l done todo) (hopen : l.isOpen = true)
    (hlen : 4 ≤ l.client.m_data_recv.length) :
    getBodyLength .little l.client.m_data_recv (i32 l.client.m_data_recv.length) ≠ -1 := by
  obtain ⟨f, rest, htodo⟩ := h.next hopen (.inl hlen)
  rw [f.getBodyLength_part (h.part hopen htodo).1 hlen]
  omega

/-- What is missing of the body is what is missing of the frame. -/
theorem bodyMissing_eq {c : SocketClient} {f : Frame} (hpre : c.m_data_recv <+: f.bytes)
    (hlen : 4 ≤ c.m_data_recv.length) :
    bodyMissing c = f.bytes.length - c.m_data_recv.length := by
  rw [bodyMissing, f.getBodyLength_part hpre hlen, f.length_bytes]
  simp only [getHeadLength]
  omega

/-- **More bytes** that do not complete the frame are kept. -/
theorem Cut.more (h : Cut frames t l done todo) (hopen : l.isOpen = true) {n : Nat}
    (hn : n ≤ l.incoming.length)
    (hlt : ∀ f ∈ todo.head?, l.client.m_data_recv.length + n < f.bytes.length) :
    Cut frames (t ++ [(arrival, none)])
      ⟨{ l.client with m_data_recv := l.client.m_data_recv ++ l.incoming.take n },
        l.incoming.drop n, true⟩ done todo := by
  obtain ⟨hstream, -⟩ := h.rest hopen
  refine ⟨h.frames, ?_, fun _ => ⟨?_, fun f hf => ?_⟩, nofun⟩
  · rw [calledWith_snoc, h.calls]
    exact List.append_nil _
  · rw [List.append_assoc, List.take_append_drop, hstream]
  · rw [List.length_append, List.length_take, Nat.min_eq_left hn]
    exact hlt f hf

/-- **A complete frame** is handed over. -/
theorem Cut.complete (h : Cut frames t l done todo) (hopen : l.isOpen = true) {f : Frame}
    {rest : List Frame} (htodo : todo = f :: rest) {n : Nat} (hn : n ≤ l.incoming.length)
    (hlen : l.client.m_data_recv.length + n = f.bytes.length) :
    l.client.m_data_recv ++ l.incoming.take n = f.bytes ∧ l.incoming.drop n = stream rest := by
  have hsplit : (l.client.m_data_recv ++ l.incoming.take n) ++ l.incoming.drop n =
      f.bytes ++ stream rest := by
    rw [List.append_assoc, List.take_append_drop, (h.rest hopen).1, htodo]
    simp [stream]
  refine List.append_inj hsplit ?_
  rw [List.length_append, List.length_take, Nat.min_eq_left hn, hlen]

/-- The callback takes a complete frame, or refuses it for a reason of its own. -/
theorem Cut.call (h : Cut frames t l done todo) {f : Frame} {rest : List Frame}
    (htodo : todo = f :: rest) {c : SocketClient} {notified : Notified}
    (hdata : c.m_data_recv = f.bytes) :
    (notified.result = tcpCheckOk → Cut frames (t ++ [(arrival, some (c, notified))])
        ⟨{ c with m_data_recv := [] }, stream rest, true⟩ (done ++ [f]) rest) ∧
      (notified.result ≠ tcpCheckOk → ∀ incoming,
        Cut frames (t ++ [(arrival, some (c, notified))]) ⟨c, incoming, false⟩
          (done ++ [f]) rest) := by
  have hframes : frames = (done ++ [f]) ++ rest := by
    rw [h.frames, htodo, List.append_assoc, List.singleton_append]
  have hcalls : calledWith (t ++ [(arrival, some (c, notified))]) =
      (done ++ [f]).map Frame.bytes := by
    rw [calledWith_snoc, h.calls, List.map_append]
    simp only [Option.map_some, Option.toList_some, hdata, List.map_cons, List.map_nil]
  refine ⟨fun _ => ⟨hframes, hcalls, fun _ => ⟨rfl, ?_⟩, nofun⟩,
    fun hresult incoming => ⟨hframes, hcalls, nofun, fun _ => ⟨arrival, c, notified, ?_, hresult⟩⟩⟩
  · intro f' _
    rw [f'.length_bytes]
    exact Nat.succ_pos _
  · exact List.getLast?_concat ..

/-- **Step**: an event keeps the cut, unless it fills the buffer too early. -/
theorem Cut.step (h : Cut frames t l done todo) (hpossible : Possible l arrival)
    (hcapped : capped l arrival = false) (hs : step l arrival = .ok (l', out)) :
    ∃ done' todo', Cut frames (t ++ [(arrival, out)]) l' done' todo' := by
  obtain ⟨hopen, hcount⟩ := hpossible
  cases hn : arrival.count with
  | none =>
      have hagain : dealwithRecv arrival.callback l.client .again = (0, l.client, none) := by
        unfold dealwithRecv
        split
        · rfl
        · next hlen => rw [if_neg (h.head_valid hopen (Nat.not_lt.mp hlen))]
      simp only [Framing.step, hn, hagain] at hs
      cases hs
      refine ⟨done, todo, h.frames, ?_, fun _ => h.rest hopen, nofun⟩
      rw [calledWith_snoc, h.calls]
      exact List.append_nil _
  | some n =>
      obtain ⟨hpos, hasked, havail⟩ := hcount n hn
      obtain ⟨f, rest, htodo⟩ := h.next hopen (.inr (by omega))
      obtain ⟨hpre, hshorter⟩ := h.part hopen htodo
      have hsize : (l.incoming.take n).length = n := by
        rw [List.length_take, Nat.min_eq_left havail]
      have hmore : l.client.m_data_recv.length + n < f.bytes.length →
          ∀ f' ∈ todo.head?, l.client.m_data_recv.length + n < f'.bytes.length := by
        intro hlt f' hf'
        rw [htodo] at hf'
        obtain rfl := Option.some.inj hf'
        exact hlt
      by_cases hlen : l.client.m_data_recv.length < getHeadLength
      · -- the head
        rw [sizeAsked, if_pos hlen] at hasked
        simp only [Framing.step, hn, dealwithRecv, if_pos hlen] at hs
        cases hs
        have hbytes := f.length_bytes
        have hone := f.nonempty
        simp only [getHeadLength] at hlen hasked
        exact ⟨done, todo, h.more hopen havail (hmore (by omega))⟩
      · -- the body
        rw [sizeAsked, if_neg hlen] at hasked
        have hlen' : 4 ≤ l.client.m_data_recv.length := Nat.not_lt.mp hlen
        have hvalid := h.head_valid hopen hlen'
        have hmissing := bodyMissing_eq hpre hlen'
        have hneeded : bodyNeedtoRecved l.client =
            min (f.bytes.length - l.client.m_data_recv.length : Int) (bodyBuffer : Nat) := by
          rw [bodyNeedtoRecved, hmissing]
        simp only [Framing.step, hn, dealwithRecv, if_neg hlen, if_neg hvalid, hsize] at hs
        split at hs
        · next hless =>
            cases hs
            exact ⟨done, todo, h.more hopen havail (hmore (by omega))⟩
        · next hfull =>
            have hall : l.client.m_data_recv.length + n = f.bytes.length := by
              have hcap : ¬ ((n = bodyBuffer) ∧ (bodyBuffer : Int) < bodyMissing l.client) := by
                rintro ⟨rfl, hlt⟩
                simp [capped, hn, hlt, Nat.not_lt.mp hlen] at hcapped
              rw [hmissing] at hcap
              omega
            obtain ⟨hdata, hrest⟩ := h.complete hopen htodo havail hall
            split at hs
            · next hresult =>
                cases hs
                exact ⟨_, _, (h.call htodo hdata).2 hresult _⟩
            · next hresult =>
                cases hs
                rw [hrest]
                exact ⟨_, _, (h.call htodo hdata).1 (not_not.mp hresult)⟩

/-- A call that fills the buffer too early hands an incomplete frame to the callback. -/
theorem Cut.capped_step (h : Cut frames t l done todo) (hpossible : Possible l arrival)
    (hcapped : capped l arrival = true) (hs : Framing.step l arrival = .ok (l', out)) :
    ∃ c, out = some (c, arrival.callback .dataRecv c) ∧
      c.m_data_recv = l.client.m_data_recv ++ l.incoming.take bodyBuffer ∧
      c.m_is_authed = l.client.m_is_authed ∧
      getBody .little c.m_data_recv (i32 c.m_data_recv.length) [] = (-1, []) ∧
      ((arrival.callback .dataRecv c).result ≠ tcpCheckOk → l'.isOpen = false) := by
  obtain ⟨hopen, hcount⟩ := hpossible
  simp only [capped, Bool.and_eq_true, decide_eq_true_eq] at hcapped
  obtain ⟨⟨hlen, hn⟩, hmissing⟩ := hcapped
  obtain ⟨-, -, havail⟩ := hcount _ hn
  obtain ⟨hstream, -⟩ := h.rest hopen
  obtain ⟨f, rest, htodo⟩ := h.next hopen (.inl hlen)
  obtain ⟨hpre, -⟩ := h.part hopen htodo
  have hmissing' := bodyMissing_eq hpre hlen
  have hvalid := h.head_valid hopen hlen
  have hsize : (l.incoming.take bodyBuffer).length = bodyBuffer := by
    rw [List.length_take, Nat.min_eq_left havail]
  have hfull : ¬ ((bodyBuffer : Nat) : Int) < bodyNeedtoRecved l.client := by
    rw [bodyNeedtoRecved]
    omega
  have hdata : l.client.m_data_recv ++ l.incoming.take bodyBuffer <+: f.bytes := by
    have hall : l.client.m_data_recv ++ l.incoming.take bodyBuffer <+: f.bytes ++ stream rest := by
      refine ⟨l.incoming.drop bodyBuffer, ?_⟩
      rw [List.append_assoc, List.take_append_drop, hstream, htodo]
      simp [stream]
    refine List.prefix_of_prefix_length_le hall (List.prefix_append _ _) ?_
    rw [List.length_append, hsize]
    omega
  have hpart : getBody .little (l.client.m_data_recv ++ l.incoming.take bodyBuffer)
      (i32 (l.client.m_data_recv ++ l.incoming.take bodyBuffer).length) [] = (-1, []) := by
    refine f.getBody_part hdata ?_ ?_
    · rw [List.length_append]
      exact Nat.le_add_right_of_le hlen
    · rw [List.length_append, hsize]
      omega
  simp only [Framing.step, hn, dealwithRecv, if_neg (Nat.not_lt.mpr hlen), if_neg hvalid, hsize,
    if_neg hfull] at hs
  split at hs
  · cases hs
    exact ⟨_, rfl, rfl, rfl, hpart, fun _ => rfl⟩
  · next hresult =>
      cases hs
      exact ⟨_, rfl, rfl, rfl, hpart, fun hne => absurd hne hresult⟩

theorem Cut.start (frames : List Frame) {c : SocketClient} (hc : c.m_data_recv = []) :
    Cut frames [] ⟨c, stream frames, true⟩ [] frames where
  frames := rfl
  calls := rfl
  rest _ := by
    refine ⟨by rw [hc, List.nil_append], fun f _ => ?_⟩
    rw [hc, f.length_bytes]
    exact Nat.succ_pos _
  shut := nofun

/-- **Framing**: whatever the calls return, as long as none fills the buffer while more of
a body is missing, the callback has been called with the frames up to some point, each
once and in order, each gives its body, less than one more frame was read, all were
handed over when everything is read, and the connection is closed only after the callback
has refused a complete frame; and a call that fills the buffer too early makes the
callback see a part of a frame that `get_body` refuses. -/
theorem framing_lossless (frames : List Frame) {c₀ : SocketClient} (hc₀ : c₀.m_data_recv = [])
    {t : List (Arrival × Option (SocketClient × Notified))} {l : Link}
    (h : Run Framing.step (fun l arrival => Possible l arrival ∧ capped l arrival = false)
      ⟨c₀, stream frames, true⟩ t l) :
    (∃ done todo, frames = done ++ todo ∧ calledWith t = done.map Frame.bytes ∧
      (∀ f ∈ done, getBody .little f.bytes (i32 f.bytes.length) [] = (0, f.body)) ∧
      (l.isOpen = true → l.client.m_data_recv ++ l.incoming = stream todo ∧
        (∀ f ∈ todo.head?, l.client.m_data_recv.length < f.bytes.length) ∧
        (l.incoming = [] → todo = [])) ∧
      (l.isOpen = false → ∃ arrival c notified,
        t.getLast? = some (arrival, some (c, notified)) ∧ notified.result ≠ tcpCheckOk)) ∧
    ∀ arrival l' out, Possible l arrival → capped l arrival = true →
      Framing.step l arrival = .ok (l', out) → ∃ c notified, out = some (c, notified) ∧
        getBody .little c.m_data_recv (i32 c.m_data_recv.length) [] = (-1, []) := by
  obtain ⟨done, todo, hcut⟩ : ∃ done todo, Cut frames t l done todo := by
    refine h.invariant (I := fun t l => ∃ done todo, Cut frames t l done todo)
      ⟨[], frames, Cut.start frames hc₀⟩ ?_
    rintro t l arrival l' out ⟨done, todo, hI⟩ hok hs
    exact hI.step hok.1 hok.2 hs
  refine ⟨⟨done, todo, hcut.frames, hcut.calls, fun f _ => f.getBody_bytes, fun hopen => ?_,
    hcut.shut⟩, fun arrival l' out hpossible hcapped hs => ?_⟩
  · obtain ⟨hstream, hlt⟩ := hcut.rest hopen
    refine ⟨hstream, hlt, fun hempty => ?_⟩
    cases todo with
    | nil => rfl
    | cons f rest =>
        have hlen := congrArg List.length hstream
        have := hlt f rfl
        simp only [hempty, stream, List.map_cons, List.flatten_cons, List.length_append,
          List.length_nil] at hlen
        omega
  · obtain ⟨c, hout, -, -, hbody, -⟩ := hcut.capped_step hpossible hcapped hs
    exact ⟨c, _, hout, hbody⟩

end

/-- A client as `new_connect_callback` makes it, but authenticated. -/
def authedClient : SocketClient := ⟨7, 0x700000001, [], true, [97], 0⟩

/-- A frame with two bytes arrives in four pieces. -/
theorem framing_lossless_pieces :
    ∃ t l, Run step (fun l arrival => Possible l arrival ∧ capped l arrival = false)
        ⟨authedClient, stream [⟨0, [97, 98], by decide, by decide⟩], true⟩ t l ∧
      calledWith t = [[0, 0, 0, 2, 97, 98]] ∧ l.isOpen = true ∧ l.incoming = [] ∧
      ∃ done todo, [⟨0, [97, 98], by decide, by decide⟩] = done ++ todo ∧
        calledWith t = done.map Frame.bytes := by
  have hreplay : (replay step (fun l arrival => Possible l arrival ∧ capped l arrival = false)
      ⟨authedClient, stream [⟨0, [97, 98], by decide, by decide⟩], true⟩
      ([some 3, none, some 1, some 1, some 1].map fun count =>
        ⟨count, dataNotifyCallback id []⟩)).map
        (fun r => (calledWith r.1, r.2.isOpen, r.2.incoming)) =
      some ([[0, 0, 0, 2, 97, 98]], true, []) := by
    decide +kernel
  obtain ⟨⟨t, l⟩, hs, hlog⟩ := Option.map_eq_some_iff.mp hreplay
  simp only [Prod.mk.injEq] at hlog
  have hrun := Run.nil.replay hs
  obtain ⟨⟨done, todo, hframes, hcalls, -⟩, -⟩ := framing_lossless _ rfl hrun
  exact ⟨t, l, hrun, hlog.1, hlog.2.1, hlog.2.2, done, todo, hframes, hcalls⟩

/-- A frame with a body of 4097 bytes. -/
def longFrame : Frame :=
  ⟨0, List.replicate 4097 97, by rw [List.length_replicate]; decide,
    by rw [List.length_replicate]; decide⟩

theorem length_longFrame : longFrame.bytes.length = 4101 := by
  rw [longFrame.length_bytes, longFrame, List.length_replicate]

/-- An event that returns `n` bytes to the adapter. -/
def arrive (n : Nat) : Arrival := ⟨some n, dataNotifyCallback id []⟩

/-- The connection after the head of `longFrame`. -/
def headRead : Link :=
  ⟨{ authedClient with m_data_recv := longFrame.bytes.take 4 }, longFrame.bytes.drop 4, true⟩

/-- The head of `longFrame` is read, then the buffer is filled: the callback is called with
4100 of the 4101 bytes, `get_body` refuses them, and the connection is closed. -/
theorem long_frame_refused :
    ∃ t l data, Run step Possible ⟨authedClient, stream [longFrame], true⟩ t l ∧
      calledWith t = [data] ∧ data ≠ longFrame.bytes ∧
      getBody .little data (i32 data.length) [] = (-1, []) ∧ l.isOpen = false := by
  have hbytes := length_longFrame
  have hstream : stream [longFrame] = longFrame.bytes := by simp [stream]
  rw [hstream]
  have hhead : Possible ⟨authedClient, longFrame.bytes, true⟩ (arrive 4) := by
    refine ⟨rfl, fun n hn => ?_⟩
    obtain rfl := Option.some.inj hn
    exact ⟨by decide, by decide, by simp only [hbytes]; decide⟩
  have hs₁ : step ⟨authedClient, longFrame.bytes, true⟩ (arrive 4) = .ok (headRead, none) := rfl
  have hcut : Cut [longFrame] [] headRead [] [longFrame] := by
    refine ⟨rfl, rfl, fun _ => ⟨?_, fun f hf => ?_⟩, nofun⟩
    · rw [hstream]
      exact List.take_append_drop 4 _
    · obtain rfl := Option.some.inj hf
      rw [hbytes, headRead, List.length_take, hbytes]
      decide
  have hfour : headRead.client.m_data_recv.length = 4 := by
    rw [headRead, List.length_take, hbytes]
    rfl
  have hmissing : bodyMissing headRead.client = 4097 := by
    rw [bodyMissing_eq (hcut.part rfl rfl).1 (Nat.le_of_eq hfour.symm), hbytes, hfour]
    rfl
  have hfill : Possible headRead (arrive bodyBuffer) := by
    refine ⟨rfl, fun n hn => ?_⟩
    obtain rfl := Option.some.inj hn
    refine ⟨by decide, ?_, ?_⟩
    · rw [sizeAsked, hfour, bodyNeedtoRecved, hmissing]
      decide
    · rw [headRead, List.length_drop, hbytes]
      decide
  have hcapped : capped headRead (arrive bodyBuffer) = true := by
    rw [capped, hfour, hmissing]
    rfl
  obtain ⟨l, out, hs₂⟩ := step_total headRead (arrive bodyBuffer)
  obtain ⟨c, rfl, -, -, hbody, hclosed⟩ := hcut.capped_step hfill hcapped hs₂
  have hrefused : ((arrive bodyBuffer).callback .dataRecv c).result ≠ tcpCheckOk := by
    have hanswer : (arrive bodyBuffer).callback .dataRecv c = ⟨tcpCheckError, [], []⟩ :=
      dataNotifyCallback_of_getBody id [] hbody
    rw [hanswer]
    decide
  refine ⟨_, l, c.m_data_recv, (Run.nil.snoc hhead hs₁).snoc hfill hs₂, rfl, fun heq => ?_, hbody,
    hclosed hrefused⟩
  rw [heq, longFrame.getBody_bytes] at hbody
  cases hbody

end Framing
end NotifyAdapter
end MySrc
