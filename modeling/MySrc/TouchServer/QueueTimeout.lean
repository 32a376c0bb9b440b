import MySrc.Lib.Run

/-!
# MySrc.TouchServer.QueueTimeout

How long a request has waited, in `xlgame_touch_server`: `http_manager` notes the time
when it puts a request into the queue, and `check_request_queued_timeout` of
`main/dispatcher.cpp` drops one that has waited longer than a threshold.

The clock, `SDUtility::get_cur_millseconds`, counts milliseconds modulo `2 ^ 32`, and its
readings are kept and subtracted as 64-bit words.  For a request that waits while the
clock turns over the difference is not its age but nearly `2 ^ 64`.
-/

namespace MySrc
namespace TouchServer
namespace QueueTimeout

/-! ## the clock -/

/-- `struct timeval`, as `gettimeofday` fills it. -/
structure Timeval where
  tv_sec : Int
  tv_usec : Int
  usec_range : 0 ≤ tv_usec ∧ tv_usec < 10 ^ 6

/-- The milliseconds of a time: `tv_sec * 1000` fits into a `long` for millions of years. -/
def Timeval.millis (now : Timeval) : Int := now.tv_sec * 1000 + now.tv_usec / 1000

/-- `SDUtility::get_cur_millseconds` -/
def getCurMillseconds (now : Timeval) : UInt32 := UInt32.ofInt now.millis

theorem toNat_getCurMillseconds (now : Timeval) :
    ((getCurMillseconds now).toNat : Int) = now.millis % 2 ^ 32 := by
  have hpos : 0 ≤ now.millis % 2 ^ 32 := Int.emod_nonneg _ (by decide)
  have hlt : now.millis % 2 ^ 32 < 2 ^ 32 := Int.emod_lt_of_pos _ (by decide)
  rw [getCurMillseconds, UInt32.ofInt, UInt32.toNat_ofNat']
  omega

/-! ## requests -/

/-- The times of an `HttpRequestPacket`. -/
structure HttpRequestPacket where
  m_addqueue_time_millsec : UInt64
  m_dequeue_time_millsec : UInt64
  m_response_time_millsec : UInt64
  deriving Repr, DecidableEq

/-- `http_manager::parse_http_request`, where it puts the request into the queue. -/
def addQueue (now : Timeval) (prquest : HttpRequestPacket) : HttpRequestPacket :=
  { prquest with m_addqueue_time_millsec := (getCurMillseconds now).toUInt64 }

/-- `dispatcher::check_request_queued_timeout` -/
def checkRequestQueuedTimeout (m_queue_delay_drop_threashold : UInt64) (now : Timeval)
    (prequest : HttpRequestPacket) : Int × HttpRequestPacket :=
  let currenttime_millsec := (getCurMillseconds now).toUInt64
  let prequest := { prequest with m_dequeue_time_millsec := currenttime_millsec }
  if currenttime_millsec - prequest.m_addqueue_time_millsec > m_queue_delay_drop_threashold then
    (-1, { prequest with m_response_time_millsec := currenttime_millsec })
  else (0, prequest)

/-- The time that the function finds a request has been queued. -/
def queuedTime (queued dequeued : Timeval) : UInt64 :=
  (getCurMillseconds dequeued).toUInt64 - (getCurMillseconds queued).toUInt64

theorem checkRequestQueuedTimeout_eq_neg_one (m_queue_delay_drop_threashold : UInt64)
    (queued dequeued : Timeval) (prequest : HttpRequestPacket) :
    (checkRequestQueuedTimeout m_queue_delay_drop_threashold dequeued
        (addQueue queued prequest)).1 = -1 ↔
      m_queue_delay_drop_threashold.toNat < (queuedTime queued dequeued).toNat := by
  rw [← UInt64.lt_iff_toNat_lt, checkRequestQueuedTimeout, addQueue]
  split
  · next h => simpa [queuedTime] using h
  · next h => simpa [queuedTime] using h

/-! ## waiting -/

theorem toNat_queuedTime (queued dequeued : Timeval) :
    ((queuedTime queued dequeued).toNat : Int) =
      (2 ^ 64 - queued.millis % 2 ^ 32 + dequeued.millis % 2 ^ 32) % 2 ^ 64 := by
  have hq := toNat_getCurMillseconds queued
  have hd := toNat_getCurMillseconds dequeued
  have hlt := (getCurMillseconds queued).toNat_lt
  rw [queuedTime, UInt64.toNat_sub, UInt32.toNat_toUInt64, UInt32.toNat_toUInt64]
  omega

/-- As long as the clock does not turn over, the time queued is the time waited. -/
theorem toNat_queuedTime_of_lt {queued dequeued : Timeval} {d : Nat}
    (hwait : dequeued.millis = queued.millis + d) (h : queued.millis % 2 ^ 32 + d < 2 ^ 32) :
    (queuedTime queued dequeued).toNat = d := by
  have := toNat_queuedTime queued dequeued
  omega

/-- When it does, once, the time queued is out of all proportion. -/
theorem toNat_queuedTime_of_wrap {queued dequeued : Timeval} {d : Nat}
    (hwait : dequeued.millis = queued.millis + d) (hd : d < 2 ^ 31)
    (h : 2 ^ 32 ≤ queued.millis % 2 ^ 32 + d) :
    (queuedTime queued dequeued).toNat = 2 ^ 64 - 2 ^ 32 + d := by
  have := toNat_queuedTime queued dequeued
  omega

/-- **Dropping by age.**  A request that has waited `d` milliseconds is dropped just when
`d` is above the threshold, if and only if the clock did not turn over in between or the
request is too old anyway. -/
theorem checkRequestQueuedTimeout_iff {m_queue_delay_drop_threashold : UInt64}
    {queued dequeued : Timeval} {d : Nat} (hwait : dequeued.millis = queued.millis + d)
    (hd : d < 2 ^ 31) (hthreashold : m_queue_delay_drop_threashold.toNat < 2 ^ 31)
    (prequest : HttpRequestPacket) :
    ((checkRequestQueuedTimeout m_queue_delay_drop_threashold dequeued
        (addQueue queued prequest)).1 = -1 ↔ d > m_queue_delay_drop_threashold.toNat) ↔
      queued.millis % 2 ^ 32 + d < 2 ^ 32 ∨ d > m_queue_delay_drop_threashold.toNat := by
  rw [checkRequestQueuedTimeout_eq_neg_one]
  rcases Int.lt_or_le (queued.millis % 2 ^ 32 + d) (2 ^ 32) with h | h
  · rw [toNat_queuedTime_of_lt hwait h]
    exact iff_of_true Iff.rfl (.inl h)
  · rw [toNat_queuedTime_of_wrap hwait hd h]
    omega

/-- A request that waits a quarter of a second. -/
theorem checkRequestQueuedTimeout_quarter :
    ((checkRequestQueuedTimeout 1000 ⟨1400000000, 650000, by decide⟩
        (addQueue ⟨1400000000, 400000, by decide⟩ ⟨0, 0, 0⟩)).1 = -1 ↔ 250 > 1000) ↔
      (1400000000400 : Int) % 2 ^ 32 + 250 < 2 ^ 32 ∨ 250 > 1000 :=
  checkRequestQueuedTimeout_iff (d := 250) (by decide) (by decide) (by decide) ⟨0, 0, 0⟩

/-- A request that waits for one millisecond, in which the clock turns over, is dropped. -/
theorem checkRequestQueuedTimeout_turn :
    ¬ ((checkRequestQueuedTimeout 1000 ⟨4294967, 296000, by decide⟩
        (addQueue ⟨4294967, 295000, by decide⟩ ⟨0, 0, 0⟩)).1 = -1 ↔ 1 > 1000) := by
  decide

end QueueTimeout
end TouchServer
end MySrc
