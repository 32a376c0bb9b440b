import MySrc.Mycache.Kfifo
import Mathlib.Order.Nat

/-!
# MySrc.Mycache.KfifoThreads

`__kfifo_put` and `__kfifo_get` without a lock, one thread calling each, as
the comments in `kfifo.c` allow.

Every load and store of `fifo->in` and `fifo->out` is a step of its own, and so
is every `memcpy`; the steps of the two threads interleave freely.  `min` is a
macro and evaluates its second argument twice, once to compare and once, if
the comparison fails, for the value, so the other thread can move its counter
in between.  (Each thread alone writes its own counter, so the order of the
two loads inside one evaluation does not matter.)

The second evaluation can therefore exceed `len` (`overcopy_reached`).  When no
store of the other thread falls between the two evaluations and lifts the
argument above `len` (`Calm`), the queue is safe (`threads_safe`).
-/

namespace MySrc
namespace KfifoThreads

open Lib

/-! ## the two threads -/

/-- A call of `__kfifo_put`: the memory from `buffer` on, and `len`. -/
structure PutCall where
  src : Nat → UInt8
  len : BitVec 32

/-- `n` bytes of the caller's memory, from `off` on. -/
def PutCall.bytes (c : PutCall) (off n : Nat) : List UInt8 :=
  (List.range n).map fun k => c.src (off + k)

/-- Where the writer is in `__kfifo_put`; `len` is the variable after the
first `min`, `c.len` the argument. -/
inductive WPc
  | idle
  /-- `len < size - in + out`, about to load `in` -/
  | cmpIn (c : PutCall)
  /-- about to load `out` and compare -/
  | cmpOut (c : PutCall) (i : BitVec 32)
  /-- the value `size - in + out`, about to load `in` -/
  | valIn (c : PutCall)
  /-- about to load `out` -/
  | valOut (c : PutCall) (i : BitVec 32)
  /-- `len < size - (in & (size - 1))`, about to load `in` -/
  | wrapCmp (c : PutCall) (len : BitVec 32)
  /-- the value `size - (in & (size - 1))`, about to load `in` -/
  | wrapVal (c : PutCall) (len : BitVec 32)
  /-- about to load `in` for the address of the first copy -/
  | dest (c : PutCall) (len l : BitVec 32)
  | copyFirst (c : PutCall) (len l off : BitVec 32)
  | copyRest (c : PutCall) (len l : BitVec 32)
  /-- `in += len`, about to load `in` -/
  | incr (c : PutCall) (len : BitVec 32)
  /-- about to store `in` -/
  | store (c : PutCall) (len i : BitVec 32)

/-- Where the reader is in `__kfifo_get`; `arg` is its argument `len`, and
`bytes` what it has copied so far. -/
inductive RPc
  | idle
  /-- `len < in - out`, about to load `in` -/
  | cmpIn (arg : BitVec 32)
  /-- about to load `out` and compare -/
  | cmpOut (arg i : BitVec 32)
  /-- the value `in - out`, about to load `in` -/
  | valIn (arg : BitVec 32)
  /-- about to load `out` -/
  | valOut (arg i : BitVec 32)
  /-- `len < size - (out & (size - 1))`, about to load `out` -/
  | wrapCmp (arg len : BitVec 32)
  /-- the value `size - (out & (size - 1))`, about to load `out` -/
  | wrapVal (arg len : BitVec 32)
  /-- about to load `out` for the address of the first copy -/
  | source (arg len l : BitVec 32)
  | copyFirst (arg len l off : BitVec 32)
  | copyRest (arg len l : BitVec 32) (bytes : List UInt8)
  /-- `out += len`, about to load `out` -/
  | incr (arg len : BitVec 32) (bytes : List UInt8)
  /-- about to store `out` -/
  | store (arg len o : BitVec 32) (bytes : List UInt8)

/-- The queue, the two threads, and what has been put and got so far. -/
structure State where
  fifo : Kfifo
  w : WPc
  r : RPc
  accepted : List UInt8
  obtained : List UInt8

/-- Two idle threads at a queue. -/
def initial (fifo : Kfifo) : State := ⟨fifo, .idle, .idle, [], []⟩

/-- One step of the writer inside `__kfifo_put`. -/
def wStep (s : State) : Except Fault State :=
  let f := s.fifo
  let mask := f.size - 1
  match s.w with
  | .idle => .ok s
  | .cmpIn c => .ok { s with w := .cmpOut c f.in_ }
  | .cmpOut c i =>
      if c.len < f.size - i + f.out then .ok { s with w := .wrapCmp c c.len }
      else .ok { s with w := .valIn c }
  | .valIn c => .ok { s with w := .valOut c f.in_ }
  | .valOut c i => .ok { s with w := .wrapCmp c (f.size - i + f.out) }
  | .wrapCmp c len =>
      if len < f.size - (f.in_ &&& mask) then .ok { s with w := .dest c len len }
      else .ok { s with w := .wrapVal c len }
  | .wrapVal c len => .ok { s with w := .dest c len (f.size - (f.in_ &&& mask)) }
  | .dest c len l => .ok { s with w := .copyFirst c len l (f.in_ &&& mask) }
  | .copyFirst c len l off => do
      let buffer ← memcpyTo f.buffer off.toNat (c.bytes 0 l.toNat)
      return { s with fifo := { f with buffer := buffer }, w := .copyRest c len l }
  | .copyRest c len l => do
      let buffer ← memcpyTo f.buffer 0 (c.bytes l.toNat (len - l).toNat)
      return { s with fifo := { f with buffer := buffer }, w := .incr c len }
  | .incr c len => .ok { s with w := .store c len f.in_ }
  | .store c len i =>
      .ok { s with
        fifo := { f with in_ := i + len }, w := .idle,
        accepted := s.accepted ++ c.bytes 0 len.toNat }

/-- One step of the reader inside `__kfifo_get`. -/
def rStep (s : State) : Except Fault State :=
  let f := s.fifo
  let mask := f.size - 1
  match s.r with
  | .idle => .ok s
  | .cmpIn arg => .ok { s with r := .cmpOut arg f.in_ }
  | .cmpOut arg i =>
      if arg < i - f.out then .ok { s with r := .wrapCmp arg arg }
      else .ok { s with r := .valIn arg }
  | .valIn arg => .ok { s with r := .valOut arg f.in_ }
  | .valOut arg i => .ok { s with r := .wrapCmp arg (i - f.out) }
  | .wrapCmp arg len =>
      if len < f.size - (f.out &&& mask) then .ok { s with r := .source arg len len }
      else .ok { s with r := .wrapVal arg len }
  | .wrapVal arg len => .ok { s with r := .source arg len (f.size - (f.out &&& mask)) }
  | .source arg len l => .ok { s with r := .copyFirst arg len l (f.out &&& mask) }
  | .copyFirst arg len l off => do
      let bytes ← memcpyFrom f.buffer off.toNat l.toNat
      return { s with r := .copyRest arg len l bytes }
  | .copyRest arg len l bytes => do
      let rest ← memcpyFrom f.buffer 0 (len - l).toNat
      return { s with r := .incr arg len (bytes ++ rest) }
  | .incr arg len bytes => .ok { s with r := .store arg len f.out bytes }
  | .store _ len o bytes =>
      .ok { s with
        fifo := { f with out := o + len }, r := .idle, obtained := s.obtained ++ bytes }

/-- A scheduling choice: a thread starts a call, or makes one step. -/
inductive Act
  | put (c : PutCall)
  | w
  | get (len : BitVec 32)
  | r

/-- The writer is not in a call. -/
def WPc.isIdle : WPc → Bool
  | .idle => true
  | _ => false

/-- The reader is not in a call. -/
def RPc.isIdle : RPc → Bool
  | .idle => true
  | _ => false

/-- A thread starts a call only when it is not in one. -/
def Enabled (s : State) : Act → Prop
  | .put _ => s.w.isIdle = true
  | .w => s.w.isIdle = false
  | .get _ => s.r.isIdle = true
  | .r => s.r.isIdle = false

instance (s : State) (a : Act) : Decidable (Enabled s a) :=
  match a with
  | .put _ | .w => inferInstanceAs (Decidable (s.w.isIdle = _))
  | .get _ | .r => inferInstanceAs (Decidable (s.r.isIdle = _))

/-- One step of the system. -/
def step (s : State) : Act → Except Fault (State × Unit)
  | .put c => .ok ({ s with w := .cmpIn c }, ())
  | .w => (wStep s).map (·, ())
  | .get len => .ok ({ s with r := .cmpIn len }, ())
  | .r => (rStep s).map (·, ())

/-! ## safety -/

/-- The call copies at most its `len`. -/
def WPc.WithinLen : WPc → Prop
  | .wrapCmp c len | .wrapVal c len | .dest c len _ | .copyFirst c len _ _ | .copyRest c len _
  | .incr c len | .store c len _ => len.toNat ≤ c.len.toNat
  | _ => True

/-- The call copies at most its `len`. -/
def RPc.WithinLen : RPc → Prop
  | .wrapCmp arg len | .wrapVal arg len | .source arg len _ | .copyFirst arg len _ _
  | .copyRest arg len _ _ | .incr arg len _ | .store arg len _ _ => len.toNat ≤ arg.toNat
  | _ => True

/-- The next step of the writer writes the byte at position `j` of the buffer. -/
def WPc.Writes (j : Nat) : WPc → Prop
  | .copyFirst _ _ l off => off.toNat ≤ j ∧ j < off.toNat + l.toNat
  | .copyRest _ len l => j < (len - l).toNat
  | _ => False

/-- Position `j` of the buffer holds a byte that was put and not yet got. -/
def Unread (fifo : Kfifo) (j : Nat) : Prop :=
  ∃ k < (fifo.in_ - fifo.out).toNat, (fifo.out.toNat + k) % fifo.size.toNat = j

/-- No call copies more than its `len`, no put is about to overwrite a byte
not yet read, and the reader has got a prefix of what the writer has put. -/
structure Safe (s : State) : Prop where
  w_len : s.w.WithinLen
  r_len : s.r.WithinLen
  no_overwrite : ∀ j, s.w.Writes j → ¬ Unread s.fifo j
  ordered : s.obtained <+: s.accepted

/-- A put that has found no room for `len` bytes and will evaluate the room
again: its `len`. -/
def WPc.recheck : WPc → Option Nat
  | .valIn c | .valOut c _ => some c.len.toNat
  | _ => none

/-- A get that has found, or is about to find, no more than `len` bytes and will
load `in` again: its `len`. -/
def RPc.recheck (out : BitVec 32) : RPc → Option Nat
  | .cmpOut arg i => if arg < i - out then none else some arg.toNat
  | .valIn arg => some arg.toNat
  | _ => none

/-- The value of `in` that the next step stores. -/
def WPc.stored : WPc → Option (BitVec 32)
  | .store _ len i => some (i + len)
  | _ => none

/-- The value of `out` that the next step stores. -/
def RPc.stored : RPc → Option (BitVec 32)
  | .store _ len o _ => some (o + len)
  | _ => none

/-- A store does not lift the argument of `min` above the `len` of a call of the
other thread that is between its two evaluations. -/
def Calm (s : State) : Act → Prop
  | .w => ∀ i ∈ s.w.stored, ∀ n ∈ s.r.recheck s.fifo.out, (i - s.fifo.out).toNat ≤ n
  | .r => ∀ o ∈ s.r.stored, ∀ n ∈ s.w.recheck, (s.fifo.size - s.fifo.in_ + o).toNat ≤ n
  | _ => True

instance (s : State) (a : Act) : Decidable (Calm s a) :=
  match a with
  | .w => inferInstanceAs (Decidable (∀ i ∈ s.w.stored, ∀ n ∈ s.r.recheck s.fifo.out, _))
  | .r => inferInstanceAs (Decidable (∀ o ∈ s.r.stored, ∀ n ∈ s.w.recheck, _))
  | .put _ | .get _ => inferInstanceAs (Decidable True)

/-! ## the invariant -/

/-- The first half of a copy of `len` bytes at the counter `x`. -/
def Half (f : Kfifo) (x len l : BitVec 32) : Prop :=
  l.toNat = min len.toNat (f.buffer.length - x.toNat % f.buffer.length)

/-- What the writer knows, where `room` is the room in the queue: it has
loaded its own counter exactly, its `len` fits the room and its argument, and
the bytes it has copied lie behind `in`. -/
def WOk (f : Kfifo) (room : Nat) : WPc → Prop
  | .idle | .cmpIn _ => True
  | .cmpOut _ i => i = f.in_
  | .valIn c => room ≤ c.len.toNat
  | .valOut c i => i = f.in_ ∧ room ≤ c.len.toNat
  | .wrapCmp c len => len.toNat ≤ c.len.toNat ∧ len.toNat ≤ room
  | .wrapVal c len => (len.toNat ≤ c.len.toNat ∧ len.toNat ≤ room) ∧
      f.buffer.length - f.in_.toNat % f.buffer.length ≤ len.toNat
  | .dest c len l => (len.toNat ≤ c.len.toNat ∧ len.toNat ≤ room) ∧ Half f f.in_ len l
  | .copyFirst c len l off => (len.toNat ≤ c.len.toNat ∧ len.toNat ≤ room) ∧
      Half f f.in_ len l ∧ off.toNat = f.in_.toNat % f.buffer.length
  | .copyRest c len l => (len.toNat ≤ c.len.toNat ∧ len.toNat ≤ room) ∧ Half f f.in_ len l ∧
      Window f.buffer f.in_.toNat (c.bytes 0 l.toNat)
  | .incr c len => (len.toNat ≤ c.len.toNat ∧ len.toNat ≤ room) ∧
      Window f.buffer f.in_.toNat (c.bytes 0 len.toNat)
  | .store c len i => (len.toNat ≤ c.len.toNat ∧ len.toNat ≤ room) ∧
      Window f.buffer f.in_.toNat (c.bytes 0 len.toNat) ∧ i = f.in_

/-- What the reader knows, where `q` is the content of the queue: what it has
loaded of the other counter is not ahead of it, its `len` fits the queue and
its argument, and the bytes it has copied are the oldest ones. -/
def ROk (f : Kfifo) (q : List UInt8) : RPc → Prop
  | .idle | .cmpIn _ => True
  | .cmpOut arg i => (i - f.out).toNat ≤ q.length ∧
      (¬ arg < i - f.out → q.length ≤ arg.toNat)
  | .valIn arg => q.length ≤ arg.toNat
  | .valOut arg i => (i - f.out).toNat ≤ arg.toNat ∧ (i - f.out).toNat ≤ q.length
  | .wrapCmp arg len => len.toNat ≤ arg.toNat ∧ len.toNat ≤ q.length
  | .wrapVal arg len => (len.toNat ≤ arg.toNat ∧ len.toNat ≤ q.length) ∧
      f.buffer.length - f.out.toNat % f.buffer.length ≤ len.toNat
  | .source arg len l => (len.toNat ≤ arg.toNat ∧ len.toNat ≤ q.length) ∧ Half f f.out len l
  | .copyFirst arg len l off => (len.toNat ≤ arg.toNat ∧ len.toNat ≤ q.length) ∧
      Half f f.out len l ∧ off.toNat = f.out.toNat % f.buffer.length
  | .copyRest arg len l bytes => (len.toNat ≤ arg.toNat ∧ len.toNat ≤ q.length) ∧
      Half f f.out len l ∧ bytes = q.take l.toNat
  | .incr arg len bytes => (len.toNat ≤ arg.toNat ∧ len.toNat ≤ q.length) ∧
      bytes = q.take len.toNat
  | .store arg len o bytes => (len.toNat ≤ arg.toNat ∧ len.toNat ≤ q.length) ∧
      bytes = q.take len.toNat ∧ o = f.out

/-- The queue holds what was put and not yet got, and each thread's local
variables agree with it. -/
structure Inv (s : State) (q : List UInt8) : Prop where
  holds : Holds s.fifo q
  log : s.accepted = s.obtained ++ q
  w : WOk s.fifo (s.fifo.size.toNat - q.length) s.w
  r : ROk s.fifo q s.r

theorem PutCall.length_bytes (c : PutCall) (off n : Nat) : (c.bytes off n).length = n := by
  simp [PutCall.bytes]

theorem PutCall.bytes_append (c : PutCall) (h : l ≤ n) :
    c.bytes 0 l ++ c.bytes l (n - l) = c.bytes 0 n := by
  obtain ⟨m, rfl⟩ := Nat.exists_eq_add_of_le h
  simp [PutCall.bytes, List.range_add]

/-- The room that the other thread makes is welcome, unless this thread is
between its two evaluations. -/
theorem WOk.mono {f f' : Kfifo} (h : WOk f room w) (hbuf : f'.buffer = f.buffer)
    (hin : f'.in_ = f.in_) (hle : room ≤ room') (hcalm : ∀ n, w.recheck = some n → room' ≤ n) :
    WOk f' room' w := by
  cases w with
  | idle => trivial
  | cmpIn c => trivial
  | cmpOut c i => exact h.trans hin.symm
  | valIn c => exact hcalm _ rfl
  | valOut c i => exact ⟨h.1.trans hin.symm, hcalm _ rfl⟩
  | wrapCmp c len => exact ⟨h.1, h.2.trans hle⟩
  | wrapVal c len =>
      simp only [WOk, hbuf, hin]
      exact ⟨⟨h.1.1, h.1.2.trans hle⟩, h.2⟩
  | dest c len l =>
      simp only [WOk, Half, hbuf, hin]
      exact ⟨⟨h.1.1, h.1.2.trans hle⟩, h.2⟩
  | copyFirst c len l off =>
      simp only [WOk, Half, hbuf, hin]
      exact ⟨⟨h.1.1, h.1.2.trans hle⟩, h.2⟩
  | copyRest c len l =>
      simp only [WOk, Half, hbuf, hin]
      exact ⟨⟨h.1.1, h.1.2.trans hle⟩, h.2⟩
  | incr c len =>
      simp only [WOk, hbuf, hin]
      exact ⟨⟨h.1.1, h.1.2.trans hle⟩, h.2⟩
  | store c len i =>
      simp only [WOk, hbuf, hin]
      exact ⟨⟨h.1.1, h.1.2.trans hle⟩, h.2⟩

/-- The bytes that the other thread appends are welcome, unless this thread is
between its two evaluations. -/
theorem ROk.mono {f f' : Kfifo} {q q' : List UInt8} (h : ROk f q r)
    (hbuf : f'.buffer.length = f.buffer.length) (hout : f'.out = f.out) (hpre : q <+: q')
    (hcalm : ∀ n, r.recheck f.out = some n → q'.length ≤ n) : ROk f' q' r := by
  have hle := hpre.length_le
  have htake : ∀ n ≤ q.length, q'.take n = q.take n := by
    intro n hn
    obtain ⟨t, rfl⟩ := hpre
    exact List.take_append_of_le_length hn
  cases r with
  | idle => trivial
  | cmpIn arg => trivial
  | cmpOut arg i =>
      simp only [ROk, hout]
      exact ⟨h.1.trans hle, fun hlt => hcalm _ (if_neg hlt)⟩
  | valIn arg => exact hcalm _ rfl
  | valOut arg i =>
      simp only [ROk, hout]
      exact ⟨h.1, h.2.trans hle⟩
  | wrapCmp arg len => exact ⟨h.1, h.2.trans hle⟩
  | wrapVal arg len =>
      simp only [ROk, hbuf, hout]
      exact ⟨⟨h.1.1, h.1.2.trans hle⟩, h.2⟩
  | source arg len l =>
      simp only [ROk, Half, hbuf, hout]
      exact ⟨⟨h.1.1, h.1.2.trans hle⟩, h.2⟩
  | copyFirst arg len l off =>
      simp only [ROk, Half, hbuf, hout]
      exact ⟨⟨h.1.1, h.1.2.trans hle⟩, h.2⟩
  | copyRest arg len l bytes =>
      have hl : l.toNat ≤ len.toNat := h.2.1.le.trans (Nat.min_le_left _ _)
      simp only [ROk, Half, hbuf, hout]
      rw [htake _ (hl.trans h.1.2)]
      exact ⟨⟨h.1.1, h.1.2.trans hle⟩, h.2⟩
  | incr arg len bytes =>
      simp only [ROk]
      rw [htake _ h.1.2]
      exact ⟨⟨h.1.1, h.1.2.trans hle⟩, h.2⟩
  | store arg len o bytes =>
      simp only [ROk, hout]
      rw [htake _ h.1.2]
      exact ⟨⟨h.1.1, h.1.2.trans hle⟩, h.2⟩

/-- Between its two evaluations the reader knows that no more than `len` bytes
are queued. -/
theorem ROk.recheck_le (h : ROk f q r) (hn : r.recheck f.out = some n) : q.length ≤ n := by
  cases r with
  | cmpOut arg i =>
      simp only [RPc.recheck] at hn
      split at hn
      · cases hn
      · next hlt =>
          obtain rfl := Option.some.inj hn
          exact h.2 hlt
  | valIn arg =>
      obtain rfl := Option.some.inj hn
      exact h
  | _ => cases hn

/-! ## the writer -/

section Writer

variable {f : Kfifo} {q : List UInt8} (h : Holds f q)
include h

/-- What a store into the buffer by the writer leaves as it is. -/
theorem inv_of_placed (hlog : acc = obt ++ q) (hr : ROk f q r)
    (hp : Placed f.buffer buf' (f.in_.toNat + k) src)
    (hlen : k + src.length ≤ f.size.toNat - q.length)
    (hw : WOk { f with buffer := buf' } (f.size.toNat - q.length) w) :
    Inv ⟨{ f with buffer := buf' }, w, r, acc, obt⟩ q :=
  ⟨h.placed hp hlen, hlog, hw,
    hr.mono hp.length_eq rfl (List.prefix_refl q) fun _ hn => hr.recheck_le hn⟩

/-- The first half of the copy. -/
theorem copyFirst_inv (hlog : acc = obt ++ q) (hr : ROk f q r)
    (hw : WOk f (f.size.toNat - q.length) (.copyFirst c len l off)) :
    ∃ s', wStep ⟨f, .copyFirst c len l off, r, acc, obt⟩ = .ok s' ∧ Inv s' q := by
  obtain ⟨⟨harg, hroom⟩, hl, hoff⟩ := hw
  have hhalf := half_le hl h.size_pos
  obtain ⟨buf', hbuf, hp⟩ : ∃ buf', memcpyTo f.buffer off.toNat (c.bytes 0 l.toNat) = .ok buf' ∧
      Placed f.buffer buf' f.in_.toNat (c.bytes 0 l.toNat) :=
    placed_memcpyTo (.inr hoff.symm) (by rw [c.length_bytes, hoff]; exact hhalf.2)
  refine ⟨_, by simp only [wStep, hbuf, ok_bind, pure_eq_ok]; rfl, ?_⟩
  refine inv_of_placed h hlog hr (k := 0) hp (by rw [c.length_bytes]; omega) ?_
  refine ⟨⟨harg, hroom⟩, ?_, hp.written⟩
  simp only [Half, hp.length_eq]
  exact hl

/-- The second half of the copy. -/
theorem copyRest_inv (hlog : acc = obt ++ q) (hr : ROk f q r)
    (hw : WOk f (f.size.toNat - q.length) (.copyRest c len l)) :
    ∃ s', wStep ⟨f, .copyRest c len l, r, acc, obt⟩ = .ok s' ∧ Inv s' q := by
  obtain ⟨⟨harg, hroom⟩, hl, hwin⟩ := hw
  have hhalf := half_le hl h.size_pos
  have hsub : (len - l).toNat = len.toNat - l.toNat := by bv_omega
  have hsize := h.buffer
  have hoff : c.bytes l.toNat (len - l).toNat = [] ∨
      (f.in_.toNat + l.toNat) % f.buffer.length = 0 := by
    rw [← List.length_eq_zero_iff, c.length_bytes, hsub]
    exact half_wraps hl h.size_pos
  obtain ⟨buf', hbuf, hp⟩ := placed_memcpyTo hoff (by rw [c.length_bytes, hsub]; omega)
  refine ⟨_, by simp only [wStep, hbuf, ok_bind, pure_eq_ok]; rfl, ?_⟩
  refine inv_of_placed h hlog hr hp (by rw [c.length_bytes]; omega) ?_
  refine ⟨⟨harg, hroom⟩, ?_⟩
  rw [← c.bytes_append hhalf.1, ← hsub]
  exact hwin.append (by rw [c.length_bytes]; exact hp)
    (by rw [c.length_bytes, c.length_bytes, hsub]; omega)

/-- Moving `in` past the bytes that were copied accepts them. -/
theorem store_in_inv (hlog : acc = obt ++ q) (hr : ROk f q r)
    (hw : WOk f (f.size.toNat - q.length) (.store c len i))
    (hcalm : Calm ⟨f, .store c len i, r, acc, obt⟩ .w) :
    ∃ s', wStep ⟨f, .store c len i, r, acc, obt⟩ = .ok s' ∧ Inv s' (q ++ c.bytes 0 len.toNat) := by
  obtain ⟨⟨harg, hroom⟩, hwin, rfl⟩ := hw
  have hadv := h.advance_in hwin (c.length_bytes 0 len.toNat).symm
    (by rw [c.length_bytes]; exact hroom)
  refine ⟨_, rfl, hadv, ?_, trivial, ?_⟩
  · dsimp only
    rw [hlog, List.append_assoc]
  · refine hr.mono rfl rfl (List.prefix_append _ _) fun n hn => ?_
    rw [← hadv.count]
    exact hcalm _ rfl n hn

end Writer

/-- **A step of the writer** keeps the invariant. -/
theorem Inv.wStep (h : Inv s q) (hcalm : Calm s .w) :
    ∃ s' q', KfifoThreads.wStep s = .ok s' ∧ Inv s' q' := by
  obtain ⟨f, w, r, acc, obt⟩ := s
  obtain ⟨hh, hlog, hw, hr⟩ := h
  dsimp only at hh hlog hw hr
  have hroom := hh.toNat_room
  cases w with
  | idle => exact ⟨_, q, rfl, hh, hlog, trivial, hr⟩
  | cmpIn c => exact ⟨_, q, rfl, hh, hlog, rfl, hr⟩
  | cmpOut c i =>
      obtain rfl : i = f.in_ := hw
      by_cases hlt : c.len < f.size - f.in_ + f.out
      · refine ⟨_, q, if_pos hlt, hh, hlog, ?_, hr⟩
        rw [BitVec.lt_def, hroom] at hlt
        exact ⟨Nat.le_refl _, hlt.le⟩
      · refine ⟨_, q, if_neg hlt, hh, hlog, ?_, hr⟩
        rw [BitVec.lt_def, hroom] at hlt
        exact Nat.le_of_not_lt hlt
  | valIn c => exact ⟨_, q, rfl, hh, hlog, ⟨rfl, hw⟩, hr⟩
  | valOut c i =>
      obtain ⟨rfl, hle⟩ := hw
      exact ⟨_, q, rfl, hh, hlog, ⟨hroom.le.trans hle, hroom.le⟩, hr⟩
  | wrapCmp c len =>
      have hwrap := hh.toNat_size_sub_mask f.in_
      by_cases hlt : len < f.size - (f.in_ &&& (f.size - 1))
      · refine ⟨_, q, if_pos hlt, hh, hlog, ⟨hw, ?_⟩, hr⟩
        rw [BitVec.lt_def, hwrap] at hlt
        exact (Nat.min_eq_left hlt.le).symm
      · refine ⟨_, q, if_neg hlt, hh, hlog, ⟨hw, ?_⟩, hr⟩
        rw [BitVec.lt_def, hwrap] at hlt
        exact Nat.le_of_not_lt hlt
  | wrapVal c len =>
      refine ⟨_, q, rfl, hh, hlog, ⟨hw.1, ?_⟩, hr⟩
      dsimp only [Half]
      rw [hh.toNat_size_sub_mask, Nat.min_eq_right hw.2]
  | dest c len l => exact ⟨_, q, rfl, hh, hlog, ⟨hw.1, hw.2, hh.toNat_mask f.in_⟩, hr⟩
  | copyFirst c len l off =>
      obtain ⟨s', hs', hinv⟩ := copyFirst_inv hh hlog hr hw
      exact ⟨s', q, hs', hinv⟩
  | copyRest c len l =>
      obtain ⟨s', hs', hinv⟩ := copyRest_inv hh hlog hr hw
      exact ⟨s', q, hs', hinv⟩
  | incr c len => exact ⟨_, q, rfl, hh, hlog, ⟨hw.1, hw.2, rfl⟩, hr⟩
  | store c len i =>
      obtain ⟨s', hs', hinv⟩ := store_in_inv hh hlog hr hw hcalm
      exact ⟨s', _, hs', hinv⟩

/-! ## the reader -/

section Reader

variable {f : Kfifo} {q : List UInt8} (h : Holds f q)
include h

/-- Both halves of the copy read the oldest bytes. -/
theorem read_halves (hlen : n ≤ q.length) (hl : Half f f.out len l) (hn : len.toNat = n) :
    memcpyFrom f.buffer (f.out.toNat % f.buffer.length) l.toNat = .ok (q.take l.toNat) ∧
      memcpyFrom f.buffer 0 (len - l).toNat = .ok ((q.take n).drop l.toNat) := by
  have hle := h.le
  have hhalf := half_le hl h.size_pos
  have htake : (q.take n).length = n := by rw [List.length_take]; omega
  obtain ⟨h₁, h₂⟩ := (h.window.take n).copy (l := l.toNat) (by rw [htake, h.buffer]; omega)
    h.size_pos (by rw [htake, ← hn]; exact hl)
  rw [htake, show n - l.toNat = (len - l).toNat by bv_omega] at h₂
  rw [List.take_take, Nat.min_eq_left (by omega)] at h₁
  exact ⟨h₁, h₂⟩

/-- Moving `out` past the bytes that were copied hands them over. -/
theorem store_out_inv (hlog : acc = obt ++ q) (hw : WOk f (f.size.toNat - q.length) w)
    (hr : ROk f q (.store arg len o bytes))
    (hcalm : Calm ⟨f, w, .store arg len o bytes, acc, obt⟩ .r) :
    ∃ s', rStep ⟨f, w, .store arg len o bytes, acc, obt⟩ = .ok s' ∧ Inv s' (q.drop len.toNat) := by
  obtain ⟨⟨harg, hlen⟩, rfl, rfl⟩ := hr
  have hadv := h.advance_out hlen
  refine ⟨_, rfl, hadv, ?_, ?_, trivial⟩
  · dsimp only
    rw [List.append_assoc, List.take_append_drop, hlog]
  · refine hw.mono rfl rfl ?_ fun n hn => ?_
    · rw [List.length_drop]
      dsimp only
      omega
    · rw [← hadv.toNat_room]
      exact hcalm _ rfl n hn

end Reader

/-- **A step of the reader** keeps the invariant. -/
theorem Inv.rStep (h : Inv s q) (hcalm : Calm s .r) :
    ∃ s' q', KfifoThreads.rStep s = .ok s' ∧ Inv s' q' := by
  obtain ⟨f, w, r, acc, obt⟩ := s
  obtain ⟨hh, hlog, hw, hr⟩ := h
  dsimp only at hh hlog hw hr
  have hcount := hh.count
  cases r with
  | idle => exact ⟨_, q, rfl, hh, hlog, hw, trivial⟩
  | cmpIn arg =>
      refine ⟨_, q, rfl, hh, hlog, hw, hcount.le, fun hlt => ?_⟩
      rw [BitVec.lt_def, hcount] at hlt
      exact Nat.le_of_not_lt hlt
  | cmpOut arg i =>
      by_cases hlt : arg < i - f.out
      · refine ⟨_, q, if_pos hlt, hh, hlog, hw, Nat.le_refl _, ?_⟩
        rw [BitVec.lt_def] at hlt
        exact hlt.le.trans hr.1
      · exact ⟨_, q, if_neg hlt, hh, hlog, hw, hr.2 hlt⟩
  | valIn arg => exact ⟨_, q, rfl, hh, hlog, hw, hcount.le.trans hr, hcount.le⟩
  | valOut arg i => exact ⟨_, q, rfl, hh, hlog, hw, hr.1, hr.2⟩
  | wrapCmp arg len =>
      have hwrap := hh.toNat_size_sub_mask f.out
      by_cases hlt : len < f.size - (f.out &&& (f.size - 1))
      · refine ⟨_, q, if_pos hlt, hh, hlog, hw, hr, ?_⟩
        rw [BitVec.lt_def, hwrap] at hlt
        exact (Nat.min_eq_left hlt.le).symm
      · refine ⟨_, q, if_neg hlt, hh, hlog, hw, hr, ?_⟩
        rw [BitVec.lt_def, hwrap] at hlt
        exact Nat.le_of_not_lt hlt
  | wrapVal arg len =>
      refine ⟨_, q, rfl, hh, hlog, hw, hr.1, ?_⟩
      dsimp only [Half]
      rw [hh.toNat_size_sub_mask, Nat.min_eq_right hr.2]
  | source arg len l => exact ⟨_, q, rfl, hh, hlog, hw, hr.1, hr.2, hh.toNat_mask f.out⟩
  | copyFirst arg len l off =>
      obtain ⟨hlen, hl, hoff⟩ := hr
      have hread := (read_halves hh hlen.2 hl rfl).1
      rw [← hoff] at hread
      have hstep : KfifoThreads.rStep ⟨f, w, .copyFirst arg len l off, acc, obt⟩ =
          .ok ⟨f, w, .copyRest arg len l (q.take l.toNat), acc, obt⟩ := by
        simp only [KfifoThreads.rStep, hread, ok_bind, pure_eq_ok]
      exact ⟨_, q, hstep, hh, hlog, hw, hlen, hl, rfl⟩
  | copyRest arg len l bytes =>
      obtain ⟨hlen, hl, rfl⟩ := hr
      have hread := (read_halves hh hlen.2 hl rfl).2
      have hhalf := half_le hl hh.size_pos
      have hbytes : q.take l.toNat ++ (q.take len.toNat).drop l.toNat = q.take len.toNat := by
        rw [← Nat.min_eq_left hhalf.1, ← List.take_take, Nat.min_eq_left hhalf.1,
          List.take_append_drop]
      have hstep : KfifoThreads.rStep ⟨f, w, .copyRest arg len l (q.take l.toNat), acc, obt⟩ =
          .ok ⟨f, w, .incr arg len (q.take len.toNat), acc, obt⟩ := by
        simp only [KfifoThreads.rStep, hread, ok_bind, pure_eq_ok, hbytes]
      exact ⟨_, q, hstep, hh, hlog, hw, hlen, rfl⟩
  | incr arg len bytes => exact ⟨_, q, rfl, hh, hlog, hw, hr.1, hr.2, rfl⟩
  | store arg len o bytes =>
      obtain ⟨s', hs', hinv⟩ := store_out_inv hh hlog hw hr hcalm
      exact ⟨s', _, hs', hinv⟩

/-! ## every interleaving -/

/-- No byte of the room behind `in` is unread. -/
theorem not_unread (h : Holds f q) (hm : m < f.size.toNat - q.length)
    (hj : (f.in_.toNat + m) % f.buffer.length = j) : ¬ Unread f j := by
  rintro ⟨k, hk, hkj⟩
  rw [h.count] at hk
  have hle := h.le
  have heq : (f.out.toNat + (q.length + m)) % f.buffer.length =
      (f.out.toNat + k) % f.buffer.length := by
    rw [← Nat.add_assoc, Nat.add_mod, ← h.in_mod, ← Nat.add_mod, hj, h.buffer, hkj]
  have := eq_of_add_mod_eq heq (by rw [h.buffer]; omega) (by rw [h.buffer]; omega)
  omega

/-- The writer writes only into the room behind `in`. -/
theorem WOk.no_overwrite (h : Holds f q) (hw : WOk f (f.size.toNat - q.length) w)
    (hj : w.Writes j) : ¬ Unread f j := by
  cases w with
  | copyFirst c len l off =>
      obtain ⟨hlen, hl, hoff⟩ := hw
      obtain ⟨h1, h2⟩ := hj
      have hhalf := half_le hl h.size_pos
      refine not_unread h (m := j - off.toNat) (by omega) ?_
      rw [add_mod_of_lt hoff.symm (by omega)]
      omega
  | copyRest c len l =>
      obtain ⟨hlen, hl, -⟩ := hw
      have hj : j < (len - l).toNat := hj
      have hhalf := half_le hl h.size_pos
      have hsub : (len - l).toNat = len.toNat - l.toNat := by bv_omega
      have hzero := (half_wraps hl h.size_pos).resolve_left (by omega)
      have hsize := h.buffer
      refine not_unread h (m := l.toNat + j) (by omega) ?_
      rw [← Nat.add_assoc, add_mod_of_lt hzero (by omega), Nat.zero_add]
  | _ => cases hj

theorem WOk.withinLen (hw : WOk f room w) : w.WithinLen := by
  cases w with
  | wrapCmp c len => exact hw.1
  | wrapVal c len => exact hw.1.1
  | dest c len l => exact hw.1.1
  | copyFirst c len l off => exact hw.1.1
  | copyRest c len l => exact hw.1.1
  | incr c len => exact hw.1.1
  | store c len i => exact hw.1.1
  | _ => trivial

theorem ROk.withinLen (hr : ROk f q r) : r.WithinLen := by
  cases r with
  | wrapCmp arg len => exact hr.1
  | wrapVal arg len => exact hr.1.1
  | source arg len l => exact hr.1.1
  | copyFirst arg len l off => exact hr.1.1
  | copyRest arg len l bytes => exact hr.1.1
  | incr arg len bytes => exact hr.1.1
  | store arg len o bytes => exact hr.1.1
  | _ => trivial

theorem Inv.safe (h : Inv s q) : Safe s where
  w_len := h.w.withinLen
  r_len := h.r.withinLen
  no_overwrite _ hj := h.w.no_overwrite h.holds hj
  ordered := ⟨q, h.log.symm⟩

/-- **One step** of either thread succeeds and keeps the invariant. -/
theorem Inv.step (h : Inv s q) (hen : Enabled s a) (hcalm : Calm s a) :
    ∃ s' q', KfifoThreads.step s a = .ok (s', ()) ∧ Inv s' q' := by
  cases a with
  | put c => exact ⟨_, q, rfl, h.holds, h.log, trivial, h.r⟩
  | get len => exact ⟨_, q, rfl, h.holds, h.log, h.w, trivial⟩
  | w =>
      obtain ⟨s', q', hs', hinv⟩ := h.wStep hcalm
      exact ⟨s', q', by rw [KfifoThreads.step, hs']; rfl, hinv⟩
  | r =>
      obtain ⟨s', q', hs', hinv⟩ := h.rStep hcalm
      exact ⟨s', q', by rw [KfifoThreads.step, hs']; rfl, hinv⟩

/-- **One reader and one writer need no lock** as long as no store falls
between the two evaluations of a `min` and lifts its argument above the `len`
of that call: no copy leaves the buffer or exceeds its `len`, no put overwrites
a byte not yet read, and the reader gets a prefix of what the writer puts. -/
theorem threads_safe (size : BitVec 32) (fill : Nat → UInt8) (h1 : 1 ≤ size.toNat)
    (h2 : size.toNat ≤ 0x80000000) :
    ∃ fifo, kfifoAlloc size fill = .ok fifo ∧
      ∀ t s, Run step (fun s a => Enabled s a ∧ Calm s a) (initial fifo) t s →
        Safe s ∧ ∀ a, Enabled s a → Calm s a → ∃ s', step s a = .ok (s', ()) := by
  obtain ⟨fifo, halloc, hinit⟩ := kfifoAlloc_holds size fill h1 h2
  refine ⟨fifo, halloc, fun t s hrun => ?_⟩
  obtain ⟨q, hinv⟩ : ∃ q, Inv s q := by
    have hinv : Inv (initial fifo) [] := ⟨hinit, rfl, trivial, trivial⟩
    refine hrun.invariant_of_progress (I := fun _ s => ∃ q, Inv s q) ⟨[], hinv⟩ ?_
    rintro - s a ⟨q, hinv⟩ ⟨hen, hcalm⟩
    obtain ⟨s', q', hs, hinv'⟩ := hinv.step hen hcalm
    exact ⟨s', (), hs, q', hinv'⟩
  refine ⟨hinv.safe, fun a hen hcalm => ?_⟩
  obtain ⟨s', -, hs', -⟩ := hinv.step hen hcalm
  exact ⟨s', hs'⟩

/-- A put of one byte into a queue of one byte, a get that starts in the
middle of it, and both to their end. -/
theorem threads_safe_one :
    ∃ fifo t s, kfifoAlloc 1 (fun _ => 0) = .ok fifo ∧
      Run step (fun s a => Enabled s a ∧ Calm s a) (initial fifo) t s ∧ s.obtained = [7] ∧
        Safe s := by
  obtain ⟨fifo, halloc, hsafe⟩ := threads_safe 1 (fun _ => 0) (by decide) (by decide)
  obtain rfl : fifo = ⟨[0], 1, 0, 0⟩ := (Except.ok.inj halloc).symm
  have hreplay : (replay step (fun s a => Enabled s a ∧ Calm s a) (initial ⟨[0], 1, 0, 0⟩)
      [.put ⟨fun _ => 7, 1⟩, .w, .w, .w, .get 5, .w, .w, .w, .w, .w, .w, .w, .w,
        .r, .r, .r, .r, .r, .r, .r, .r, .r, .r, .r]).map (·.2.obtained) = some [7] := by
    simp [replay, step, wStep, rStep, initial, Enabled, Calm, WPc.isIdle, RPc.isIdle, WPc.stored,
      RPc.stored, WPc.recheck, RPc.recheck, Except.map, memcpyTo, memcpyFrom, PutCall.bytes]
  obtain ⟨⟨t, s⟩, hs, hgot⟩ := Option.map_eq_some_iff.mp hreplay
  have hrun := Run.nil.replay hs
  exact ⟨_, t, s, halloc, hrun, hgot, (hsafe t s hrun).1⟩

/-- **Without that condition a get copies more than its `len`**: it finds the
queue empty, the writer puts three bytes, and the second evaluation of
`in - out` makes a get of one byte copy three. -/
theorem overcopy_reached :
    ∃ fifo t s, kfifoAlloc 4 (fun _ => 0) = .ok fifo ∧
      Run step Enabled (initial fifo) t s ∧ ¬ Safe s := by
  have hreplay : (replay step Enabled (initial ⟨[0, 0, 0, 0], 4, 0, 0⟩)
      [.get 1, .r, .r, .put ⟨fun k => k.toUInt8, 3⟩, .w, .w, .w, .w, .w, .w, .w, .w, .r, .r]).map
        (·.2.r) = some (.wrapCmp 1 3) := by
    simp [replay, step, wStep, rStep, initial, Enabled, WPc.isIdle, RPc.isIdle, Except.map,
      memcpyTo, PutCall.bytes]
  obtain ⟨⟨t, s⟩, hs, hr⟩ := Option.map_eq_some_iff.mp hreplay
  have hrun := Run.nil.replay hs
  refine ⟨_, t, s, rfl, hrun, fun hsafe => ?_⟩
  have hlen : RPc.WithinLen (.wrapCmp 1 3) := hr ▸ hsafe.r_len
  exact absurd hlen (Nat.not_le.mpr (by decide))

end KfifoThreads
end MySrc
