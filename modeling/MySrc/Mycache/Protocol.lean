import MySrc.Lib.Decimal
import MySrc.Lib.Memory
import MySrc.Mycache.Coding

/-!
# MySrc.Mycache.Protocol

`protocol_parse` of `mycache/src/net/protocol.h`, and the request format that
the comment at the top of that file documents:

```
*<argc>\r\n  followed, for every argument, by  $<len>\r\n<bytes>\r\n
```

The parser works on raw pointers, so its model reads an explicit memory: the
`len` bytes it was given and whatever happens to follow them.  A pointer is a
position in that memory, `none` is `NULL`.

The documented format writes `argc` and the lengths in decimal, while the
parser reads them with `get_varint32_data_ptr`, and it does not step over the
bytes of an argument.  `protocolParse_recovers_iff` says what is left: only
the empty stream of requests is parsed as documented.
-/

namespace MySrc

open Lib

/-! ## the parser -/

/-- `*in` -/
def loadByte (mem : List UInt8) : Option Nat → Except Fault UInt8
  | none => .error .nullDeref
  | some p =>
      match mem[p]? with
      | none => .error .outOfBounds
      | some b => .ok b

/-- `memcpy` of `n` bytes from `in` -/
def loadBytes (mem : List UInt8) (n : Nat) : Option Nat → Except Fault (List UInt8)
  | none => .error .nullDeref
  | some p => memcpyFrom mem p n

/-- `enter_jump`: step over `\r\n`, or `NULL`. -/
def enterJump (mem : List UInt8) (p : Option Nat) : Except Fault (Option Nat) := do
  let c ← loadByte mem p
  if c ≠ 13 then return none
  let d ← loadByte mem (p.map (· + 1))
  if d ≠ 10 then return none
  return p.map (· + 2)

/-- `kvcache_opt`, with the number of slots it was allocated with; a slot that
was not assigned is `none`. -/
structure KvcacheOpt where
  argc : Nat
  argv : List (Option (List UInt8))
  deriving Repr, DecidableEq

/-- How `protocol_parse` ends: it runs off the end of the loop with the cursor
where it is, or it gives up with `-1`. -/
inductive ParseEnd
  | done (opts : List KvcacheOpt) (cursor : Nat)
  | error (opts : List KvcacheOpt)
  deriving Repr, DecidableEq

/-- Read a number with `get_varint32_data_ptr(in + 1, in + 5, &n)` and test it. -/
def readCount (mem : List UInt8) (p : Nat) : Except Fault (Option Nat × Nat) := do
  match ← getVarint32DataPtr mem (p + 1) (p + 5) with
  | (_, none) => .error .uninitialised
  | (q, some n) => return (q, n.toNat)

/-- The `for` loop over the arguments; `none` is the `return -1` inside it. -/
def parseArgs (mem : List UInt8) : Nat → Option Nat → List (Option (List UInt8)) →
    Except Fault (Option (Option Nat × List (Option (List UInt8))))
  | 0, p, argv => return some (p, argv)
  | k + 1, p, argv => do
      let c ← loadByte mem p
      match p with
      | none => .error .nullDeref
      | some pos =>
          if c = 36 then
            let (q, argvLen) ← readCount mem pos
            if argvLen = 0 then return none
            let q ← enterJump mem q
            let arg ← loadBytes mem argvLen q
            -- the copy does not move the cursor
            let q ← enterJump mem q
            parseArgs mem k q (argv ++ [some arg])
          else
            parseArgs mem k p (argv ++ [none])

/-- The `while` loop; `fuel` bounds the number of its iterations. -/
def parseLoop (mem : List UInt8) (len : Nat) : Nat → Option Nat → List KvcacheOpt →
    Except Fault ParseEnd
  | 0, _, _ => .error .diverge
  | _ + 1, none, _ => .error .nullDeref
  | fuel + 1, some p, opts =>
      if p < len then do
        let c ← loadByte mem (some p)
        if c = 42 then
          let (q, argc) ← readCount mem p
          if argc = 0 then return .error opts
          let q ← enterJump mem q
          match ← parseArgs mem argc q [] with
          | none => return .error (opts ++ [⟨argc, []⟩])
          | some (q, argv) => parseLoop mem len fuel q (opts ++ [⟨argc, argv⟩])
        else
          -- nothing moves the cursor here
          parseLoop mem len fuel (some p) opts
      else
        return .done opts p

/-- `protocol_parse` on the first `len` bytes of `mem`. -/
def protocolParse (fuel : Nat) (mem : List UInt8) (len : BitVec 32) : Except Fault ParseEnd :=
  parseLoop mem len.toNat fuel (some 0) []

/-! ## the documented format -/

/-- A request: at least one argument, and no empty one. -/
structure Request where
  args : List (List UInt8)
  args_ne : args ≠ []
  arg_ne : ∀ a ∈ args, a ≠ []

/-- `\r\n` -/
def crlf : List UInt8 := [13, 10]

/-- `$<len>\r\n<bytes>\r\n` -/
def encodeArg (a : List UInt8) : List UInt8 := 36 :: decimal a.length ++ crlf ++ a ++ crlf

/-- `*<argc>\r\n` and the arguments -/
def Request.encode (r : Request) : List UInt8 :=
  42 :: decimal r.args.length ++ crlf ++ r.args.flatMap encodeArg

/-- What a parser should recover from a request. -/
def Request.toOpt (r : Request) : KvcacheOpt := ⟨r.args.length, r.args.map some⟩

/-- A stream of requests. -/
def encodeRequests (reqs : List Request) : List UInt8 := reqs.flatMap Request.encode

/-- `protocol_parse` recovers every request of the stream, in order, and ends
with the cursor at the end of the stream; `tail` is the memory behind it. -/
def Recovers (reqs : List Request) (tail : List UInt8) : Prop :=
  ∃ fuel, protocolParse fuel (encodeRequests reqs ++ tail)
      (BitVec.ofNat 32 (encodeRequests reqs).length) =
    .ok (.done (reqs.map Request.toOpt) (encodeRequests reqs).length)

/-! ## what the parser makes of a request -/

/-- An ASCII digit is taken for the whole number. -/
theorem readCount_digit (hp : mem[p + 1]? = some (UInt8.ofNat d)) (hd : d < 128) :
    readCount mem p = .ok (some (p + 2), d) := by
  have hbyte : (UInt8.ofNat d).toNat = d := by rw [UInt8.toNat_ofNat']; omega
  have hnum : (BitVec.ofNat 32 d).toNat = d := by rw [BitVec.toNat_ofNat]; omega
  have hget : getVarint32DataPtr mem (p + 1) (p + 5) =
      .ok (some (p + 2), some (BitVec.ofNat 32 d)) := by
    have hlast : BitVec.ofNat 32 (UInt8.ofNat d).toNat &&& 128 = 0 :=
      (and_128_eq_zero_iff (by decide) _).mpr (by omega)
    simp only [getVarint32DataPtr, if_pos (show p + 1 < p + 5 by omega), hp, if_pos hlast]
    rw [hbyte]
  rw [readCount, hget]
  exact congrArg (fun k => Except.ok (some (p + 2), k)) hnum

/-- The parser never forgets a request it has taken. -/
theorem prefix_of_parseLoop (h : parseLoop mem len fuel q opts = .ok (.done opts' c)) :
    opts <+: opts' := by
  induction fuel generalizing q opts with
  | zero => simp [parseLoop] at h
  | succ fuel ih =>
      cases q with
      | none => simp [parseLoop] at h
      | some p =>
          rw [parseLoop] at h
          split at h
          · obtain ⟨b, -, h⟩ := bind_eq_ok.mp h
            split at h
            · obtain ⟨⟨q, n⟩, -, h⟩ := bind_eq_ok.mp h
              dsimp only at h
              split at h
              · simp at h
              · obtain ⟨q', -, h⟩ := bind_eq_ok.mp h
                obtain ⟨r, -, h⟩ := bind_eq_ok.mp h
                cases r with
                | none => simp at h
                | some r => exact (List.prefix_append _ _).trans (ih h)
            · exact ih h
          · simp only [pure_eq_ok, Except.ok.injEq, ParseEnd.done.injEq] at h
            exact h.1 ▸ List.prefix_refl _

/-- The start of a stream that holds a request. -/
theorem encodeRequests_cons (r : Request) (rs : List Request) (tail : List UInt8) :
    encodeRequests (r :: rs) ++ tail = 42 :: (decimal r.args.length ++
      13 :: 10 :: (r.args.flatMap encodeArg ++ encodeRequests rs ++ tail)) := by
  simp [encodeRequests, Request.encode, crlf]

/-- The first request of a stream is never recovered: its `argc` is taken to be
the code of its first digit, and a second digit stops the parser. -/
theorem not_recovers_cons (r : Request) (rs : List Request) (tail : List UInt8) :
    ¬ Recovers (r :: rs) tail := by
  rintro ⟨fuel, h⟩
  have hpos : 0 < r.args.length := List.length_pos_iff.mpr r.args_ne
  rw [protocolParse, encodeRequests_cons] at h
  generalize r.args.flatMap encodeArg ++ encodeRequests rs ++ tail = body at h
  cases fuel with
  | zero => simp [parseLoop] at h
  | succ fuel =>
      rw [parseLoop] at h
      split at h
      · simp only [loadByte, List.getElem?_cons_zero, ok_bind, if_true] at h
        obtain ⟨hlt, hdec⟩ | ⟨d, e, ds, hdec, h1, h2, h3, h4, h5⟩ := decimal_cases r.args.length
        · -- one digit: the count is off by 48
          rw [hdec, readCount_digit (by simp) (show 48 + r.args.length < 128 by omega),
            ok_bind] at h
          dsimp only at h
          rw [if_neg (by omega)] at h
          obtain ⟨q', -, h⟩ := bind_eq_ok.mp h
          obtain ⟨a, -, h⟩ := bind_eq_ok.mp h
          cases a with
          | none => simp at h
          | some a =>
              have hpre := prefix_of_parseLoop h
              simp only [List.nil_append, List.map_cons, List.cons_prefix_cons, Request.toOpt,
                KvcacheOpt.mk.injEq] at hpre
              omega
        · -- a second digit stands where the line should end
          have hjump : enterJump (42 :: (decimal r.args.length ++ 13 :: 10 :: body)) (some 2) =
              .ok none := by
            have hcr : UInt8.ofNat e ≠ 13 := by
              rw [ne_eq, show (13 : UInt8) = UInt8.ofNat 13 from rfl,
                ofNat_eq_ofNat_iff (by omega) (by omega)]
              omega
            simp [enterJump, loadByte, hdec, hcr]
          rw [readCount_digit (d := d) (by simp [hdec]) (by omega), ok_bind] at h
          dsimp only at h
          rw [if_neg (by omega), hjump, ok_bind] at h
          obtain ⟨d, rfl⟩ : ∃ k, d = k + 1 := ⟨d - 1, by omega⟩
          simp [parseArgs, loadByte] at h
      · simp at h

/-- **Only the empty stream is parsed as documented.** -/
theorem protocolParse_recovers_iff (reqs : List Request) (tail : List UInt8) :
    Recovers reqs tail ↔ reqs = [] := by
  constructor
  · intro h
    cases reqs with
    | nil => rfl
    | cons r rs => exact absurd h (not_recovers_cons r rs tail)
  · rintro rfl
    exact ⟨1, rfl⟩

/-- `SET mykey myvalue`, the request of the comment in `protocol.h`. -/
def setRequest : Request where
  args := [[83, 69, 84], [109, 121, 107, 101, 121], [109, 121, 118, 97, 108, 117, 101]]
  args_ne := by decide
  arg_ne := by decide

/-- The request of the comment makes the parser follow a null pointer: it is
read as 51 arguments, the first of 51 bytes. -/
theorem setRequest_not_recovered :
    (∀ fuel, protocolParse (fuel + 1) (encodeRequests [setRequest] ++ List.replicate 64 0)
      (BitVec.ofNat 32 (encodeRequests [setRequest]).length) = .error .nullDeref) ∧
    ¬ Recovers [setRequest] (List.replicate 64 0) := by
  have hbytes : encodeRequests [setRequest] =
      [42, 51, 13, 10, 36, 51, 13, 10, 83, 69, 84, 13, 10, 36, 53, 13, 10, 109, 121, 107, 101,
        121, 13, 10, 36, 55, 13, 10, 109, 121, 118, 97, 108, 117, 101, 13, 10] := by
    simp [encodeRequests, Request.encode, setRequest, encodeArg, decimal, crlf]
  have hfault : ∀ fuel, protocolParse (fuel + 1) (encodeRequests [setRequest] ++
      List.replicate 64 0) (BitVec.ofNat 32 (encodeRequests [setRequest]).length) =
      .error .nullDeref := by
    intro fuel
    rw [hbytes]
    rfl
  refine ⟨hfault, ?_⟩
  rintro ⟨fuel, h⟩
  cases fuel with
  | zero => simp [protocolParse, parseLoop] at h
  | succ fuel => rw [hfault fuel] at h; contradiction

end MySrc
