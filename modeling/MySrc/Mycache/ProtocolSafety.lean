import MySrc.Mycache.Protocol
import MySrc.Lib.Text

/-!
# MySrc.Mycache.ProtocolSafety

On which buffers `protocol_parse` ends without a fault.

`Safe` describes these buffers from the front.  The loop moves on only behind a
`*`, so any other byte at its place keeps it there for ever; a number of more
than four bytes, or a line that does not end in `\r\n`, leaves a null pointer;
and because the copy of an argument does not move the cursor, the two bytes
behind the line of its length have to be `\r\n` again.
-/

namespace MySrc

open Lib

/-! ## numbers -/

/-- The base-128 number of at most `k` bytes in front of a text, and the rest. -/
def takeVarint : Nat → List UInt8 → Option (Nat × List UInt8)
  | 0, _ => none
  | _ + 1, [] => none
  | k + 1, b :: s =>
      if b.toNat < 128 then some (b.toNat, s)
      else (takeVarint k s).map fun p => (b.toNat % 128 + 128 * p.1, p.2)

theorem takeVarint_lt {k n : Nat} {s r : List UInt8} (h : takeVarint k s = some (n, r)) :
    n < 2 ^ (7 * k) := by
  induction k generalizing n s with
  | zero => cases h
  | succ k ih =>
      have hpow : 2 ^ (7 * (k + 1)) = 128 * 2 ^ (7 * k) := by
        rw [Nat.mul_add, Nat.pow_add, Nat.mul_comm]
      have hone : 1 ≤ 2 ^ (7 * k) := Nat.one_le_two_pow
      cases s with
      | nil => cases h
      | cons b s =>
          rw [takeVarint] at h
          split at h
          · cases h
            omega
          · obtain ⟨⟨m, r'⟩, hm, heq⟩ := Option.map_eq_some_iff.mp h
            cases heq
            have hlt := ih hm
            omega

/-- Inside the memory, the text from a position on tells the position. -/
theorem eq_of_drop_eq {mem : List UInt8} {p p' : Nat} (hp : p ≤ mem.length)
    (hp' : p' ≤ mem.length) (h : mem.drop p = mem.drop p') : p = p' := by
  have hlen := congrArg List.length h
  rw [List.length_drop, List.length_drop] at hlen
  omega

theorem drop_eq_cons {mem : List UInt8} {p : Nat} {b : UInt8} (hb : mem[p]? = some b) :
    mem.drop p = b :: mem.drop (p + 1) := by
  obtain ⟨hlt, rfl⟩ := List.getElem?_eq_some_iff.mp hb
  exact List.drop_eq_getElem_cons hlt

/-- The decoder loop reads the number in front of the text, if `k` bytes are allowed
before the limit and in 28 bits. -/
theorem getVarintFallback_eq_ok_iff (mem : List UInt8) (k p shift acc : Nat)
    (hshift : shift + 7 * k ≤ 28) (hacc : acc < 2 ^ shift) (q : Option Nat) (v : BitVec 32) :
    getVarintFallback 32 28 mem (p + k) p shift (BitVec.ofNat 32 acc) = .ok (q, some v) ↔
      ∃ n p', takeVarint k (mem.drop p) = some (n, mem.drop p') ∧ p' ≤ mem.length ∧
        q = some p' ∧ v = BitVec.ofNat 32 (acc + n * 2 ^ shift) := by
  induction k generalizing p shift acc with
  | zero => simp [getVarintFallback_limit, takeVarint]
  | succ k ih =>
      cases hb : mem[p]? with
      | none =>
          rw [getVarintFallback, if_pos ⟨by omega, by omega⟩, hb,
            List.drop_eq_nil_of_le (List.getElem?_eq_none_iff.mp hb)]
          simp [takeVarint]
      | some b =>
          have hlt := (List.getElem?_eq_some_iff.mp hb).1
          rw [drop_eq_cons hb, takeVarint]
          by_cases hlast : b.toNat < 128
          · rw [getVarintFallback_last (by decide) hb hlast (by omega) (by omega) hacc,
              if_pos hlast]
            constructor
            · intro h
              cases h
              exact ⟨b.toNat, p + 1, rfl, hlt, rfl, rfl⟩
            · rintro ⟨n, p', hn, hp', rfl, rfl⟩
              obtain ⟨rfl, hdrop⟩ := Prod.mk.inj (Option.some.inj hn)
              obtain rfl : p + 1 = p' := eq_of_drop_eq hlt hp' hdrop
              rfl
          · have hpow : 2 ^ (shift + 7) = 128 * 2 ^ shift := by rw [Nat.pow_add, Nat.mul_comm]
            have hle : b.toNat % 128 * 2 ^ shift ≤ 127 * 2 ^ shift :=
              Nat.mul_le_mul_right _ (by omega)
            have hvalue : ∀ m, acc + b.toNat % 128 * 2 ^ shift + m * 2 ^ (shift + 7) =
                acc + (b.toNat % 128 + 128 * m) * 2 ^ shift := by
              intro m
              rw [hpow, Nat.add_mul, ← Nat.mul_assoc, Nat.mul_comm m 128, Nat.add_assoc]
            rw [getVarintFallback_more (by decide) hb (by omega) (by omega) (by omega) hacc,
              show p + (k + 1) = p + 1 + k by omega, ih _ _ _ (by omega) (by omega), if_neg hlast]
            constructor
            · rintro ⟨m, p', hm, hp', rfl, rfl⟩
              exact ⟨_, p', by rw [hm]; rfl, hp', rfl, by rw [hvalue]⟩
            · rintro ⟨n, p', hn, hp', rfl, rfl⟩
              obtain ⟨⟨m, r⟩, hm, heq⟩ := Option.map_eq_some_iff.mp hn
              cases heq
              exact ⟨m, p', hm, hp', rfl, by rw [hvalue]⟩

/-- What `protocol_parse` reads as a number behind `*` and `$`. -/
theorem readCount_eq_ok_iff (mem : List UInt8) (p : Nat) (q : Option Nat) (n : Nat) :
    readCount mem p = .ok (q, n) ↔
      ∃ p', takeVarint 4 (mem.drop (p + 1)) = some (n, mem.drop p') ∧ p' ≤ mem.length ∧
        q = some p' := by
  have hget : ∀ v, getVarint32DataPtr mem (p + 1) (p + 5) = .ok (q, some v) ↔
      ∃ n p', takeVarint 4 (mem.drop (p + 1)) = some (n, mem.drop p') ∧ p' ≤ mem.length ∧
        q = some p' ∧ v = BitVec.ofNat 32 (0 + n * 2 ^ 0) := by
    intro v
    rw [getVarint32DataPtr_eq]
    exact getVarintFallback_eq_ok_iff mem 4 (p + 1) 0 0 (by decide) (by decide) q v
  have hvalue : ∀ {n r}, takeVarint 4 (mem.drop (p + 1)) = some (n, r) →
      (BitVec.ofNat 32 (0 + n * 2 ^ 0)).toNat = n := by
    intro n r hn
    have hlt := takeVarint_lt hn
    rw [BitVec.toNat_ofNat]
    omega
  rw [readCount]
  constructor
  · intro h
    obtain ⟨⟨q', v⟩, hv, h⟩ := bind_eq_ok.mp h
    cases v with
    | none => cases h
    | some v =>
        cases h
        obtain ⟨n, p', hn, hp', rfl, rfl⟩ := (hget v).mp hv
        exact ⟨p', by rw [hvalue hn]; exact hn, hp', rfl⟩
  · rintro ⟨p', hn, hp', rfl⟩
    rw [(hget _).mpr ⟨n, p', hn, hp', rfl, rfl⟩]
    exact congrArg (fun m => Except.ok (some p', m)) (hvalue hn)

theorem loadByte_eq_ok_iff {mem : List UInt8} {q : Option Nat} {b : UInt8} :
    loadByte mem q = .ok b ↔ ∃ p, q = some p ∧ mem[p]? = some b := by
  cases q with
  | none => simp [loadByte]
  | some p =>
      rw [loadByte]
      cases hb : mem[p]? <;> simp [hb]

/-- `enter_jump` steps over `\r\n`, -/
theorem enterJump_some {mem : List UInt8} {q : Option Nat} {p' : Nat}
    (h : enterJump mem q = .ok (some p')) :
    ∃ p, q = some p ∧ p' = p + 2 ∧ mem.drop p = 13 :: 10 :: mem.drop (p + 2) := by
  obtain ⟨c, hc, h⟩ := bind_eq_ok.mp h
  obtain ⟨p, rfl, hp⟩ := loadByte_eq_ok_iff.mp hc
  split at h
  · cases h
  · next h13 =>
      obtain ⟨d, hd, h⟩ := bind_eq_ok.mp h
      obtain ⟨p1, hp1, hd⟩ := loadByte_eq_ok_iff.mp hd
      cases hp1
      split at h
      · cases h
      · next h10 =>
          cases h
          rw [not_not] at h13 h10
          subst h13 h10
          exact ⟨p, rfl, rfl, by rw [drop_eq_cons hp, drop_eq_cons hd]⟩

/-- whatever is behind it. -/
theorem enterJump_crlf {mem r : List UInt8} {p : Nat} (h : mem.drop p = 13 :: 10 :: r) :
    enterJump mem (some p) = .ok (some (p + 2)) := by
  have h13 : mem[p]? = some 13 := getElem?_of_drop h 0
  have h10 : mem[p + 1]? = some 10 := getElem?_of_drop h 1
  simp [enterJump, loadByte, h13, h10]

/-! ## safe buffers -/

/-- Where the parser is: in the `while` loop, or in the `for` loop with `k` arguments
to go. -/
inductive Place where
  | requests
  | args (k : Nat)

/-- The rest of the buffer at a place from which the parser ends without a fault.
Behind a count of zero it gives up, and the rest does not matter. -/
inductive Safe : Place → List UInt8 → Prop
  | nil : Safe .requests []
  | noArgs : takeVarint 4 s = some (0, r) → Safe .requests (42 :: s)
  | request : takeVarint 4 s = some (n, 13 :: 10 :: r) → 0 < n → Safe (.args n) r →
      Safe .requests (42 :: s)
  | done : Safe .requests s → Safe (.args 0) s
  | noLength : takeVarint 4 s = some (0, r) → Safe (.args (k + 1)) (36 :: s)
  | arg : takeVarint 4 s = some (n, 13 :: 10 :: 13 :: 10 :: r) → 0 < n → n ≤ r.length + 2 →
      Safe (.args k) r → Safe (.args (k + 1)) (36 :: s)
  | skip : Safe .requests (42 :: s) → Safe (.args (k + 1)) (42 :: s)

/-- The `for` loop and what follows it. -/
def argsLoop (mem : List UInt8) (fuel argc : Nat) (opts : List KvcacheOpt) (k : Nat)
    (q : Option Nat) (argv : List (Option (List UInt8))) : Except Fault ParseEnd := do
  match ← parseArgs mem k q argv with
  | none => return .error (opts ++ [⟨argc, []⟩])
  | some (q, argv) => parseLoop mem mem.length fuel q (opts ++ [⟨argc, argv⟩])

/-- The parser ends from a place without a fault. -/
def Ends (mem : List UInt8) (fuel : Nat) (p : Nat) : Place → Prop
  | .requests => ∀ opts, ∃ r, parseLoop mem mem.length fuel (some p) opts = .ok r
  | .args k => ∀ argc opts argv, ∃ r, argsLoop mem fuel argc opts k (some p) argv = .ok r

/-- One turn of the `while` loop. -/
theorem parseLoop_request {mem : List UInt8} {p p' n : Nat} (hstar : mem[p]? = some 42)
    (hcount : readCount mem p = .ok (some p', n)) (hn : n ≠ 0)
    (hjump : enterJump mem (some p') = .ok (some (p' + 2))) (fuel : Nat) (opts : List KvcacheOpt) :
    parseLoop mem mem.length (fuel + 1) (some p) opts =
      argsLoop mem fuel n opts n (some (p' + 2)) [] := by
  have hlt := (List.getElem?_eq_some_iff.mp hstar).1
  rw [parseLoop, if_pos hlt, loadByte, hstar, ok_bind, if_pos rfl, hcount, ok_bind]
  dsimp only
  rw [if_neg hn, hjump]
  rfl

/-- One turn of the `for` loop, on an argument. -/
theorem argsLoop_arg {mem : List UInt8} {p p' n : Nat} (hdollar : mem[p]? = some 36)
    (hcount : readCount mem p = .ok (some p', n)) (hn : n ≠ 0)
    (hjump : enterJump mem (some p') = .ok (some (p' + 2))) (hcopy : p' + 2 + n ≤ mem.length)
    (hjump' : enterJump mem (some (p' + 2)) = .ok (some (p' + 4))) (fuel argc : Nat)
    (opts : List KvcacheOpt) (k : Nat) (argv : List (Option (List UInt8))) :
    ∃ arg, argsLoop mem fuel argc opts (k + 1) (some p) argv =
      argsLoop mem fuel argc opts k (some (p' + 4)) (argv ++ [some arg]) := by
  obtain ⟨arg, harg, -⟩ := memcpyFrom_ok hcopy
  refine ⟨arg, ?_⟩
  rw [argsLoop, parseArgs, loadByte, hdollar, ok_bind]
  dsimp only
  rw [if_pos rfl, hcount, ok_bind]
  dsimp only
  rw [if_neg hn, hjump, ok_bind, loadBytes, harg, ok_bind, hjump', ok_bind, argsLoop]

/-- A byte that is not `$` stops the arguments, and the cursor stays. -/
theorem parseArgs_skip {mem : List UInt8} {p : Nat} {c : UInt8} (hc : mem[p]? = some c)
    (hne : c ≠ 36) (k : Nat) (argv : List (Option (List UInt8))) :
    ∃ argv', parseArgs mem k (some p) argv = .ok (some (some p, argv')) := by
  induction k generalizing argv with
  | zero => exact ⟨argv, rfl⟩
  | succ k ih =>
      obtain ⟨argv', h⟩ := ih (argv ++ [none])
      refine ⟨argv', ?_⟩
      rw [parseArgs, loadByte, hc, ok_bind]
      dsimp only
      rw [if_neg hne, h]

/-- The rest behind a number is in the memory. -/
theorem takeVarint_drop {mem : List UInt8} {k p n : Nat} {r : List UInt8}
    (h : takeVarint k (mem.drop p) = some (n, r)) : ∃ p' ≤ mem.length, r = mem.drop p' := by
  induction k generalizing p n with
  | zero => cases h
  | succ k ih =>
      cases hb : mem[p]? with
      | none =>
          rw [List.drop_eq_nil_of_le (List.getElem?_eq_none_iff.mp hb)] at h
          cases h
      | some b =>
          rw [drop_eq_cons hb, takeVarint] at h
          split at h
          · cases h
            exact ⟨p + 1, (List.getElem?_eq_some_iff.mp hb).1, rfl⟩
          · obtain ⟨⟨m, r'⟩, hm, heq⟩ := Option.map_eq_some_iff.mp h
            cases heq
            exact ih hm

theorem drop_of_cons {mem s : List UInt8} {p : Nat} {b : UInt8} (h : mem.drop p = b :: s) :
    mem[p]? = some b ∧ mem.drop (p + 1) = s := by
  refine ⟨getElem?_of_drop h 0, ?_⟩
  rw [← List.drop_drop, h]
  rfl

/-- The number behind `*` or `$`, as the parser reads it. -/
theorem readCount_of_takeVarint {mem s r : List UInt8} {p n : Nat} {b : UInt8}
    (h : mem.drop p = b :: s) (hn : takeVarint 4 s = some (n, r)) :
    ∃ p', readCount mem p = .ok (some p', n) ∧ mem.drop p' = r ∧ p' ≤ mem.length := by
  obtain ⟨-, hs⟩ := drop_of_cons h
  rw [← hs] at hn
  obtain ⟨p', hp', rfl⟩ := takeVarint_drop hn
  exact ⟨p', (readCount_eq_ok_iff mem p _ n).mpr ⟨p', hn, hp', rfl⟩, rfl, hp'⟩

/-- **The parser ends** from a safe rest. -/
theorem Safe.ends {mem s : List UInt8} {place : Place} (h : Safe place s) {p : Nat}
    (hs : mem.drop p = s) : ∃ fuel, Ends mem fuel p place := by
  induction h generalizing p with
  | nil =>
      have hge : ¬ p < mem.length := Nat.not_lt.mpr (List.drop_eq_nil_iff.mp hs)
      refine ⟨1, fun opts => ⟨.done opts p, ?_⟩⟩
      rw [parseLoop, if_neg hge]
      rfl
  | noArgs hn =>
      obtain ⟨p', hcount, -⟩ := readCount_of_takeVarint hs hn
      have hstar := (drop_of_cons hs).1
      refine ⟨1, fun opts => ⟨.error opts, ?_⟩⟩
      rw [parseLoop, if_pos (List.getElem?_eq_some_iff.mp hstar).1, loadByte, hstar, ok_bind,
        if_pos rfl, hcount, ok_bind]
      rfl
  | request hn hpos _ ih =>
      obtain ⟨p', hcount, hp', -⟩ := readCount_of_takeVarint hs hn
      have hr := (drop_of_cons (drop_of_cons hp').2).2
      obtain ⟨fuel, hends⟩ := ih hr
      refine ⟨fuel + 1, fun opts => ?_⟩
      rw [parseLoop_request (drop_of_cons hs).1 hcount (by omega) (enterJump_crlf hp')]
      exact hends _ opts []
  | done _ ih =>
      obtain ⟨fuel, hends⟩ := ih hs
      exact ⟨fuel, fun argc opts argv => hends _⟩
  | noLength hn =>
      obtain ⟨p', hcount, -⟩ := readCount_of_takeVarint hs hn
      refine ⟨0, fun argc opts argv => ⟨.error (opts ++ [⟨argc, []⟩]), ?_⟩⟩
      rw [argsLoop, parseArgs, loadByte, (drop_of_cons hs).1, ok_bind]
      dsimp only
      rw [if_pos rfl, hcount]
      rfl
  | arg hn hpos hlen _ ih =>
      obtain ⟨p', hcount, hp', hle⟩ := readCount_of_takeVarint hs hn
      have hp2 : mem.drop (p' + 2) = _ := (drop_of_cons (drop_of_cons hp').2).2
      have hp4 : mem.drop (p' + 4) = _ := (drop_of_cons (drop_of_cons hp2).2).2
      obtain ⟨fuel, hends⟩ := ih hp4
      have hroom := congrArg List.length hp4
      have hin := (List.getElem?_eq_some_iff.mp (drop_of_cons (drop_of_cons hp2).2).1).1
      rw [List.length_drop] at hroom
      refine ⟨fuel, fun argc opts argv => ?_⟩
      obtain ⟨arg, harg⟩ := argsLoop_arg (drop_of_cons hs).1 hcount (by omega)
        (enterJump_crlf hp') (by omega) (enterJump_crlf hp2) fuel argc opts _ argv
      rw [harg]
      exact hends argc opts _
  | skip _ ih =>
      obtain ⟨fuel, hends⟩ := ih hs
      refine ⟨fuel, fun argc opts argv => ?_⟩
      obtain ⟨argv', hskip⟩ := parseArgs_skip (drop_of_cons hs).1 (by decide) _ argv
      rw [argsLoop, hskip, ok_bind]
      exact hends _

/-! ## no other buffer -/

/-- The `while` loop moves on behind `*` only. -/
theorem Safe.star {c : UInt8} {s : List UInt8} (h : Safe .requests (c :: s)) : c = 42 := by
  cases h <;> rfl

/-- A byte that is not `$` is left to the `while` loop. -/
theorem Safe.requests_of_args {c : UInt8} {s : List UInt8} {k : Nat}
    (h : Safe (.args k) (c :: s)) (hne : c ≠ 36) : Safe .requests (c :: s) := by
  cases h with
  | done h => exact h
  | noLength _ => exact absurd rfl hne
  | arg _ _ _ _ => exact absurd rfl hne
  | skip h => exact h

/-- A `for` loop that ends well, at a safe place or with `-1`, started at one. -/
theorem safe_of_parseArgs {mem : List UInt8} {k : Nat} {q : Option Nat}
    {argv : List (Option (List UInt8))} {res : Option (Option Nat × List (Option (List UInt8)))}
    (h : parseArgs mem k q argv = .ok res)
    (hres : ∀ q' argv', res = some (q', argv') →
      ∃ p', q' = some p' ∧ Safe .requests (mem.drop p')) :
    ∃ p, q = some p ∧ Safe (.args k) (mem.drop p) := by
  induction k generalizing q argv with
  | zero =>
      obtain ⟨p', hq, hsafe⟩ := hres q argv (Except.ok.inj h).symm
      exact ⟨p', hq, .done hsafe⟩
  | succ k ih =>
      obtain ⟨c, hc, h⟩ := bind_eq_ok.mp h
      obtain ⟨p, rfl, hp⟩ := loadByte_eq_ok_iff.mp hc
      refine ⟨p, rfl, ?_⟩
      rw [drop_eq_cons hp]
      dsimp only at h
      split at h
      · next hdollar =>
          subst hdollar
          obtain ⟨⟨q1, n⟩, hcount, h⟩ := bind_eq_ok.mp h
          obtain ⟨p', hn, hp', rfl⟩ := (readCount_eq_ok_iff mem p q1 n).mp hcount
          dsimp only at h
          split at h
          · next hzero =>
              subst hzero
              exact .noLength hn
          · next hpos =>
              obtain ⟨q2, hjump, h⟩ := bind_eq_ok.mp h
              obtain ⟨arg, harg, h⟩ := bind_eq_ok.mp h
              obtain ⟨q3, hjump', h⟩ := bind_eq_ok.mp h
              obtain ⟨p3, rfl, hsafe⟩ := ih h
              obtain ⟨p2, rfl, rfl, hcrlf'⟩ := enterJump_some hjump'
              obtain ⟨p1, hp1, rfl, hcrlf⟩ := enterJump_some hjump
              cases hp1
              have hcopy : p' + 2 + n ≤ mem.length := by
                rw [loadBytes, memcpyFrom] at harg
                split at harg
                · assumption
                · cases harg
              have hlen := congrArg List.length hcrlf'
              rw [List.length_drop, List.length_cons, List.length_cons] at hlen
              rw [hcrlf, hcrlf'] at hn
              refine .arg hn (Nat.pos_of_ne_zero hpos) ?_ hsafe
              omega
      · next hother =>
          obtain ⟨p', hp', hsafe⟩ := ih h
          cases hp'
          rw [drop_eq_cons hp] at hsafe
          have hrequests := hsafe.requests_of_args hother
          have hstar := hrequests.star
          subst hstar
          exact .skip hrequests

/-- A `while` loop that ends without a fault started at a safe place. -/
theorem safe_of_parseLoop {mem : List UInt8} {fuel : Nat} {q : Option Nat}
    {opts : List KvcacheOpt} {r : ParseEnd} (h : parseLoop mem mem.length fuel q opts = .ok r) :
    ∃ p, q = some p ∧ Safe .requests (mem.drop p) := by
  induction fuel generalizing q opts with
  | zero => cases h
  | succ fuel ih =>
      cases q with
      | none => cases h
      | some p =>
          refine ⟨p, rfl, ?_⟩
          rw [parseLoop] at h
          split at h
          · obtain ⟨c, hc, h⟩ := bind_eq_ok.mp h
            obtain ⟨p₀, hp₀, hp⟩ := loadByte_eq_ok_iff.mp hc
            cases hp₀
            rw [drop_eq_cons hp]
            split at h
            · next hstar =>
                subst hstar
                obtain ⟨⟨q1, n⟩, hcount, h⟩ := bind_eq_ok.mp h
                obtain ⟨p', hn, hp', rfl⟩ := (readCount_eq_ok_iff mem p q1 n).mp hcount
                dsimp only at h
                split at h
                · next hzero =>
                    subst hzero
                    exact .noArgs hn
                · next hpos =>
                    obtain ⟨q2, hjump, h⟩ := bind_eq_ok.mp h
                    obtain ⟨res, hres, h⟩ := bind_eq_ok.mp h
                    obtain ⟨p2, rfl, hsafe⟩ := safe_of_parseArgs hres (by
                      rintro q' argv' rfl
                      exact ih h)
                    obtain ⟨p1, hp1, rfl, hcrlf⟩ := enterJump_some hjump
                    cases hp1
                    rw [hcrlf] at hn
                    exact .request hn (Nat.pos_of_ne_zero hpos) hsafe
            · -- nothing moves the cursor, so the loop would not have ended
              next hother =>
                obtain ⟨p', hp', hsafe⟩ := ih h
                cases hp'
                rw [drop_eq_cons hp] at hsafe
                exact absurd hsafe.star hother
          · next hge =>
              rw [List.drop_eq_nil_of_le (Nat.le_of_not_lt hge)]
              exact .nil

/-- `protocol_parse` ends, without a read outside the buffer and without following a
null pointer. -/
def ParsesSafely (buffer : List UInt8) : Prop :=
  ∃ fuel r, protocolParse fuel buffer (BitVec.ofNat 32 buffer.length) = .ok r

theorem protocolParse_eq {buffer : List UInt8} (hlen : buffer.length < 2 ^ 32) (fuel : Nat) :
    protocolParse fuel buffer (BitVec.ofNat 32 buffer.length) =
      parseLoop buffer buffer.length fuel (some 0) [] := by
  rw [protocolParse, BitVec.toNat_ofNat, Nat.mod_eq_of_lt hlen]

/-- **`protocol_parse` is safe and ends** exactly on the buffers of `Safe`. -/
theorem protocolParse_safe_iff {buffer : List UInt8} (hlen : buffer.length < 2 ^ 32) :
    ParsesSafely buffer ↔ Safe .requests buffer := by
  simp only [ParsesSafely, protocolParse_eq hlen]
  constructor
  · rintro ⟨fuel, r, h⟩
    obtain ⟨p, hp, hsafe⟩ := safe_of_parseLoop h
    cases hp
    exact hsafe
  · intro hsafe
    obtain ⟨fuel, hends⟩ := hsafe.ends (p := 0) List.drop_zero
    exact ⟨fuel, hends []⟩

/-- One argument of two bytes that are a line end. -/
theorem protocolParse_safe_crlf : ParsesSafely [42, 1, 13, 10, 36, 2, 13, 10, 13, 10] := by
  refine (protocolParse_safe_iff (by decide)).mpr ?_
  refine .request (n := 1) (r := [36, 2, 13, 10, 13, 10]) rfl (by decide) ?_
  exact .arg (n := 2) (r := []) rfl (by decide) (by decide) (.done .nil)

/-- On a buffer that does not start with `*` the loop does not end. -/
theorem protocolParse_unsafe :
    ¬ ∀ buffer : List UInt8, buffer.length < 2 ^ 32 → ParsesSafely buffer := by
  intro h
  obtain ⟨fuel, r, hr⟩ := h [120] (by decide)
  rw [protocolParse_eq (by decide)] at hr
  obtain ⟨p, hp, hsafe⟩ := safe_of_parseLoop hr
  cases hp
  exact absurd hsafe.star (by decide)

end MySrc
