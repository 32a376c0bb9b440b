import MySrc.Lib.Decimal
import MySrc.TemplateHttp.HttpRequestPacket

/-!
# MySrc.TemplateHttp.Numbers

Numbers as text in `template_http/src/common/SDUtility.cpp`: `format` prints them,
`atouint32` and `atouint64` read them, and `ip2long` reads the four of an address.

A C string is the memory from its pointer on, with the NUL at its end.  The loops that read
digits take one character more than the length they are given, and stop at what is no digit.

`format(uint64_t)` prints with `%u`, and `ip2long` gives the length of the first number to
the other three; `format_read_iff` and `ip2long_iff` say which numbers come back.
-/

namespace MySrc

open Lib

namespace SDUtility

/-! ## the model -/

/-- `%u` of `sprintf`, which takes 32 bits of its argument. -/
def sprintfU (i : Nat) : Str := decimal (i % 2 ^ 32)

/-- `SDUtility::format(uint32_t)` -/
def formatUint32 (i : UInt32) : Str := sprintfU i.toNat

/-- `SDUtility::format(uint64_t)` -/
def formatUint64 (i : UInt64) : Str := sprintfU i.toNat

/-- `while((len >= 0) && isdigit(*ptr))`, with a value of `width` bits. -/
def digitLoop (width : Nat) : List UInt8 → Int → Nat → Except Fault Nat
  | [], len, value => if 0 ≤ len then .error .outOfBounds else .ok value
  | c :: ptr, len, value =>
      if 0 ≤ len ∧ isdigit c then
        digitLoop width ptr (len - 1) ((10 * value + (c.toNat - 48)) % 2 ^ width)
      else .ok value

/-- `SDUtility::atouint32(const char*, int32_t)` -/
def atouint32Len (ptr : List UInt8) (len : Int) : Except Fault Nat :=
  if len = 0 then .ok 0 else digitLoop 32 ptr len 0

/-- `SDUtility::atouint64(const char*, int32_t)` -/
def atouint64Len (ptr : List UInt8) (len : Int) : Except Fault Nat := digitLoop 64 ptr len 0

/-- `SDUtility::atouint32(std::string &)` -/
def atouint32Str (str : Str) : Except Fault Nat := atouint32Len (str ++ [0]) (i32 str.length)

/-- `SDUtility::atouint64(std::string &)` -/
def atouint64Str (str : Str) : Except Fault Nat := atouint64Len (str ++ [0]) (i32 str.length)

/-- `str_ip.find(".", pos)`, as an `int`. -/
def findDot (str_ip : Str) (pos : Int) : Int :=
  match findFrom (ascii ['.']) str_ip (pos % 2 ^ 64).toNat with
  | none => -1
  | some i => i32 i

/-- `str.substr(pos, n)`, with `int`s that become a `size_t`. -/
def substr (str : Str) (pos n : Int) : Except Fault Str :=
  if (str.length : Int) < pos % 2 ^ 64 then .error .outOfBounds
  else .ok ((str.drop (pos % 2 ^ 64).toNat).take (n % 2 ^ 64).toNat)

/-- `SDUtility::ip2long` -/
def ip2long (str_ip : Str) : Except Fault Nat := do
  let position1 := findDot str_ip 0
  let position2 := findDot str_ip (position1 + 1)
  let position3 := findDot str_ip (position2 + 1)
  let ip00 ← substr str_ip 0 position1
  let ip11 ← substr str_ip (position1 + 1) position2
  let ip22 ← substr str_ip (position2 + 1) position3
  let ip33 ← substr str_ip (position3 + 1) (-1)
  let ip0 ← atouint32Len (ip00 ++ [0]) (i32 ip00.length)
  -- the length of the first part, for all parts
  let ip1 ← atouint32Len (ip11 ++ [0]) (i32 ip00.length)
  let ip2 ← atouint32Len (ip22 ++ [0]) (i32 ip00.length)
  let ip3 ← atouint32Len (ip33 ++ [0]) (i32 ip00.length)
  return ((ip0 <<< 24) % 2 ^ 32 + (ip1 <<< 16) % 2 ^ 32 + (ip2 <<< 8) % 2 ^ 32 + ip3) % 2 ^ 32

end SDUtility

/-! ## reading digits -/

section

open SDUtility

variable {s ptr : List UInt8}

/-- Reducing at every digit is reducing once at the end. -/
theorem foldl_mod (m : Nat) (s : List UInt8) (a : Nat) :
    s.foldl (fun value c => (10 * value + (c.toNat - 48)) % m) (a % m) =
      s.foldl (fun n c => 10 * n + (c.toNat - 48)) a % m := by
  induction s generalizing a with
  | nil => rfl
  | cons c s ih =>
      have hstep : (10 * (a % m) + (c.toNat - 48)) % m = (10 * a + (c.toNat - 48)) % m := by
        rw [Nat.add_mod, Nat.mul_mod_mod, ← Nat.add_mod]
      rw [List.foldl_cons, List.foldl_cons, hstep, ih]

/-- The loop reads the digits at the front, but no more than its length and one. -/
theorem digitLoop_eq (width : Nat) (hend : ∃ c ∈ ptr, isdigit c = false) (len : Int)
    (value : Nat) :
    digitLoop width ptr len value =
      .ok (((ptr.takeWhile isdigit).take (len + 1).toNat).foldl
        (fun value c => (10 * value + (c.toNat - 48)) % 2 ^ width) value) := by
  induction ptr generalizing len value with
  | nil => simp at hend
  | cons c ptr ih =>
      rw [digitLoop]
      by_cases hc : isdigit c = true
      · have hend' : ∃ c ∈ ptr, isdigit c = false := by simpa [hc] using hend
        by_cases hlen : 0 ≤ len
        · have hsucc : (len + 1).toNat = (len - 1 + 1).toNat + 1 := by omega
          rw [if_pos ⟨hlen, hc⟩, ih hend', List.takeWhile_cons_of_pos hc, hsucc,
            List.take_succ_cons, List.foldl_cons]
        · have hzero : (len + 1).toNat = 0 := by omega
          rw [if_neg fun h => hlen h.1, hzero]
          rfl
      · rw [if_neg fun h => hc h.2, List.takeWhile_cons_of_neg hc]
        simp

/-- The digits at the front of a string are those before its NUL. -/
theorem takeWhile_isdigit_append (s : Str) :
    (s ++ [0]).takeWhile isdigit = s.takeWhile isdigit := by
  induction s with
  | nil => rfl
  | cons c s ih =>
      rw [List.cons_append, List.takeWhile_cons, List.takeWhile_cons, ih]

/-- The loop on a string. -/
theorem digitLoop_str (width : Nat) (s : Str) (len : Int) :
    digitLoop width (s ++ [0]) len 0 =
      .ok (ofDecimal ((s.takeWhile isdigit).take (len + 1).toNat) % 2 ^ width) := by
  rw [digitLoop_eq width ⟨0, by simp, rfl⟩, takeWhile_isdigit_append]
  have hmod := foldl_mod (2 ^ width) ((s.takeWhile isdigit).take (len + 1).toNat) 0
  rw [Nat.zero_mod] at hmod
  rw [hmod, ofDecimal]

/-- The digits at the front of a string, as a `uint32_t`. -/
theorem atouint32_eq (str : Str) :
    atouint32 str = digitsValue (str.takeWhile isdigit) % 2 ^ 32 :=
  foldl_mod (2 ^ 32) (str.takeWhile isdigit) 0

/-- A length that covers the digits. -/
theorem take_digits {len : Int} (hlen : s.length ≤ len) :
    (s.takeWhile isdigit).take (len + 1).toNat = s.takeWhile isdigit := by
  have hle := (List.takeWhile_prefix (l := s) isdigit).length_le
  exact List.take_of_length_le (by omega)

/-- The overload for strings reads the digits at the front of its string. -/
theorem atouint32Str_eq (hlen : s.length < 2 ^ 31) : atouint32Str s = .ok (atouint32 s) := by
  rw [atouint32Str, atouint32Len, i32_eq_self ⟨by omega, by omega⟩, atouint32_eq]
  split
  · next hzero =>
      have hs : s = [] := List.length_eq_zero_iff.mp (by omega)
      rw [hs]
      rfl
  · rw [digitLoop_str, take_digits (Int.le_refl _)]
    rfl

/-- The digits at the front of a string, as a `uint64_t`. -/
theorem atouint64Str_eq (hlen : s.length < 2 ^ 31) :
    atouint64Str s = .ok (digitsValue (s.takeWhile isdigit) % 2 ^ 64) := by
  rw [atouint64Str, atouint64Len, i32_eq_self ⟨by omega, by omega⟩, digitLoop_str,
    take_digits (Int.le_refl _)]
  rfl

/-! ## format -/

theorem takeWhile_decimal (n : Nat) : (decimal n).takeWhile isdigit = decimal n := by
  refine List.takeWhile_eq_self_iff.mpr fun c hc => ?_
  simpa [isdigit] using digit_of_mem_decimal hc

/-- What is printed is short, and read back. -/
theorem sprintfU_read (i : Nat) :
    (sprintfU i).length < 2 ^ 31 ∧ digitsValue ((sprintfU i).takeWhile isdigit) = i % 2 ^ 32 := by
  have hlen : (decimal (i % 2 ^ 32)).length ≤ 10 :=
    (length_decimal_le_iff (by decide)).mpr (by omega)
  rw [sprintfU, takeWhile_decimal]
  exact ⟨by omega, ofDecimal_decimal _⟩

/-- **Numbers as text**: a number of 64 bits comes back exactly when 32 bits hold it, and
one of 32 bits always. -/
theorem format_read_iff (n : UInt64) (m : UInt32) :
    (atouint64Str (formatUint64 n) = .ok n.toNat ↔ n.toNat < 2 ^ 32) ∧
      atouint32Str (formatUint32 m) = .ok m.toNat := by
  constructor
  · obtain ⟨hlen, hvalue⟩ := sprintfU_read n.toNat
    rw [formatUint64, atouint64Str_eq hlen, hvalue, Except.ok.injEq]
    omega
  · have hm := m.toNat_lt
    obtain ⟨hlen, hvalue⟩ := sprintfU_read m.toNat
    rw [formatUint32, atouint32Str_eq hlen, atouint32_eq, hvalue, Nat.mod_mod,
      Nat.mod_eq_of_lt hm]

/-- `2 ^ 32` is printed as zero. -/
theorem format_loses_high_bits :
    atouint64Str (formatUint64 4294967296) = .ok 0 ∧
      atouint64Str (formatUint64 4294967296) ≠ .ok (4294967296 : UInt64).toNat := by
  have hformat : formatUint64 4294967296 = [48] := decimal_of_lt (by decide)
  rw [hformat]
  decide +kernel

/-! ## ip2long -/

/-- An address of four octets. -/
structure Address where
  a : UInt8
  b : UInt8
  c : UInt8
  d : UInt8
  deriving DecidableEq

namespace Address

def octets (x : Address) : List UInt8 := [x.a, x.b, x.c, x.d]

/-- The dotted quad. -/
def text (x : Address) : Str :=
  decimal x.a.toNat ++ 46 :: (decimal x.b.toNat ++ 46 ::
    (decimal x.c.toNat ++ 46 :: decimal x.d.toNat))

def value (x : Address) : Nat :=
  x.a.toNat * 2 ^ 24 + x.b.toNat * 2 ^ 16 + x.c.toNat * 2 ^ 8 + x.d.toNat

/-- No octet has two digits more than the first. -/
def Even (x : Address) : Prop := 10 ≤ x.a ∨ x.b < 100 ∧ x.c < 100 ∧ x.d < 100

instance (x : Address) : Decidable x.Even := inferInstanceAs (Decidable (_ ∨ _))

end Address

theorem dot_notMem_decimal (n : Nat) : 46 ∉ decimal n := fun h =>
  absurd (digit_of_mem_decimal h).1 (by decide)

/-- The first dot from a position on. -/
theorem findDot_of_drop {s x y : Str} {p q : Nat} {pos : Int} (hs : s.drop p = x ++ 46 :: y)
    (hx : 46 ∉ x) (hpos : pos = p) (hq : q = p + x.length) (hlt : q < 2 ^ 31) :
    findDot s pos = q := by
  have hmod : (pos % 2 ^ 64).toNat = p := by omega
  have hbreak : breakOn (ascii ['.']) (s.drop p) = some (x, y) := by
    rw [hs]
    exact breakOn_append_cons hx y
  rw [findDot, hmod, findFrom_of_some hbreak, hq]
  exact i32_eq_self ⟨by omega, by omega⟩

theorem substr_of_drop {s t : Str} {p n : Nat} {pos : Int} (hs : s.drop p = t)
    (hpos : pos = p) (hp : p ≤ s.length) (hp' : p < 2 ^ 31) (hn : n < 2 ^ 31) :
    substr s pos n = .ok (t.take n) := by
  have hmod : pos % 2 ^ 64 = p := by omega
  have hcount : (n : Int) % 2 ^ 64 = n := by omega
  rw [substr, hmod, hcount, if_neg (by omega), Int.toNat_natCast, Int.toNat_natCast, hs]

/-- The rest of the string from a position on. -/
theorem substr_npos {s t : Str} {p : Nat} {pos : Int} (hs : s.drop p = t) (hpos : pos = p)
    (hp : p ≤ s.length) (hp' : p < 2 ^ 31) (ht : t.length < 2 ^ 64) :
    substr s pos (-1) = .ok t := by
  have hmod : pos % 2 ^ 64 = p := by omega
  have hcount : ((-1 : Int) % 2 ^ 64).toNat = 2 ^ 64 - 1 := by decide
  rw [substr, hmod, hcount, if_neg (by omega), Int.toNat_natCast, hs,
    List.take_of_length_le (by omega)]

/-- A part of the address, with the dot behind it and a length that is not its own. -/
theorem atouint32Len_part (n : Nat) {t : Str} (ht : t.takeWhile isdigit = []) {len : Nat}
    (hlen : 0 < len) :
    atouint32Len (decimal n ++ t ++ [0]) len =
      .ok (n / 10 ^ ((decimal n).length - (len + 1)) % 2 ^ 32) := by
  have hdigits : (decimal n ++ t).takeWhile isdigit = decimal n := by
    rw [List.takeWhile_append_of_pos, ht, List.append_nil]
    intro c hc
    simpa [isdigit] using digit_of_mem_decimal hc
  have htoNat : ((len : Int) + 1).toNat = len + 1 := by omega
  rw [atouint32Len, if_neg (by omega), digitLoop_str, hdigits, htoNat, ofDecimal_take]

/-- What is read of an octet behind a first one. -/
def readOctet (first n : UInt8) : Nat :=
  if first < 10 ∧ 100 ≤ n then n.toNat / 10 else n.toNat

/-- What is left of an octet when it is cut by the length of the first. -/
theorem readOctet_eq (first n : UInt8) :
    n.toNat / 10 ^ ((decimal n.toNat).length - ((decimal first.toNat).length + 1)) % 2 ^ 32 =
      readOctet first n := by
  have hn := n.toNat_lt
  have hfirst := first.toNat_lt
  have h3 : (decimal n.toNat).length ≤ 3 := (length_decimal_le_iff (by decide)).mpr (by omega)
  have h2 : (decimal n.toNat).length ≤ 2 ↔ n.toNat < 10 ^ 2 := length_decimal_le_iff (by decide)
  have h1 : (decimal first.toNat).length ≤ 1 ↔ first.toNat < 10 ^ 1 :=
    length_decimal_le_iff (by decide)
  have hpos := length_decimal_pos first.toNat
  rw [readOctet]
  simp only [UInt8.lt_iff_toNat_lt, UInt8.le_iff_toNat_le]
  split
  · next h =>
      have hsub : (decimal n.toNat).length - ((decimal first.toNat).length + 1) = 1 := by
        have ha : first.toNat < 10 := h.1
        have hb : 100 ≤ n.toNat := h.2
        omega
      rw [hsub]
      omega
  · next h =>
      have hsub : (decimal n.toNat).length - ((decimal first.toNat).length + 1) = 0 := by
        have h' : ¬ (first.toNat < 10 ∧ 100 ≤ n.toNat) := h
        omega
      rw [hsub]
      omega

/-- A part that is cut out too long: behind its digits stands the dot. -/
theorem substr_part {s r : Str} {p k n : Nat} {pos : Int} (hs : s.drop p = decimal n ++ 46 :: r)
    (hpos : pos = p) (hp : p < 2 ^ 31) (hk : k < 2 ^ 31) (hn : (decimal n).length ≤ k) :
    ∃ t, t.takeWhile isdigit = [] ∧ substr s pos k = .ok (decimal n ++ t) := by
  have hle : p ≤ s.length := by
    have hlen := congrArg List.length hs
    simp only [List.length_drop, List.length_append, List.length_cons] at hlen
    omega
  refine ⟨(46 :: r).take (k - (decimal n).length), ?_, ?_⟩
  · cases k - (decimal n).length <;> rfl
  · rw [substr_of_drop hs hpos hle hp hk, List.take_append, List.take_of_length_le hn]

theorem drop_behind {s x y : Str} {p q : Nat} {c : UInt8} (hs : s.drop p = x ++ c :: y)
    (hq : q = p + x.length) : s.drop (q + 1) = y := by
  have hlen : x.length + 1 = (x ++ [c]).length := by simp
  rw [hq, Nat.add_assoc, ← List.drop_drop, hs, List.append_cons, hlen, List.drop_left]

theorem length_octet (n : UInt8) :
    0 < (decimal n.toNat).length ∧ (decimal n.toNat).length ≤ 3 := by
  have hn := n.toNat_lt
  exact ⟨length_decimal_pos _, (length_decimal_le_iff (by decide)).mpr (by omega)⟩

/-- What is read of an octet, with the length of the first. -/
theorem atouint32Len_octet (first n : UInt8) {t : Str} (ht : t.takeWhile isdigit = []) :
    atouint32Len (decimal n.toNat ++ t ++ [0]) (i32 (decimal first.toNat).length) =
      .ok (readOctet first n) := by
  obtain ⟨hpos, hle⟩ := length_octet first
  rw [i32_eq_self ⟨by omega, by omega⟩, atouint32Len_part n.toNat ht hpos, readOctet_eq]

/-- The first octet is read with its own length. -/
theorem readOctet_self (first : UInt8) : readOctet first first = first.toNat := by
  unfold readOctet
  split
  · next h =>
      have hlt : first.toNat < 10 := h.1
      have hle : 100 ≤ first.toNat := h.2
      omega
  · rfl

theorem readOctet_lt (first n : UInt8) : readOctet first n < 2 ^ 8 := by
  have hn := n.toNat_lt
  unfold readOctet
  split <;> omega

/-- Four octets in 32 bits: no shift loses a bit, and the sum does not wrap. -/
theorem sum_octets {a b c d : Nat} (ha : a < 2 ^ 8) (hb : b < 2 ^ 8) (hc : c < 2 ^ 8)
    (hd : d < 2 ^ 8) :
    ((a <<< 24) % 2 ^ 32 + (b <<< 16) % 2 ^ 32 + (c <<< 8) % 2 ^ 32 + d) % 2 ^ 32 =
      a * 2 ^ 24 + b * 2 ^ 16 + c * 2 ^ 8 + d := by
  rw [Nat.shiftLeft_eq, Nat.shiftLeft_eq, Nat.shiftLeft_eq]
  omega

/-- `ip2long` of an address: the octets behind the first, as they are read. -/
theorem ip2long_text (x : Address) :
    ip2long x.text = .ok (x.a.toNat * 2 ^ 24 + readOctet x.a x.b * 2 ^ 16 +
      readOctet x.a x.c * 2 ^ 8 + readOctet x.a x.d) := by
  obtain ⟨a, b, c, d⟩ := x
  obtain ⟨hla, hla'⟩ := length_octet a
  obtain ⟨-, hlb⟩ := length_octet b
  obtain ⟨-, hlc⟩ := length_octet c
  obtain ⟨-, hld⟩ := length_octet d
  -- the positions of the dots, and what stands behind each
  generalize hs : (Address.mk a b c d).text = s
  obtain ⟨p₁, hp₁⟩ : ∃ p, p = 0 + (decimal a.toNat).length := ⟨_, rfl⟩
  obtain ⟨p₂, hp₂⟩ : ∃ p, p = p₁ + 1 + (decimal b.toNat).length := ⟨_, rfl⟩
  obtain ⟨p₃, hp₃⟩ : ∃ p, p = p₂ + 1 + (decimal c.toNat).length := ⟨_, rfl⟩
  have h₀ : s.drop 0 = decimal a.toNat ++ 46 :: (decimal b.toNat ++ 46 ::
      (decimal c.toNat ++ 46 :: decimal d.toNat)) := hs.symm
  have h₁ := drop_behind h₀ hp₁
  have h₂ := drop_behind h₁ hp₂
  have h₃ := drop_behind h₂ hp₃
  have hlen : p₃ + 1 ≤ s.length := by
    have h := congrArg List.length hs
    simp only [Address.text, List.length_append, List.length_cons] at h
    omega
  have hpos₁ : findDot s 0 = p₁ :=
    findDot_of_drop h₀ (dot_notMem_decimal _) rfl hp₁ (by omega)
  have hpos₂ : findDot s (p₁ + 1) = p₂ :=
    findDot_of_drop h₁ (dot_notMem_decimal _) (by omega) hp₂ (by omega)
  have hpos₃ : findDot s (p₂ + 1) = p₃ :=
    findDot_of_drop h₂ (dot_notMem_decimal _) (by omega) hp₃ (by omega)
  have hip₀ : substr s 0 p₁ = .ok (decimal a.toNat) := by
    have hsub : substr s 0 p₁ = .ok (_ : Str) :=
      substr_of_drop h₀ rfl (Nat.zero_le _) (by omega) (by omega)
    rw [hsub, hp₁, Nat.zero_add, List.take_left]
  obtain ⟨t₁, ht₁, hip₁⟩ : ∃ t, t.takeWhile isdigit = [] ∧
      substr s (p₁ + 1) p₂ = .ok (decimal b.toNat ++ t) :=
    substr_part h₁ (by omega) (by omega) (by omega) (by omega)
  obtain ⟨t₂, ht₂, hip₂⟩ : ∃ t, t.takeWhile isdigit = [] ∧
      substr s (p₂ + 1) p₃ = .ok (decimal c.toNat ++ t) :=
    substr_part h₂ (by omega) (by omega) (by omega) (by omega)
  have hip₃ : substr s (p₃ + 1) (-1) = .ok (decimal d.toNat) :=
    substr_npos h₃ (by omega) hlen (by omega) (by omega)
  have hread₀ := atouint32Len_octet a a (t := []) rfl
  have hread₁ := atouint32Len_octet a b ht₁
  have hread₂ := atouint32Len_octet a c ht₂
  have hread₃ := atouint32Len_octet a d (t := []) rfl
  rw [List.append_nil] at hread₀ hread₃
  rw [readOctet_self] at hread₀
  have hsum := sum_octets a.toNat_lt (readOctet_lt a b) (readOctet_lt a c) (readOctet_lt a d)
  rw [ip2long]
  simp only [hpos₁, hpos₂, hpos₃]
  rw [hip₀, ok_bind, hip₁, ok_bind, hip₂, ok_bind, hip₃, ok_bind, hread₀, ok_bind, hread₁,
    ok_bind, hread₂, ok_bind, hread₃, ok_bind, hsum]
  rfl

/-- An octet of three digits is cut short behind a first one of one digit. -/
theorem readOctet_eq_iff (first n : UInt8) :
    readOctet first n = n.toNat ↔ 10 ≤ first ∨ n < 100 := by
  simp only [readOctet, UInt8.lt_iff_toNat_lt, UInt8.le_iff_toNat_le, UInt8.reduceToNat]
  split <;> omega

/-- Octets in 32 bits do not run into each other. -/
theorem sum_octets_inj {a b c d a' b' c' d' : Nat} (hb : b < 2 ^ 8) (hc : c < 2 ^ 8)
    (hd : d < 2 ^ 8) (hb' : b' < 2 ^ 8) (hc' : c' < 2 ^ 8) (hd' : d' < 2 ^ 8) :
    a * 2 ^ 24 + b * 2 ^ 16 + c * 2 ^ 8 + d = a' * 2 ^ 24 + b' * 2 ^ 16 + c' * 2 ^ 8 + d' ↔
      a = a' ∧ b = b' ∧ c = c' ∧ d = d' := by
  omega

/-- The number of an address is its value exactly when no octet has two digits more than the
first. -/
theorem ip2long_text_iff (x : Address) : ip2long x.text = .ok x.value ↔ x.Even := by
  rw [ip2long_text, Except.ok.injEq, Address.value,
    sum_octets_inj (readOctet_lt _ _) (readOctet_lt _ _) (readOctet_lt _ _) x.b.toNat_lt
      x.c.toNat_lt x.d.toNat_lt, readOctet_eq_iff, readOctet_eq_iff, readOctet_eq_iff, Address.Even]
  tauto

/-- Addresses and their values are ordered alike. -/
theorem value_lt_iff (x y : Address) : x.value < y.value ↔ x.octets < y.octets := by
  have hb := x.b.toNat_lt
  have hc := x.c.toNat_lt
  have hd := x.d.toNat_lt
  have hb' := y.b.toNat_lt
  have hc' := y.c.toNat_lt
  have hd' := y.d.toNat_lt
  simp only [Address.octets, List.cons_lt_cons_iff, List.not_lt_nil, and_false, or_false,
    UInt8.lt_iff_toNat_lt, ← UInt8.toNat_inj]
  rw [Address.value, Address.value]
  omega

theorem value_inj {x y : Address} (h : x.value = y.value) : x = y := by
  rw [Address.value, Address.value, sum_octets_inj x.b.toNat_lt x.c.toNat_lt x.d.toNat_lt
    y.b.toNat_lt y.c.toNat_lt y.d.toNat_lt] at h
  rw [Address.mk.injEq, ← UInt8.toNat_inj, ← UInt8.toNat_inj, ← UInt8.toNat_inj,
    ← UInt8.toNat_inj]
  exact h

/-- **`ip2long`** gives the value of an address exactly when no octet is cut short, and on
such addresses it is injective and keeps the order. -/
theorem ip2long_iff (x y : Address) :
    (ip2long x.text = .ok x.value ↔ x.Even) ∧
      (x.Even → y.Even → (ip2long x.text = ip2long y.text → x = y) ∧
        ∃ m n, ip2long x.text = .ok m ∧ ip2long y.text = .ok n ∧
          (m < n ↔ x.octets < y.octets)) := by
  refine ⟨ip2long_text_iff x, fun hx hy => ?_⟩
  have hx' := (ip2long_text_iff x).mpr hx
  have hy' := (ip2long_text_iff y).mpr hy
  refine ⟨fun h => ?_, x.value, y.value, hx', hy', value_lt_iff x y⟩
  rw [hx', hy', Except.ok.injEq] at h
  exact value_inj h

/-- Two addresses whose numbers are right, and in order. -/
theorem ip2long_iff_loopback :
    ip2long (Address.mk 127 0 0 1).text = .ok 2130706433 ∧
      ∃ m n, ip2long (Address.mk 127 0 0 1).text = .ok m ∧
        ip2long (Address.mk 192 168 0 1).text = .ok n ∧ m < n := by
  obtain ⟨hvalue, horder⟩ := ip2long_iff ⟨127, 0, 0, 1⟩ ⟨192, 168, 0, 1⟩
  obtain ⟨-, m, n, hm, hn, hlt⟩ := horder (by decide) (by decide)
  exact ⟨hvalue.mpr (by decide), m, n, hm, hn, hlt.mpr (by decide)⟩

/-- `1.100.0.0` is read as `1.10.0.0`. -/
theorem ip2long_cuts_octet :
    ip2long (Address.mk 1 100 0 0).text = ip2long (Address.mk 1 10 0 0).text ∧
      ip2long (Address.mk 1 100 0 0).text ≠ .ok (Address.mk 1 100 0 0).value := by
  rw [ip2long_text, ip2long_text]
  decide +kernel

end

end MySrc
