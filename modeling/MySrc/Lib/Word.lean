import MySrc.Lib.Run

/-!
# MySrc.Lib.Word

Fixed-width integers: the 32-bit signed integers of C, with arithmetic modulo
`2 ^ 32`, and the bytes of a word in memory.

`htonN` turns a word of the host into one whose bytes in memory are in network
order; which bytes a host word has in memory depends on the host's `Endian`.
A word that went through `htonN` has the same bytes on every host
(`storeWord_htonN`), so a format written that way does not depend on it.
-/

namespace Lib

/-! ## the int of C -/

/-- The `int` that an integer is cut to. -/
@[irreducible] def i32 (x : Int) : Int := x.bmod (2 ^ 32)

/-- The integers an `int` can hold. -/
def IsI32 (x : Int) : Prop := -(2 ^ 31) ≤ x ∧ x < 2 ^ 31

instance (x : Int) : Decidable (IsI32 x) := inferInstanceAs (Decidable (_ ∧ _))

theorem i32_eq_self (h : IsI32 x) : i32 x = x := by
  unfold IsI32 at h
  unfold i32
  rw [Int.bmod_def]
  omega

theorem isI32_i32 (x : Int) : IsI32 (i32 x) := by
  unfold IsI32 i32
  rw [Int.bmod_def]
  omega

/-- A sum that is too large for an `int`, but not by more than one turn, comes
out negative or small. -/
theorem i32_of_overflow (h : 2 ^ 31 ≤ x) (h' : x < 2 ^ 32 + 2 ^ 31) : i32 x = x - 2 ^ 32 := by
  unfold i32
  rw [Int.bmod_def]
  omega

/-- A number that is too large for an `int` loses at least one turn. -/
theorem i32_add_le (h : 2 ^ 31 ≤ x) : i32 x + 2 ^ 32 ≤ x := by
  unfold i32
  rw [Int.bmod_def]
  omega

/-- Only the bits of the operands count. -/
theorem i32_add_i32 (x y : Int) : i32 (x + i32 y) = i32 (x + y) := by
  unfold i32
  exact Int.add_bmod_bmod

/-- Cutting a summand does not change the sum. -/
theorem i32_i32_add (x y : Int) : i32 (i32 x + y) = i32 (x + y) := by
  unfold i32
  exact Int.bmod_add_bmod

/-- Cutting a factor does not change the product. -/
theorem i32_mul_i32 (x y : Int) : i32 (x * i32 y) = i32 (x * y) := by
  unfold i32
  exact Int.mul_bmod_bmod

theorem i32_natCast_le (n : Nat) : i32 n ≤ n := by
  unfold i32
  rw [Int.bmod_def]
  omega

theorem i32_emod (x : Int) : i32 (x % 2 ^ 32) = i32 x := by
  unfold i32
  exact Int.emod_bmod x (2 ^ 32)

/-- The numbers whose bits are those of the least `int`. -/
theorem i32_eq_least_iff (x : Int) : i32 x = -(2 ^ 31) ↔ x % 2 ^ 32 = 2 ^ 31 := by
  unfold i32
  rw [Int.bmod_def]
  omega

/-! ## bytes, least significant first -/

/-- The `n` low bytes of `x`, least significant first. -/
def leBytes : Nat → Nat → List UInt8
  | 0, _ => []
  | n + 1, x => UInt8.ofNat x :: leBytes n (x / 256)

/-- The value of some bytes, least significant first. -/
def ofLeBytes : List UInt8 → Nat
  | [] => 0
  | b :: bs => b.toNat + 256 * ofLeBytes bs

@[simp] theorem length_leBytes (n x : Nat) : (leBytes n x).length = n := by
  induction n generalizing x with
  | zero => rfl
  | succ n ih => rw [leBytes, List.length_cons, ih]

/-- The bytes of a number give it back, modulo the width. -/
theorem ofLeBytes_leBytes (n x : Nat) : ofLeBytes (leBytes n x) = x % 256 ^ n := by
  induction n generalizing x with
  | zero => rw [Nat.pow_zero, Nat.mod_one, leBytes, ofLeBytes]
  | succ n ih =>
      have hsplit : x % 256 ^ (n + 1) = x % 256 + 256 * (x / 256 % 256 ^ n) := by
        rw [Nat.pow_succ', Nat.mod_mul]
      rw [leBytes, ofLeBytes, ih, UInt8.toNat_ofNat', hsplit]

/-- Bytes come back from their number. -/
theorem leBytes_ofLeBytes (bs : List UInt8) : leBytes bs.length (ofLeBytes bs) = bs := by
  induction bs with
  | nil => rfl
  | cons b bs ih =>
      have hb := b.toNat_lt
      have hlow : UInt8.ofNat (b.toNat + 256 * ofLeBytes bs) = b := by
        apply UInt8.toNat_inj.mp
        rw [UInt8.toNat_ofNat']
        omega
      have hdiv : (b.toNat + 256 * ofLeBytes bs) / 256 = ofLeBytes bs := by omega
      rw [List.length_cons, ofLeBytes, leBytes, hlow, hdiv, ih]

theorem ofLeBytes_lt (bs : List UInt8) : ofLeBytes bs < 256 ^ bs.length := by
  rw [← leBytes_ofLeBytes bs, ofLeBytes_leBytes, length_leBytes]
  exact Nat.mod_lt _ (Nat.pow_pos (by decide))

/-! ## words in memory -/

/-- The byte order of a host. -/
inductive Endian
  | little
  | big
  deriving Repr, DecidableEq

/-- The bytes of a word of `n` bytes in the memory of a host. -/
def storeWord (host : Endian) (n x : Nat) : List UInt8 :=
  match host with
  | .little => leBytes n x
  | .big => (leBytes n x).reverse

/-- The word that some bytes in the memory of a host are. -/
def loadWord (host : Endian) (bs : List UInt8) : Nat :=
  match host with
  | .little => ofLeBytes bs
  | .big => ofLeBytes bs.reverse

/-- `htonl` and `ntohl` for words of `n` bytes: a host with the byte order of
the network does nothing, the other one turns the bytes around. -/
def htonN (host : Endian) (n x : Nat) : Nat :=
  match host with
  | .little => ofLeBytes (leBytes n x).reverse
  | .big => x % 256 ^ n

/-- The bytes of a word in network order. -/
def netBytes (n x : Nat) : List UInt8 := (leBytes n x).reverse

/-- The word that some bytes in network order are. -/
def ofNetBytes (bs : List UInt8) : Nat := ofLeBytes bs.reverse

@[simp] theorem length_netBytes (n x : Nat) : (netBytes n x).length = n := by
  rw [netBytes, List.length_reverse, length_leBytes]

@[simp] theorem length_storeWord (host : Endian) (n x : Nat) : (storeWord host n x).length = n := by
  cases host <;> simp [storeWord]

/-- The network bytes of a number give it back, modulo the width. -/
theorem ofNetBytes_netBytes (n x : Nat) : ofNetBytes (netBytes n x) = x % 256 ^ n := by
  rw [ofNetBytes, netBytes, List.reverse_reverse, ofLeBytes_leBytes]

theorem ofNetBytes_lt (bs : List UInt8) : ofNetBytes bs < 256 ^ bs.length := by
  rw [← List.length_reverse]
  exact ofLeBytes_lt _

/-- What is stored is loaded, modulo the width. -/
theorem loadWord_storeWord (host : Endian) (n x : Nat) :
    loadWord host (storeWord host n x) = x % 256 ^ n := by
  cases host with
  | little => exact ofLeBytes_leBytes n x
  | big => exact ofNetBytes_netBytes n x

/-- Storing what was loaded changes nothing. -/
theorem storeWord_loadWord (host : Endian) (bs : List UInt8) :
    storeWord host bs.length (loadWord host bs) = bs := by
  cases host with
  | little => exact leBytes_ofLeBytes bs
  | big =>
      have h := leBytes_ofLeBytes bs.reverse
      rw [List.length_reverse] at h
      simp only [storeWord, loadWord, h, List.reverse_reverse]

theorem leBytes_mod (n x : Nat) : leBytes n (x % 256 ^ n) = leBytes n x := by
  have h := leBytes_ofLeBytes (leBytes n x)
  rwa [length_leBytes, ofLeBytes_leBytes] at h

theorem netBytes_mod (n x : Nat) : netBytes n (x % 256 ^ n) = netBytes n x :=
  congrArg List.reverse (leBytes_mod n x)

/-- A word that went through `htonl` has its bytes in network order. -/
theorem storeWord_htonN (host : Endian) (n x : Nat) :
    storeWord host n (htonN host n x) = netBytes n x := by
  cases host with
  | little =>
      have h := leBytes_ofLeBytes (leBytes n x).reverse
      rwa [List.length_reverse, length_leBytes] at h
  | big => exact netBytes_mod n x

/-- `ntohl` of a word whose bytes are in network order is that word. -/
theorem htonN_loadWord (host : Endian) (bs : List UInt8) :
    htonN host bs.length (loadWord host bs) = ofNetBytes bs := by
  cases host with
  | little => exact congrArg (fun l => ofLeBytes l.reverse) (leBytes_ofLeBytes bs)
  | big => exact Nat.mod_eq_of_lt (ofNetBytes_lt bs)

theorem htonN_lt (host : Endian) (n x : Nat) : htonN host n x < 256 ^ n := by
  cases host with
  | little =>
      have h := ofLeBytes_lt (leBytes n x).reverse
      rwa [List.length_reverse, length_leBytes] at h
  | big => exact Nat.mod_lt _ (Nat.pow_pos (by decide))

/-- `htonl` and `ntohl` are inverse to each other. -/
theorem htonN_htonN (host : Endian) (n x : Nat) :
    htonN host n (htonN host n x) = x % 256 ^ n := by
  have h := htonN_loadWord host (storeWord host n (htonN host n x))
  rwa [loadWord_storeWord, length_storeWord, storeWord_htonN, ofNetBytes_netBytes,
    Nat.mod_eq_of_lt (htonN_lt host n x)] at h

end Lib
