import MySrc.Lib.Layout
import MySrc.PythonProjects.UnpackLoops

/-!
# MySrc.PythonProjects.FieldPackers

The length that `pack_str_field`, `pack_num_field` and `pack_uint64_field` write in front of
a field.

The last two take it from `struct.calcsize` of a format without `!`, which pads the members
as a C compiler does, while the bytes are written without padding.  The length is right when
the key leaves nothing to pad (`fields_truthful_iff`).
-/

namespace MySrc
namespace PythonProjects
namespace DatagramFactory

open Lib

/-! ## formats -/

/-- The interpreter's C compiler, as far as `struct` depends on it. -/
inductive Abi
  | i386
  | amd64
  deriving Repr, DecidableEq

/-- The alignment of an `unsigned long long`. -/
def Abi.alignQ : Abi → Nat
  | .i386 => 4
  | .amd64 => 8

/-- The codes of the formats. -/
inductive Code
  | i
  | s (n : Nat)
  | Q
  deriving Repr, DecidableEq

/-- The size of a code, and its native alignment. -/
def Code.member (abi : Abi) : Code → Member
  | .i => ⟨4, 4⟩
  | .s n => ⟨n, 1⟩
  | .Q => ⟨8, abi.alignQ⟩

/-- `struct.calcsize` of a format without a byte-order prefix. -/
def calcsize (abi : Abi) (fmt : List Code) : Nat := paddedEnd (fmt.map (Code.member abi)) 0

/-- `struct.pack('!i', v)` -/
def packSigned (v : Int) : Option Str :=
  if IsI32 v then some (netBytes 4 (v % 2 ^ 32).toNat) else none

/-- `struct.pack('!Q', v)` -/
def packUint64 (v : Int) : Option Str :=
  if 0 ≤ v ∧ v < 2 ^ 64 then some (netBytes 8 v.toNat) else none

/-! ## the packers -/

/-- The body of the packers of numbers: the format ends with `code`, which `pack_v` writes. -/
def packNumber (abi : Abi) (code : Code) (len_v : Nat) (pack_v : Int → Option Str) (k : Str)
    (v : Int) : Option Str := do
  let len_field ← packInt (calcsize abi [.i, .s k.length, .i, code])
  let len_k ← packInt k.length
  let len_v ← packInt len_v
  let num ← pack_v v
  return len_field ++ len_k ++ k ++ len_v ++ num

/-- `pack_num_field` -/
def packNumField (abi : Abi) : Str → Int → Option Str := packNumber abi .i 4 packSigned

/-- `pack_uint64_field` -/
def packUint64Field (abi : Abi) : Str → Int → Option Str := packNumber abi .Q 8 packUint64

/-- A field with the packer that is called for it. -/
inductive FieldSpec
  | str (k v : Str)
  | num (k : Str) (v : Int)
  | uint64 (k : Str) (v : Int)
  deriving Repr, DecidableEq

/-- The bytes of a field, unless `struct.pack` raises an exception. -/
def FieldSpec.pack (abi : Abi) : FieldSpec → Option Str
  | .str k v => packStrField k v
  | .num k v => packNumField abi k v
  | .uint64 k v => packUint64Field abi k v

/-- The key of a number ends where the number is aligned. -/
def FieldSpec.Aligned (abi : Abi) : FieldSpec → Prop
  | .str _ _ => True
  | .num k _ => 4 ∣ k.length
  | .uint64 k _ => abi.alignQ ∣ k.length

instance (abi : Abi) : DecidablePred (FieldSpec.Aligned abi)
  | .str _ _ => isTrue trivial
  | .num _ _ => inferInstanceAs (Decidable (_ ∣ _))
  | .uint64 _ _ => inferInstanceAs (Decidable (_ ∣ _))

/-- The length in front of a field is that of the rest of it. -/
def Truthful (field : Str) : Prop := lengthAt field 0 = some ((field.length : Int) - 4)

/-! ## the length in front -/

theorem packInt_eq_some (h : packInt n = some b) : n < 2 ^ 31 ∧ b = netBytes 4 n := by
  rw [packInt] at h
  split at h
  · next hn => exact ⟨hn, (Option.some.inj h).symm⟩
  · cases h

/-- A length and what follows it. -/
theorem truthful_iff {n : Nat} (hn : n < 2 ^ 31) (rest : Str) :
    Truthful (netBytes 4 n ++ rest) ↔ n = rest.length := by
  have hslice := slice_append [] (netBytes 4 n) rest
  rw [length_netBytes] at hslice
  have hlen : lengthAt (netBytes 4 n ++ rest) 0 = some (n : Int) :=
    (congrArg unpackInt hslice).trans (unpackInt_netBytes hn)
  rw [Truthful, hlen, Option.some.injEq, List.length_append, length_netBytes]
  push_cast
  omega

/-- The members of a packed number field, one behind the other. -/
theorem calcsize_eq_iff (abi : Abi) (fmt : List Code) :
    calcsize abi fmt = packedEnd (fmt.map (Code.member abi)) 0 ↔
      Unpadded (fmt.map (Code.member abi)) 0 := by
  refine paddedEnd_eq_iff (fun m hm => ?_) 0
  obtain ⟨code, -, rfl⟩ := List.mem_map.mp hm
  cases code with
  | i => exact Nat.zero_lt_succ 3
  | s n => exact Nat.one_pos
  | Q => cases abi <;> exact Nat.zero_lt_succ _

theorem unpadded_num (abi : Abi) (n : Nat) :
    Unpadded ([Code.i, .s n, .i, .i].map (Code.member abi)) 0 ↔ 4 ∣ n := by
  simp only [List.map_cons, List.map_nil, Code.member, Unpadded, and_true]
  omega

theorem unpadded_uint64 (abi : Abi) (n : Nat) :
    Unpadded ([Code.i, .s n, .i, .Q].map (Code.member abi)) 0 ↔ abi.alignQ ∣ n := by
  simp only [List.map_cons, List.map_nil, Code.member, Unpadded, and_true]
  cases abi
  · simp only [Abi.alignQ]
    omega
  · simp only [Abi.alignQ]
    omega

theorem length_packSigned (h : packSigned v = some b) : b.length = 4 := by
  rw [packSigned] at h
  split at h
  · rw [← Option.some.inj h, length_netBytes]
  · cases h

theorem length_packUint64 (h : packUint64 v = some b) : b.length = 8 := by
  rw [packUint64] at h
  split at h
  · rw [← Option.some.inj h, length_netBytes]
  · cases h

/-- A packed number field. -/
theorem packNumber_spec {abi : Abi} {code : Code} {pack_v : Int → Option Str}
    (hsize : ∀ num, pack_v v = some num → num.length = (code.member abi).size)
    (h : packNumber abi code len_v pack_v k v = some b) :
    ∃ n rest, b = netBytes 4 n ++ rest ∧ n < 2 ^ 31 ∧
      (n = rest.length ↔ Unpadded ([.i, .s k.length, .i, code].map (Code.member abi)) 0) := by
  obtain ⟨len_field, hfield, h⟩ := Option.bind_eq_some_iff.mp h
  obtain ⟨hn, rfl⟩ := packInt_eq_some hfield
  obtain ⟨len_k, hk, h⟩ := Option.bind_eq_some_iff.mp h
  obtain ⟨-, rfl⟩ := packInt_eq_some hk
  obtain ⟨len_v', hv, h⟩ := Option.bind_eq_some_iff.mp h
  obtain ⟨-, rfl⟩ := packInt_eq_some hv
  obtain ⟨num, hnum, h⟩ := Option.bind_eq_some_iff.mp h
  obtain rfl := Option.some.inj h
  refine ⟨_, netBytes 4 k.length ++ k ++ netBytes 4 len_v ++ num,
    by simp only [List.append_assoc], hn, ?_⟩
  have hend : packedEnd ([.i, .s k.length, .i, code].map (Code.member abi)) 0 =
      (netBytes 4 k.length ++ k ++ netBytes 4 len_v ++ num).length := by
    simp only [List.length_append, length_netBytes, hsize num hnum, List.map_cons, List.map_nil,
      Code.member, packedEnd, Nat.zero_add]
  rw [← calcsize_eq_iff, hend]

/-- **A packed field**: a length and the rest; the length is right when the key is aligned. -/
theorem FieldSpec.pack_spec {abi : Abi} {f : FieldSpec} (h : f.pack abi = some b) :
    ∃ n rest, b = netBytes 4 n ++ rest ∧ n < 2 ^ 31 ∧ (n = rest.length ↔ f.Aligned abi) := by
  cases f with
  | str k v =>
      obtain ⟨len_field, hfield, h⟩ := Option.bind_eq_some_iff.mp h
      obtain ⟨hn, rfl⟩ := packInt_eq_some hfield
      obtain ⟨len_k, hk, h⟩ := Option.bind_eq_some_iff.mp h
      obtain ⟨-, rfl⟩ := packInt_eq_some hk
      obtain ⟨len_v, hv, h⟩ := Option.bind_eq_some_iff.mp h
      obtain ⟨-, rfl⟩ := packInt_eq_some hv
      obtain rfl := Option.some.inj h
      refine ⟨_, netBytes 4 k.length ++ k ++ netBytes 4 v.length ++ v,
        by simp only [List.append_assoc], hn, iff_of_true ?_ trivial⟩
      simp only [List.length_append, length_netBytes]
      omega
  | num k v =>
      rw [FieldSpec.Aligned, ← unpadded_num abi]
      exact packNumber_spec (fun _ => length_packSigned) h
  | uint64 k v =>
      rw [FieldSpec.Aligned, ← unpadded_uint64 abi]
      exact packNumber_spec (fun _ => length_packUint64) h

/-- The length in front of a packed field is right when the key is aligned. -/
theorem FieldSpec.truthful_pack_iff {abi : Abi} {f : FieldSpec} (h : f.pack abi = some b) :
    Truthful b ↔ f.Aligned abi := by
  obtain ⟨n, rest, rfl, hn, hiff⟩ := pack_spec h
  rw [truthful_iff hn, hiff]

/-- A field with the right length in front is a part. -/
theorem FieldSpec.chunk_of_truthful {abi : Abi} {f : FieldSpec} (h : f.pack abi = some b)
    (htruth : Truthful b) : b = chunk (b.drop 4) ∧ (b.drop 4).length < 2 ^ 31 := by
  obtain ⟨n, rest, rfl, hn, -⟩ := pack_spec h
  obtain rfl := (truthful_iff hn rest).mp htruth
  have hdrop : (netBytes 4 rest.length ++ rest).drop 4 = rest :=
    List.drop_left' (length_netBytes 4 _)
  rw [hdrop]
  exact ⟨rfl, hn⟩

/-! ## fields one behind the other -/

/-- **The lengths are right, and `unpack_row` finds the fields**, exactly when the key of every
number field is aligned. -/
theorem fields_truthful_iff (abi : Abi) (fields : List FieldSpec) (packed : List Str)
    (hpacked : fields.map (FieldSpec.pack abi) = packed.map some) :
    (∀ b ∈ packed, Truthful b) ∧
        parts packed.flatten packed.flatten.length =
          .ok (packed.map fun b => ((b.length : Int) - 4, b.drop 4), false) ↔
      ∀ f ∈ fields, f.Aligned abi := by
  have hall : (∀ b ∈ packed, Truthful b) ↔ ∀ f ∈ fields, f.Aligned abi := by
    induction fields generalizing packed with
    | nil =>
        obtain rfl := List.map_eq_nil_iff.mp hpacked.symm
        simp
    | cons f fields ih =>
        obtain ⟨b, bs, rfl, hb, hbs⟩ := List.map_eq_cons_iff.mp hpacked.symm
        rw [List.forall_mem_cons, List.forall_mem_cons, ih bs hbs.symm,
          FieldSpec.truthful_pack_iff hb.symm]
  rw [← hall, and_iff_left_iff_imp]
  intro htruth
  have hchunk : ∀ b ∈ packed, b = chunk (b.drop 4) ∧ (b.drop 4).length < 2 ^ 31 := by
    intro b hb
    have hmem : some b ∈ fields.map (FieldSpec.pack abi) := by
      rw [hpacked]
      exact List.mem_map_of_mem hb
    obtain ⟨f, -, hf⟩ := List.mem_map.mp hmem
    exact FieldSpec.chunk_of_truthful hf (htruth b hb)
  have hflatten : packed.flatten = partsBytes (List.drop 4) packed := by
    rw [partsBytes, List.flatMap_congr fun b hb => (hchunk b hb).1.symm, List.flatMap_id']
  have hparts := parts_partsBytes_of_small (List.drop 4) packed fun b hb => (hchunk b hb).2
  rw [hflatten, hparts]
  congr 2
  refine List.map_congr_left fun b hb => ?_
  have hlen := congrArg List.length (hchunk b hb).1
  rw [length_chunk] at hlen
  rw [Prod.mk.injEq]
  exact ⟨by omega, rfl⟩

/-- A string and a number under a key of four bytes. -/
theorem fields_truthful_abcd :
    ∃ packed : List Str,
      [FieldSpec.str [97] [98], .num [97, 98, 99, 100] 5].map (FieldSpec.pack .amd64) =
        packed.map some ∧
      (∀ b ∈ packed, Truthful b) ∧
        parts packed.flatten packed.flatten.length =
          .ok (packed.map fun b => ((b.length : Int) - 4, b.drop 4), false) :=
  ⟨[[0, 0, 0, 10, 0, 0, 0, 1, 97, 0, 0, 0, 1, 98],
    [0, 0, 0, 16, 0, 0, 0, 4, 97, 98, 99, 100, 0, 0, 0, 4, 0, 0, 0, 5]], by decide +kernel,
    (fields_truthful_iff .amd64 [.str [97] [98], .num [97, 98, 99, 100] 5] _
      (by decide +kernel)).mpr (by decide)⟩

/-- Under a key of one byte the length of a number is 16, and 13 bytes follow. -/
theorem packNumField_padded :
    packNumField .amd64 [97] 5 =
        some [0, 0, 0, 16, 0, 0, 0, 1, 97, 0, 0, 0, 4, 0, 0, 0, 5] ∧
      ¬ Truthful [0, 0, 0, 16, 0, 0, 0, 1, 97, 0, 0, 0, 4, 0, 0, 0, 5] := by
  have hpack : FieldSpec.pack .amd64 (.num [97] 5) =
      some [0, 0, 0, 16, 0, 0, 0, 1, 97, 0, 0, 0, 4, 0, 0, 0, 5] := by
    decide +kernel
  refine ⟨hpack, fun htruth => ?_⟩
  exact absurd ((FieldSpec.truthful_pack_iff hpack).mp htruth) (by decide)

end DatagramFactory
end PythonProjects
end MySrc
