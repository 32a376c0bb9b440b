import MySrc.CxxUtils.ConfigFile
import MySrc.Lib.Word

/-!
# MySrc.NotifyAdapter.ProtocolCodec

`notify_adapter_v2/src/main/protocol_codec.cpp`: a frame is a head of two 16-bit
words, the version and the length of the body, and the body.

`hton16` turns the two bytes of a word around on every host, so what it writes
is in network order on a little-endian host only; that it is its own inverse
does not depend on the host.

The decoder accepts bodies of 1 to 4999 bytes.  The encoder takes any content
and keeps the low 16 bits of its length: `getBody_encodeBuffer_iff` says which
contents come back.
-/

namespace MySrc
namespace ProtocolCodec

open Lib

section

variable (host : Endian)

/-- `hton16` -/
def hton16 (a : Nat) : Nat := loadWord host (storeWord host 2 a).reverse

/-- `get_head_length` -/
def getHeadLength : Nat := 4

/-- `get_body_length`: `buffer_len` is the size of `pdata`, as an `int`, which the
comparison with a `sizeof` makes unsigned. -/
def getBodyLength (pdata : Str) (buffer_len : Int) : Int :=
  if buffer_len % 2 ^ 64 < getHeadLength then -1
  else
    let length := hton16 host (loadWord host ((pdata.drop 2).take 2))
    if 5000 ≤ length then -1
    else if length = 0 then -1
    else length

/-- `get_body` -/
def getBody (pdata : Str) (buffer_len : Int) (body : Str) : Int × Str :=
  let body_length := getBodyLength host pdata buffer_len
  if body_length = -1 then (-1, body)
  else if buffer_len ≠ body_length + getHeadLength then (-1, body)
  else (0, body ++ (pdata.drop getHeadLength).take body_length.toNat)

/-- `encode_buffer` -/
def encodeBuffer (version : Int) (content str_buffer : Str) : Int × Str :=
  let version := (version % 2 ^ 16).toNat
  let length := content.length % 2 ^ 16
  (0, str_buffer ++ storeWord host 2 (hton16 host version) ++
    storeWord host 2 (hton16 host length) ++ content)

end

/-! ## words -/

/-- `hton16` turns the bytes of a word around. -/
theorem storeWord_hton16 (host : Endian) (a : Nat) :
    storeWord host 2 (hton16 host a) = (storeWord host 2 a).reverse := by
  have h := storeWord_loadWord host (storeWord host 2 a).reverse
  rwa [List.length_reverse, length_storeWord] at h

/-- The word that `hton16` has turned around is turned back. -/
theorem hton16_loadWord_reverse (host : Endian) (a : Nat) :
    hton16 host (loadWord host (storeWord host 2 a).reverse) = a % 256 ^ 2 := by
  have h := storeWord_hton16 host a
  rw [hton16] at h
  rw [hton16, h, List.reverse_reverse, loadWord_storeWord]

/-- On a little-endian host the length is read in network order. -/
theorem hton16_loadWord_little {bs : List UInt8} (h : bs.length = 2) :
    hton16 .little (loadWord .little bs) = ofNetBytes bs := by
  have hstore := storeWord_loadWord .little bs
  rw [h] at hstore
  rw [hton16, hstore]
  rfl

/-! ## frames -/

/-- What the decoder makes of a head: the length, when it is in its range. -/
theorem getBodyLength_eq {host : Endian} {pdata : Str} {buffer_len : Int} {length : Nat}
    (hlen : 4 ≤ buffer_len % 2 ^ 64)
    (hword : hton16 host (loadWord host ((pdata.drop 2).take 2)) = length) :
    getBodyLength host pdata buffer_len =
      if 1 ≤ length ∧ length < 5000 then (length : Int) else -1 := by
  have hlen' : ¬ buffer_len % 2 ^ 64 < (getHeadLength : Nat) := Int.not_lt.mpr hlen
  rw [getBodyLength, if_neg hlen']
  simp only [hword]
  split_ifs <;> first | rfl | omega

/-- A frame whose head carries the length of its body is decoded. -/
theorem getBody_eq {host : Endian} {pdata : Str} {length : Nat}
    (hrange : 1 ≤ length ∧ length < 5000) (hlen : pdata.length = length + 4)
    (hword : hton16 host (loadWord host ((pdata.drop 2).take 2)) = length) :
    getBodyLength host pdata (i32 pdata.length) = length ∧
      getBody host pdata (i32 pdata.length) [] = (0, pdata.drop 4) := by
  have hint : i32 pdata.length = length + 4 := by
    rw [hlen, i32_eq_self]
    · push_cast
      rfl
    · constructor <;> omega
  have hlength : getBodyLength host pdata (length + 4) = length := by
    rw [getBodyLength_eq (by omega) hword, if_pos hrange]
  have hne : (length : Int) ≠ -1 := by omega
  have hsize : (length : Int) + 4 = length + (getHeadLength : Nat) := rfl
  refine ⟨by rw [hint, hlength], ?_⟩
  rw [hint, getBody, hlength, if_neg hne, if_neg (not_not_intro hsize), List.nil_append,
    Int.toNat_natCast, getHeadLength]
  rw [List.take_of_length_le (by rw [List.length_drop]; omega)]

/-- A length that the decoder returns is in its range. -/
theorem getBodyLength_lt (host : Endian) (pdata : Str) (buffer_len : Int) :
    getBodyLength host pdata buffer_len < 5000 := by
  rw [getBodyLength]
  simp only
  split_ifs <;> omega

theorem length_encodeBuffer (host : Endian) (version : Int) (content : Str) :
    (encodeBuffer host version content []).2.length = content.length + 4 := by
  simp only [encodeBuffer, List.nil_append, List.length_append, length_storeWord]
  omega

theorem drop_encodeBuffer (host : Endian) (version : Int) (content : Str) :
    (encodeBuffer host version content []).2.drop 4 = content := by
  have hhead : 4 = (storeWord host 2 (hton16 host (version % 2 ^ 16).toNat) ++
      storeWord host 2 (hton16 host (content.length % 2 ^ 16))).length := by
    rw [List.length_append, length_storeWord, length_storeWord]
  simp only [encodeBuffer, List.nil_append]
  rw [hhead, List.drop_left]

/-- The head of a frame carries the low 16 bits of the length. -/
theorem hton16_encodeBuffer (host : Endian) (version : Int) (content : Str) :
    hton16 host (loadWord host (((encodeBuffer host version content []).2.drop 2).take 2)) =
      content.length % 2 ^ 16 := by
  have hword : (((encodeBuffer host version content []).2.drop 2).take 2) =
      (storeWord host 2 (content.length % 2 ^ 16)).reverse := by
    simp only [encodeBuffer, List.nil_append, List.append_assoc]
    rw [List.drop_left' (length_storeWord _ _ _), List.take_left' (length_storeWord _ _ _),
      storeWord_hton16]
  have hpow : (256 ^ 2 : Nat) = 2 ^ 16 := by decide
  rw [hword, hton16_loadWord_reverse, hpow, Nat.mod_mod]

/-- What `get_body_length` and `get_body` make of a frame that was encoded from `content`:
the length, the content, and nothing left over. -/
def DecodesTo (host : Endian) (content frame : Str) : Prop :=
  getBodyLength host frame (i32 frame.length) = content.length ∧
    getBody host frame (i32 frame.length) [] = (0, content) ∧
    content.length + getHeadLength = frame.length

/-- **Codec**: of the non-empty contents, for each of which `encode_buffer` returns 0,
exactly those of less than 5000 bytes come back from their frames. -/
theorem getBody_encodeBuffer_iff (host : Endian) (version : Int) {content : Str}
    (hcontent : content ≠ []) :
    (encodeBuffer host version content []).1 = 0 ∧
      (DecodesTo host content (encodeBuffer host version content []).2 ↔
        content.length < 5000) := by
  refine ⟨rfl, ?_⟩
  have hpos := List.length_pos_iff.mpr hcontent
  have hframe := length_encodeBuffer host version content
  constructor
  · rintro ⟨hlength, -, -⟩
    have hlt := getBodyLength_lt host (encodeBuffer host version content []).2
      (i32 (encodeBuffer host version content []).2.length)
    omega
  · intro hlt
    have hword := hton16_encodeBuffer host version content
    rw [Nat.mod_eq_of_lt (by omega)] at hword
    obtain ⟨hlength, hbody⟩ := getBody_eq ⟨hpos, hlt⟩ hframe hword
    rw [drop_encodeBuffer] at hbody
    exact ⟨hlength, hbody, hframe.symm⟩

/-- A frame of one byte. -/
theorem getBody_encodeBuffer_one :
    DecodesTo .little [97] (encodeBuffer .little 0 [97] []).2 :=
  (getBody_encodeBuffer_iff .little 0 (List.cons_ne_nil 97 [])).2.mpr (by decide)

/-- A content of `2 ^ 16 + 1` bytes: its length is cut to 1, the frame that `encode_buffer`
returns 0 for is refused by `get_body`. -/
theorem getBody_encodeBuffer_truncated :
    (encodeBuffer .little 0 (List.replicate (2 ^ 16 + 1) 97) []).1 = 0 ∧
      getBody .little (encodeBuffer .little 0 (List.replicate (2 ^ 16 + 1) 97) []).2
        (i32 (encodeBuffer .little 0 (List.replicate (2 ^ 16 + 1) 97) []).2.length) [] = (-1, []) ∧
      ¬ DecodesTo .little (List.replicate (2 ^ 16 + 1) 97)
        (encodeBuffer .little 0 (List.replicate (2 ^ 16 + 1) 97) []).2 := by
  have hword := hton16_encodeBuffer .little 0 (List.replicate (2 ^ 16 + 1) 97)
  have hframe := length_encodeBuffer .little 0 (List.replicate (2 ^ 16 + 1) 97)
  rw [List.length_replicate] at hword hframe
  generalize hbytes : (encodeBuffer .little 0 (List.replicate (2 ^ 16 + 1) 97) []).2 = frame
    at hword hframe
  have hint : i32 ((frame.length : Nat) : Int) = 65541 := by
    rw [hframe]
    exact i32_eq_self (by decide)
  have hlength : getBodyLength .little frame 65541 = 1 := by
    rw [getBodyLength_eq (by decide) hword]
    rfl
  have hbody : getBody .little frame 65541 [] = (-1, []) := by
    rw [getBody, hlength]
    rfl
  refine ⟨rfl, by rw [hint, hbody], ?_⟩
  rintro ⟨-, hdecoded, -⟩
  rw [hint, hbody] at hdecoded
  cases hdecoded

end ProtocolCodec
end MySrc
