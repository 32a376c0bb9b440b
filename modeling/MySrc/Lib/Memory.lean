import MySrc.Lib.Run

/-!
# MySrc.Lib.Memory

Arrays as lists, and `memcpy` into and out of them.  A copy that would leave
the array is a fault, so a computation that ends well has kept every copy
inside.
-/

namespace Lib

/-- Copy `src` into the array `dst` at `off`. -/
def memcpyTo (dst : List α) (off : Nat) (src : List α) : Except Fault (List α) :=
  if off + src.length ≤ dst.length then
    .ok (dst.take off ++ src ++ dst.drop (off + src.length))
  else .error .outOfBounds

/-- Copy `n` elements out of the array `src` at `off`. -/
def memcpyFrom (src : List α) (off n : Nat) : Except Fault (List α) :=
  if off + n ≤ src.length then .ok ((src.drop off).take n) else .error .outOfBounds

/-- A copy inside the array changes exactly the range it writes. -/
theorem memcpyTo_ok {dst src : List α} (h : off + src.length ≤ dst.length) :
    ∃ dst', memcpyTo dst off src = .ok dst' ∧ dst'.length = dst.length ∧
      ∀ j, dst'[j]? = if off ≤ j ∧ j < off + src.length then src[j - off]? else dst[j]? := by
  refine ⟨_, if_pos h, by simp; omega, fun j => ?_⟩
  have htake : (dst.take off).length = off := by rw [List.length_take]; omega
  by_cases h1 : j < off
  · rw [if_neg (by omega), List.append_assoc, List.getElem?_append_left (by omega),
      List.getElem?_take_of_lt h1]
  · by_cases h2 : j < off + src.length
    · rw [if_pos ⟨by omega, h2⟩, List.append_assoc, List.getElem?_append_right (by omega), htake,
        List.getElem?_append_left (by omega)]
    · rw [if_neg (by omega), List.getElem?_append_right (by simp; omega), List.length_append, htake,
        List.getElem?_drop]
      congr 1
      omega

/-- A copy out of the array reads the range. -/
theorem memcpyFrom_ok {src : List α} (h : off + n ≤ src.length) :
    ∃ bs, memcpyFrom src off n = .ok bs ∧ bs.length = n ∧ ∀ i < n, bs[i]? = src[off + i]? := by
  refine ⟨_, if_pos h, by simp; omega, fun i hi => ?_⟩
  rw [List.getElem?_take_of_lt hi, List.getElem?_drop]

/-! ## splicing -/

/-- An array with the range from `off` on replaced by `src`. -/
def splice (dst : List α) (off : Nat) (src : List α) : List α :=
  dst.take off ++ src ++ dst.drop (off + src.length)

theorem memcpyTo_eq_splice {dst src : List α} (h : off + src.length ≤ dst.length) :
    memcpyTo dst off src = .ok (splice dst off src) := if_pos h

theorem memcpyTo_eq_error {dst src : List α} (h : ¬ off + src.length ≤ dst.length) :
    memcpyTo dst off src = .error .outOfBounds := if_neg h

theorem length_splice {dst src : List α} (h : off + src.length ≤ dst.length) :
    (splice dst off src).length = dst.length := by
  simp [splice]
  omega

theorem splice_nil {dst : List α} (off : Nat) : splice dst off [] = dst := by simp [splice]

/-- Two copies one behind the other are one copy. -/
theorem splice_splice {dst xs ys : List α} (h : off + xs.length ≤ dst.length) :
    splice (splice dst off xs) (off + xs.length) ys = splice dst off (xs ++ ys) := by
  have hlen : (dst.take off ++ xs).length = off + xs.length := by
    simp
    omega
  unfold splice
  rw [List.take_left' hlen, ← List.drop_drop, List.drop_left' hlen, List.drop_drop,
    List.length_append, List.append_assoc, List.append_assoc, List.append_assoc, List.append_assoc,
    Nat.add_assoc]

/-- A copy in front of another one and that one are one copy. -/
theorem splice_splice_before {dst xs ys : List α}
    (h : off + xs.length + ys.length ≤ dst.length) :
    splice (splice dst (off + xs.length) ys) off xs = splice dst off (xs ++ ys) := by
  have hlen : (dst.take (off + xs.length)).length = off + xs.length := by
    simp
    omega
  have htake : (splice dst (off + xs.length) ys).take off = dst.take off := by
    rw [splice, List.append_assoc, List.take_append_of_le_length (by omega), List.take_take,
      Nat.min_eq_left (by omega)]
  have hdrop : (splice dst (off + xs.length) ys).drop (off + xs.length) =
      ys ++ dst.drop (off + xs.length + ys.length) := by
    rw [splice, List.append_assoc, List.drop_left' hlen]
  rw [splice, htake, hdrop, splice, List.length_append, ← Nat.add_assoc]
  simp only [List.append_assoc]

/-- What lies behind a copy stays. -/
theorem drop_splice {dst src : List α} (h : off ≤ dst.length) :
    (splice dst off src).drop (off + src.length) = dst.drop (off + src.length) := by
  exact List.drop_left' (by simp; omega)

/-! ## what an array holds -/

/-- The array holds `bs` at `off`. -/
def HoldsAt (mem : List α) (off : Nat) (bs : List α) : Prop := bs <+: mem.drop off

theorem HoldsAt.take_eq {mem bs : List α} (h : HoldsAt mem off bs) :
    (mem.drop off).take bs.length = bs := (List.prefix_iff_eq_take.mp h).symm

theorem HoldsAt.length_le {mem bs : List α} (h : HoldsAt mem off bs) (hoff : off ≤ mem.length) :
    off + bs.length ≤ mem.length := by
  have := List.IsPrefix.length_le h
  rw [List.length_drop] at this
  omega

theorem HoldsAt.memcpyFrom {mem bs : List α} (h : HoldsAt mem off bs) (hoff : off ≤ mem.length) :
    memcpyFrom mem off bs.length = .ok bs := by
  rw [Lib.memcpyFrom, if_pos (h.length_le hoff), h.take_eq]

theorem holdsAt_append {mem xs ys : List α} :
    HoldsAt mem off (xs ++ ys) ↔ HoldsAt mem off xs ∧ HoldsAt mem (off + xs.length) ys := by
  constructor
  · rintro ⟨zs, h⟩
    refine ⟨⟨ys ++ zs, by rw [← List.append_assoc, h]⟩, zs, ?_⟩
    rw [← List.drop_drop, ← h, List.append_assoc, List.drop_left]
  · rintro ⟨⟨zs, h⟩, ws, h'⟩
    refine ⟨ws, ?_⟩
    rw [← List.drop_drop, ← h, List.drop_left] at h'
    rw [List.append_assoc, h', h]

theorem holdsAt_splice {dst src : List α} (h : off ≤ dst.length) :
    HoldsAt (splice dst off src) off src := by
  refine ⟨dst.drop (off + src.length), ?_⟩
  rw [splice, List.append_assoc]
  exact (List.drop_left' (by simp; omega)).symm

end Lib
