import MySrc.Lib.Memory

/-!
# MySrc.Lib.Circular

Circular buffers.  `Window buf start q` says that the elements `q` lie in the
array `buf` from the position `start` on, going round at the end of the array.
`start` may be any number: only its remainder modulo the size matters, which
is what lets free-running counters serve as positions.

A copy into or out of the buffer takes two `memcpy`s, the second one for the
part that goes round.  `Placed buf buf' start src` says what a copy into the
buffer has done, whether it is one of these halves or both of them.
-/

namespace Lib

/-! ## positions -/

/-- Positions less than one turn apart are different places. -/
theorem eq_of_add_mod_eq {s i j n : Nat} (h : (s + i) % n = (s + j) % n) (hi : i < j + n)
    (hj : j < i + n) :
    i = j := by
  by_cases hlt : i ≤ j
  · have h0 : (s + j - (s + i)) % n = 0 := Nat.sub_mod_eq_zero_of_mod_eq h.symm
    rw [show s + j - (s + i) = j - i by omega, Nat.mod_eq_of_lt (by omega)] at h0
    omega
  · have h0 : (s + i - (s + j)) % n = 0 := Nat.sub_mod_eq_zero_of_mod_eq h
    rw [show s + i - (s + j) = i - j by omega, Nat.mod_eq_of_lt (by omega)] at h0
    omega

/-- Before the end of the array a position advances with its offset. -/
theorem add_mod_of_lt {start off i n : Nat} (hoff : start % n = off) (hi : off + i < n) :
    (start + i) % n = off + i := by
  rw [Nat.add_mod, hoff, Nat.mod_eq_of_lt (by omega : i < n), Nat.mod_eq_of_lt hi]

/-! ## windows -/

/-- `q` lies in `buf` from `start` on. -/
def Window (buf : List α) (start : Nat) (q : List α) : Prop :=
  ∀ i < q.length, buf[(start + i) % buf.length]? = q[i]?

theorem Window.nil (buf : List α) (start : Nat) : Window buf start [] := by
  intro i hi
  simp at hi

/-- Positions are equal modulo the size. -/
theorem Window.congr {buf q : List α} (h : Window buf start q)
    (hmod : start % buf.length = start' % buf.length) : Window buf start' q := by
  intro i hi
  rw [← h i hi, Nat.add_mod, ← hmod, ← Nat.add_mod]

/-- Advancing the position drops elements. -/
theorem Window.drop {buf q : List α} (h : Window buf start q) (n : Nat) :
    Window buf (start + n) (q.drop n) := by
  intro i hi
  rw [List.length_drop] at hi
  rw [List.getElem?_drop, ← h (n + i) (by omega), Nat.add_assoc]

theorem Window.take {buf q : List α} (h : Window buf start q) (n : Nat) :
    Window buf start (q.take n) := by
  intro i hi
  rw [List.length_take] at hi
  rw [List.getElem?_take_of_lt (by omega), h i (by omega)]

/-- A `memcpy` out of the buffer that does not go round reads the window. -/
theorem Window.memcpyFrom {buf q : List α} (h : Window buf start q)
    (hoff : q = [] ∨ start % buf.length = off) (hlen : off + q.length ≤ buf.length) :
    Lib.memcpyFrom buf off q.length = .ok q := by
  obtain ⟨bs, hbs, hlbs, hget⟩ := memcpyFrom_ok hlen
  rw [hbs]
  congr 1
  apply List.ext_getElem?
  intro i
  by_cases hi : i < q.length
  · have hq : q ≠ [] := fun hq => by simp [hq] at hi
    rw [hget i hi, ← h i hi, add_mod_of_lt (hoff.resolve_left hq) (by omega)]
  · rw [List.getElem?_eq_none (by omega), List.getElem?_eq_none (by omega)]

/-! ## copies into the buffer -/

/-- `buf'` is `buf` with `src` written from the position `start` on. -/
structure Placed (buf buf' : List α) (start : Nat) (src : List α) : Prop where
  length_eq : buf'.length = buf.length
  written : Window buf' start src
  frame : ∀ j, (∀ i < src.length, (start + i) % buf.length ≠ j) → buf'[j]? = buf[j]?

/-- A `memcpy` into the buffer that does not go round places its source. -/
theorem placed_memcpyTo {buf src : List α} (hoff : src = [] ∨ start % buf.length = off)
    (hlen : off + src.length ≤ buf.length) :
    ∃ buf', memcpyTo buf off src = .ok buf' ∧ Placed buf buf' start src := by
  obtain ⟨buf', hbuf, hlb, hget⟩ := memcpyTo_ok hlen
  have hpos : ∀ i < src.length, (start + i) % buf.length = off + i := fun i hi =>
    add_mod_of_lt (hoff.resolve_left fun hs => by simp [hs] at hi) (by omega)
  refine ⟨buf', hbuf, hlb, fun i hi => ?_, fun j hj => ?_⟩
  · rw [hlb, hpos i hi, hget, if_pos ⟨by omega, by omega⟩, Nat.add_sub_cancel_left]
  · rw [hget, if_neg]
    rintro ⟨h1, h2⟩
    exact hj (j - off) (by omega) (by rw [hpos (j - off) (by omega)]; omega)

/-- Two windows, one behind the other, are one window. -/
theorem Window.concat {buf q q' : List α} (h : Window buf start q)
    (h' : Window buf (start + q.length) q') : Window buf start (q ++ q') := by
  intro i hi
  rw [List.length_append] at hi
  by_cases hlt : i < q.length
  · rw [List.getElem?_append_left hlt, h i hlt]
  · have hk := h' (i - q.length) (by omega)
    rw [Nat.add_assoc, show q.length + (i - q.length) = i by omega] at hk
    rw [hk, List.getElem?_append_right (by omega)]

/-- What is placed behind a window leaves it alone. -/
theorem Window.frame {buf buf' q src : List α} (h : Window buf start q)
    (hp : Placed buf buf' (start + (q.length + k)) src)
    (hlen : q.length + k + src.length ≤ buf.length) : Window buf' start q := by
  intro i hi
  rw [hp.length_eq, ← h i hi]
  refine hp.frame _ fun j hj heq => ?_
  rw [Nat.add_assoc] at heq
  have := eq_of_add_mod_eq heq (by omega) (by omega)
  omega

/-- What is placed right behind a window extends it. -/
theorem Window.append {buf buf' q src : List α} (h : Window buf start q)
    (hp : Placed buf buf' (start + q.length) src) (hlen : q.length + src.length ≤ buf.length) :
    Window buf' start (q ++ src) :=
  (h.frame (k := 0) hp hlen).concat hp.written

theorem Placed.congr {buf buf' src : List α} (h : Placed buf buf' start src)
    (hmod : start % buf.length = start' % buf.length) : Placed buf buf' start' src := by
  refine ⟨h.length_eq, h.written.congr (by rw [h.length_eq]; exact hmod), fun j hj => ?_⟩
  refine h.frame j fun i hi => ?_
  rw [Nat.add_mod, hmod, ← Nat.add_mod]
  exact hj i hi

/-- The two halves of a copy place the whole source. -/
theorem Placed.append {buf buf₁ buf₂ xs ys : List α} (h₁ : Placed buf buf₁ start xs)
    (h₂ : Placed buf₁ buf₂ (start + xs.length) ys) (hlen : xs.length + ys.length ≤ buf.length) :
    Placed buf buf₂ start (xs ++ ys) := by
  refine ⟨h₂.length_eq.trans h₁.length_eq, ?_, fun j hj => ?_⟩
  · exact h₁.written.append h₂ (by rw [h₁.length_eq]; exact hlen)
  · rw [List.length_append] at hj
    rw [h₂.frame j, h₁.frame j]
    · exact fun i hi => hj i (by omega)
    · intro i hi
      rw [h₁.length_eq, Nat.add_assoc]
      exact hj (xs.length + i) (by omega)

/-! ## copies in two halves -/

/-- The first half of a copy of `n` elements ends where they do, or at the end
of the array. -/
theorem half_le {n size start : Nat} (hl : l = min n (size - start % size)) (hsize : 0 < size) :
    l ≤ n ∧ start % size + l ≤ size := by
  have := Nat.mod_lt start hsize
  omega

/-- The second half, if there is one, starts at the beginning of the array. -/
theorem half_wraps {n size start : Nat} (hl : l = min n (size - start % size)) (hsize : 0 < size) :
    n - l = 0 ∨ (start + l) % size = 0 := by
  have hlt := Nat.mod_lt start hsize
  by_cases hn : n ≤ size - start % size
  · left; omega
  · right
    rw [← Nat.mod_add_mod, show start % size + l = size by omega, Nat.mod_self]

/-- Both halves of a copy into the buffer. -/
theorem placed_copy {buf src : List α} (hlen : src.length ≤ buf.length) (hpos : 0 < buf.length)
    (hl : l = min src.length (buf.length - start % buf.length)) :
    ∃ buf₁ buf₂, memcpyTo buf (start % buf.length) (src.take l) = .ok buf₁ ∧
      memcpyTo buf₁ 0 (src.drop l) = .ok buf₂ ∧ Placed buf buf₂ start src := by
  have hle := half_le hl hpos
  have htake : (src.take l).length = l := by rw [List.length_take]; omega
  obtain ⟨buf₁, h₁, hp₁⟩ : ∃ buf', memcpyTo buf (start % buf.length) (src.take l) = .ok buf' ∧
      Placed buf buf' start (src.take l) :=
    placed_memcpyTo (.inr rfl) (by rw [htake]; exact hle.2)
  have hoff : src.drop l = [] ∨ (start + l) % buf₁.length = 0 := by
    rw [hp₁.length_eq, ← List.length_eq_zero_iff, List.length_drop]
    exact half_wraps hl hpos
  obtain ⟨buf₂, h₂, hp₂⟩ := placed_memcpyTo hoff
    (by rw [hp₁.length_eq, List.length_drop]; omega)
  refine ⟨buf₁, buf₂, h₁, h₂, ?_⟩
  have hboth := hp₁.append (by rw [htake]; exact hp₂) (by rw [htake, List.length_drop]; omega)
  rwa [List.take_append_drop] at hboth

/-- Both halves of a copy out of the buffer. -/
theorem Window.copy {buf q : List α} (h : Window buf start q) (hlen : q.length ≤ buf.length)
    (hpos : 0 < buf.length) (hl : l = min q.length (buf.length - start % buf.length)) :
    Lib.memcpyFrom buf (start % buf.length) l = .ok (q.take l) ∧
      Lib.memcpyFrom buf 0 (q.length - l) = .ok (q.drop l) := by
  have hle := half_le hl hpos
  have htake : (q.take l).length = l := by rw [List.length_take]; omega
  constructor
  · have hfirst := (h.take l).memcpyFrom (.inr rfl) (by rw [htake]; exact hle.2)
    rwa [htake] at hfirst
  · have hoff : q.drop l = [] ∨ (start + l) % buf.length = 0 := by
      rw [← List.length_eq_zero_iff, List.length_drop]
      exact half_wraps hl hpos
    have hrest := (h.drop l).memcpyFrom hoff (by rw [List.length_drop]; omega)
    rwa [List.length_drop] at hrest

end Lib
