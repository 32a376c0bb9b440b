import MySrc.Lib.CheckDigit
import MySrc.TemplateHttp.ShardHash
import Mathlib.Algebra.Field.ZMod
import Mathlib.Tactic.NormNum.Prime

/-!
# MySrc.LogingameServer.PaperId

`Chk18PaperId` of `logingame_server/src/main/dispatcher.cpp`, which checks the number of
an identity card: seventeen digits and a check character, which a weighted sum of the
digits modulo 11 selects.

The test that there are digits is commented out, and so the sum is one of signed
characters.  Where it is negative the remainder may be, too, and selects something in
front of the table: `chk18PaperId_exact_iff` says for which strings the result is right.
For strings of digits the check finds one wrong character and two neighbours that have
changed places (`chk18PaperId_detects`).
-/

namespace MySrc
namespace LogingameServer
namespace PaperId

open Lib
open SDUtility (signedChar)

/-! ## the function -/

/-- `R` -/
def weights : List Int := [7, 9, 10, 5, 8, 4, 2, 1, 6, 3, 7, 9, 10, 5, 8, 4, 2]

/-- `sChecker` -/
def sChecker : List UInt8 := ascii ['1', '0', 'X', '9', '8', '7', '6', '5', '4', '3', '2']

/-- `sPaperId[i]-48` -/
def digitOf (c : UInt8) : Int := signedChar c - 48

/-- The loop from `i` on, with the weights that are left. -/
def sumLoop (sPaperId : Str) : Nat → List Int → Int → Except Fault Int
  | _, [], lSumQT => .ok lSumQT
  | i, r :: rs, lSumQT => do
      let c ← charAt sPaperId i
      sumLoop sPaperId (i + 1) rs (lSumQT + digitOf c * r)

/-- `sChecker[i]` -/
def checkerAt (i : Int) : Except Fault UInt8 :=
  if i < 0 then .error .outOfBounds else charAt sChecker i.toNat

/-- `Chk18PaperId`, on the characters before the NUL. -/
def chk18PaperId (sPaperId : Str) : Except Fault Int :=
  if sPaperId.length ≠ 18 then .ok (-1)
  else do
    let lSumQT ← sumLoop sPaperId 0 weights 0
    let checker ← checkerAt (lSumQT.tmod 11)
    let last ← charAt sPaperId 17
    if checker ≠ last then return -1
    return 0

/-! ## valid numbers -/

/-- The weighted sum of the first seventeen characters. -/
def total (s : Str) : Int := weightedSum weights (s.map digitOf)

/-- The check character of a sum. -/
def checkChar (sum : Int) : UInt8 := sChecker.getD (sum % 11).toNat 0

/-- Seventeen digits and their check character. -/
structure Valid (s : Str) : Prop where
  length : s.length = 18
  digits : ∀ c ∈ s.take 17, isdigit c = true
  last : s[17]? = some (checkChar (total s))

/-- The function ends inside its table, and returns 0 for a valid number only. -/
def Exact (s : Str) : Prop := ∃ r, chk18PaperId s = .ok r ∧ (r = 0 ↔ Valid s)

/-! ## the sum -/

theorem toNat_of_isdigit {c : UInt8} (h : isdigit c = true) : 48 ≤ c.toNat ∧ c.toNat ≤ 57 := by
  simpa [isdigit, UInt8.le_iff_toNat_le] using h

theorem digitOf_of_isdigit {c : UInt8} (h : isdigit c = true) : digitOf c = c.toNat - 48 := by
  have hsign : c < 128 := by
    rw [UInt8.lt_iff_toNat_lt]
    exact Nat.lt_of_le_of_lt (toNat_of_isdigit h).2 (by decide)
  rw [digitOf, signedChar, if_pos hsign]

theorem digitOf_nonneg {c : UInt8} (h : isdigit c = true) : 0 ≤ digitOf c := by
  have := toNat_of_isdigit h
  rw [digitOf_of_isdigit h]
  omega

/-- The loop computes the weighted sum. -/
theorem sumLoop_eq {s t : Str} {i : Nat} (hs : s.drop i = t) {rs : List Int}
    (hlen : rs.length ≤ t.length) (acc : Int) :
    sumLoop s i rs acc = .ok (acc + weightedSum rs (t.map digitOf)) := by
  induction rs generalizing i t acc with
  | nil => simp [sumLoop, weightedSum]
  | cons r rs ih =>
      cases t with
      | nil => simp at hlen
      | cons c t =>
          have hc : charAt s i = .ok c := by
            have hget : s[i]? = some c := getElem?_of_drop hs 0
            rw [charAt, hget]
          have hrest : s.drop (i + 1) = t := by
            rw [← List.drop_drop, hs, List.drop_one, List.tail_cons]
          rw [sumLoop, hc, ok_bind, ih hrest (by simpa using hlen), List.map_cons, weightedSum_cons,
            mul_comm r, add_assoc]

/-- The check character of a sum that is not negative, or divided by 11. -/
theorem checkerAt_eq {sum : Int} (h : 0 ≤ sum ∨ (11 : Int) ∣ sum) :
    checkerAt (sum.tmod 11) = .ok (checkChar sum) := by
  have hmod : sum.tmod 11 = sum % 11 := by
    rcases h with h | h
    · exact Int.tmod_eq_emod_of_nonneg h
    · rw [Int.tmod_eq_zero_of_dvd h, Int.emod_eq_zero_of_dvd h]
  have hlt : (sum % 11).toNat < sChecker.length := by
    have : sum % 11 < 11 := Int.emod_lt_of_pos _ (by decide)
    have : sChecker.length = 11 := rfl
    omega
  rw [hmod, checkerAt, if_neg (by omega), charAt, checkChar, List.getElem?_eq_getElem hlt,
    List.getD_eq_getElem?_getD, List.getElem?_eq_getElem hlt, Option.getD_some]

/-- The check character of another negative sum is read in front of the table. -/
theorem checkerAt_eq_error {sum : Int} (h : sum < 0) (hdvd : ¬ (11 : Int) ∣ sum) :
    checkerAt (sum.tmod 11) = .error .outOfBounds := by
  have hneg : sum.tmod 11 < 0 := by
    have habs : (-sum).tmod 11 = -sum % 11 := Int.tmod_eq_emod_of_nonneg (by omega)
    rw [Int.neg_tmod] at habs
    omega
  rw [checkerAt, if_pos hneg]

/-- The first seventeen characters of a number and its last one. -/
theorem exists_last {s : Str} (h : s.length = 18) :
    ∃ x, s[17]? = some x ∧ s = s.take 17 ++ [x] := by
  have hlt : 17 < s.length := by omega
  refine ⟨s[17], List.getElem?_eq_getElem hlt, ?_⟩
  have htake := List.take_concat_get' s 17 hlt
  rw [htake, List.take_of_length_le (by omega)]

/-- The last character is compared with the check character of the sum. -/
theorem chk18PaperId_eq {s : Str} (h : s.length = 18) :
    chk18PaperId s = (checkerAt ((total s).tmod 11)).bind fun checker =>
      .ok (if s[17]? = some checker then 0 else -1) := by
  have hsum : sumLoop s 0 weights 0 = .ok (total s) := by
    rw [sumLoop_eq List.drop_zero (by rw [h]; decide), total, Int.zero_add]
  obtain ⟨x, hx, -⟩ := exists_last h
  rw [chk18PaperId, if_neg (by omega), hsum, ok_bind]
  cases hchecker : checkerAt ((total s).tmod 11) with
  | error e => rfl
  | ok checker =>
      rw [ok_bind, charAt, hx, ok_bind]
      by_cases heq : checker = x
      · simp [heq, Except.bind]
      · simp [heq, Ne.symm heq, Except.bind]

/-- Digits have a sum that is not negative. -/
theorem total_nonneg {s : Str} (h : ∀ c ∈ s.take 17, isdigit c = true) : 0 ≤ total s := by
  apply List.sum_nonneg
  intro v hv
  obtain ⟨i, hi, rfl⟩ := List.getElem_of_mem hv
  obtain ⟨hi17, his⟩ : i < weights.length ∧ i < s.length := by simpa using hi
  have hweight : 0 ≤ weights[i] := by
    have hall : ∀ w ∈ weights, (0 : Int) ≤ w := by decide
    exact hall _ (List.getElem_mem hi17)
  have hdigit : 0 ≤ digitOf s[i] := by
    have hmem : s[i] ∈ s.take 17 :=
      List.mem_take_iff_getElem.mpr ⟨i, Nat.lt_min.mpr ⟨hi17, his⟩, rfl⟩
    exact digitOf_nonneg (h _ hmem)
  rw [List.getElem_zipWith, List.getElem_map]
  exact Int.mul_nonneg hweight hdigit

/-! ## the check -/

/-- Where the sum selects a character of the table, the function compares with it. -/
theorem chk18PaperId_of_sum {s : Str} (h : s.length = 18)
    (hsum : 0 ≤ total s ∨ (11 : Int) ∣ total s) :
    chk18PaperId s = .ok (if s[17]? = some (checkChar (total s)) then 0 else -1) := by
  rw [chk18PaperId_eq h, checkerAt_eq hsum, Except.bind]

/-- Where it does not, the function reads in front of the table. -/
theorem chk18PaperId_of_neg {s : Str} (h : s.length = 18) (hneg : total s < 0)
    (hdvd : ¬ (11 : Int) ∣ total s) : chk18PaperId s = .error .outOfBounds := by
  rw [chk18PaperId_eq h, checkerAt_eq_error hneg hdvd, Except.bind]

/-- For 18 characters the result is right when they begin with digits, or else when the
function stays inside its table and finds another character than the last one. -/
theorem exact_iff_of_length {s : Str} (h : s.length = 18) :
    Exact s ↔ (∀ c ∈ s.take 17, isdigit c = true) ∨
      (0 ≤ total s ∨ (11 : Int) ∣ total s) ∧ s[17]? ≠ some (checkChar (total s)) := by
  by_cases hsum : 0 ≤ total s ∨ (11 : Int) ∣ total s
  · have hvalid : Valid s ↔ (∀ c ∈ s.take 17, isdigit c = true) ∧
        s[17]? = some (checkChar (total s)) :=
      ⟨fun hv => ⟨hv.digits, hv.last⟩, fun hv => ⟨h, hv.1, hv.2⟩⟩
    have hrun := chk18PaperId_of_sum h hsum
    by_cases hlast : s[17]? = some (checkChar (total s))
    · simp [Exact, hrun, hvalid, hlast]
    · simp [Exact, hrun, hvalid, hlast, hsum]
  · have hneg : total s < 0 := by omega
    have hrun := chk18PaperId_of_neg h hneg (fun hdvd => hsum (.inr hdvd))
    have hletters : ¬ ∀ c ∈ s.take 17, isdigit c = true := by
      intro hdigits
      have := total_nonneg hdigits
      omega
    simp [Exact, hrun, hsum, hletters]

/-- The function says of a string whether it is a valid number, and stays inside its table,
exactly when one of 18 characters either begins with digits or has a sum that selects a
character of the table, and another one than its last. -/
theorem chk18PaperId_exact_iff (s : Str) : Exact s ↔ (s.length = 18 →
    (∀ c ∈ s.take 17, isdigit c = true) ∨
      (0 ≤ total s ∨ (11 : Int) ∣ total s) ∧ s[17]? ≠ some (checkChar (total s))) := by
  by_cases h : s.length = 18
  · rw [exact_iff_of_length h]
    simp [h]
  · have hrun : chk18PaperId s = .ok (-1) := by rw [chk18PaperId, if_pos h]
    have hvalid : ¬ Valid s := fun hv => h hv.length
    simp [Exact, hrun, hvalid, h]

/-- For eighteen blanks the sum is -1600 and the function reads five characters in front of
its table. -/
theorem chk18PaperId_blanks : ¬ Exact (List.replicate 18 32) := by
  rintro ⟨r, hr, -⟩
  have hrun : chk18PaperId (List.replicate 18 32) = .error .outOfBounds := by decide
  rw [hrun] at hr
  cases hr

/-! ## typing errors -/

/-- The letters as numbers, where `X` is ten. -/
def letterNumber (c : UInt8) : Int := if c = 88 then 10 else digitOf c

def letterValue (c : UInt8) : ZMod 11 := letterNumber c

/-- The weights of all eighteen letters. -/
def letterWeights : List (ZMod 11) := weights.map (Int.castRingHom (ZMod 11)) ++ [1]

theorem length_letterWeights : letterWeights.length = 18 := rfl

/-- Digits for which the function returns 0 are a valid number. -/
theorem valid_of_chk18PaperId {s : Str} (h : chk18PaperId s = .ok 0)
    (hdigits : ∀ c ∈ s.take 17, isdigit c = true) : Valid s := by
  have hlen : s.length = 18 := by
    by_contra hne
    rw [chk18PaperId, if_pos hne] at h
    cases h
  obtain ⟨r, hr, hiff⟩ := (exact_iff_of_length hlen).mpr (.inl hdigits)
  rw [hr, Except.ok.injEq] at h
  exact hiff.mp h

theorem isdigit_ne_X {c : UInt8} (h : isdigit c = true) : c ≠ 88 := by
  rintro rfl
  exact absurd h (by decide)

/-- A letter of a number: a digit or `X`. -/
def Letter (c : UInt8) : Prop := isdigit c = true ∨ c = 88

theorem letterNumber_of_isdigit {c : UInt8} (h : isdigit c = true) :
    letterNumber c = digitOf c := by
  rw [letterNumber, if_neg (isdigit_ne_X h)]

/-- Letters of one value are equal. -/
theorem letterValue_inj {c d : UInt8} (hc : Letter c) (hd : Letter d)
    (h : letterValue c = letterValue d) : c = d := by
  have hdvd : (11 : Int) ∣ letterNumber d - letterNumber c :=
    (ZMod.intCast_eq_intCast_iff_dvd_sub _ _ 11).mp h
  have hdigit : ∀ {e : UInt8}, isdigit e = true → letterNumber e = e.toNat - 48 := by
    intro e he
    rw [letterNumber_of_isdigit he, digitOf_of_isdigit he]
  have hX : letterNumber 88 = 10 := rfl
  rcases hc with hc | rfl <;> rcases hd with hd | rfl
  · have := toNat_of_isdigit hc
    have := toNat_of_isdigit hd
    rw [hdigit hc, hdigit hd] at hdvd
    exact UInt8.toNat_inj.mp (by omega)
  · have := toNat_of_isdigit hc
    rw [hdigit hc, hX] at hdvd
    omega
  · have := toNat_of_isdigit hd
    rw [hX, hdigit hd] at hdvd
    omega
  · rfl

/-- The check character is a letter, and completes the sum to one. -/
theorem checkChar_spec (sum : Int) :
    Letter (checkChar sum) ∧ (sum : ZMod 11) + letterValue (checkChar sum) = 1 := by
  have hall : ∀ p : Nat, p < 11 → (isdigit (sChecker.getD p 0) = true ∨ sChecker.getD p 0 = 88) ∧
      (p : ZMod 11) + letterValue (sChecker.getD p 0) = 1 := by
    decide
  have hnonneg : 0 ≤ sum % 11 := Int.emod_nonneg _ (by decide)
  have hlt : sum % 11 < 11 := Int.emod_lt_of_pos _ (by decide)
  have hmod : (sum : ZMod 11) = ((sum % 11).toNat : ZMod 11) := by
    calc (sum : ZMod 11) = ((sum % 11 : Int) : ZMod 11) := (ZMod.intCast_mod sum 11).symm
      _ = (((sum % 11).toNat : Int) : ZMod 11) := by rw [Int.toNat_of_nonneg hnonneg]
      _ = ((sum % 11).toNat : ZMod 11) := Int.cast_natCast _
  rw [hmod]
  exact hall _ (by omega)

/-- A valid number is seventeen digits and the check character. -/
theorem Valid.eq_append {s : Str} (h : Valid s) : s = s.take 17 ++ [checkChar (total s)] := by
  obtain ⟨x, hx, hs⟩ := exists_last h.length
  have hchar := h.last
  rw [hx, Option.some.injEq] at hchar
  rw [← hchar]
  exact hs

/-- A valid number has digits and the letter only. -/
theorem Valid.letter {s : Str} (h : Valid s) : ∀ c ∈ s, Letter c := by
  intro c hc
  rw [h.eq_append, List.mem_append, List.mem_singleton] at hc
  rcases hc with hc | rfl
  · exact .inl (h.digits c hc)
  · exact (checkChar_spec _).1

/-- The letters of a valid number sum up to one. -/
theorem Valid.weightedSum_eq {s : Str} (h : Valid s) :
    weightedSum letterWeights (s.map letterValue) = 1 := by
  have hlen : weights.length = ((s.take 17).map digitOf).length := by
    simp [weights, h.length]
  have htotal : total s = weightedSum weights ((s.take 17).map digitOf) := by
    rw [total]
    conv_lhs =>
      rw [h.eq_append, List.map_append, ← List.append_nil weights, weightedSum_append hlen]
    simp [weightedSum]
  have hletters : (s.take 17).map letterValue =
      ((s.take 17).map digitOf).map (Int.castRingHom (ZMod 11)) := by
    rw [List.map_map]
    apply List.map_congr_left
    intro c hc
    rw [letterValue, letterNumber_of_isdigit (h.digits c hc), Function.comp_apply, eq_intCast]
  calc weightedSum letterWeights (s.map letterValue)
      = weightedSum letterWeights
          ((s.take 17).map letterValue ++ [letterValue (checkChar (total s))]) := by
        conv_lhs => rw [h.eq_append, List.map_append, List.map_singleton]
    _ = (total s : ZMod 11) + letterValue (checkChar (total s)) := by
        rw [letterWeights, weightedSum_append (by simpa using hlen), hletters, weightedSum_map,
          ← htotal]
        simp
    _ = 1 := (checkChar_spec _).2

/-- One letter is another one. -/
def Substituted (s t : Str) : Prop := ∃ a b c d, s = a ++ c :: b ∧ t = a ++ d :: b

/-- Two neighbours have changed places. -/
def Transposed (s t : Str) : Prop := ∃ a b c d, s = a ++ c :: d :: b ∧ t = a ++ d :: c :: b

instance fact_prime_eleven : Fact (Nat.Prime 11) := ⟨by norm_num⟩

/-- Two valid numbers do not differ in one character. -/
theorem eq_of_substituted {s t : Str} (hs : Valid s) (ht : Valid t) (h : Substituted s t) :
    s = t := by
  obtain ⟨a, b, c, d, rfl, rfl⟩ := h
  have hsum := hs.weightedSum_eq.trans ht.weightedSum_eq.symm
  rw [List.map_append, List.map_append, List.map_cons, List.map_cons] at hsum
  have hlen : (a.map letterValue).length < letterWeights.length := by
    have := hs.length
    simp only [List.length_append, List.length_cons] at this
    rw [length_letterWeights, List.length_map]
    omega
  have hvalue := eq_of_weightedSum_substitute (by decide) hlen hsum
  rw [letterValue_inj (hs.letter c (by simp)) (ht.letter d (by simp)) hvalue]

/-- Two valid numbers do not differ by two neighbours that changed places. -/
theorem eq_of_transposed {s t : Str} (hs : Valid s) (ht : Valid t) (h : Transposed s t) :
    s = t := by
  obtain ⟨a, b, c, d, rfl, rfl⟩ := h
  have hsum := hs.weightedSum_eq.trans ht.weightedSum_eq.symm
  simp only [List.map_append, List.map_cons] at hsum
  have hlen : (a.map letterValue).length + 1 < letterWeights.length := by
    have := hs.length
    simp only [List.length_append, List.length_cons] at this
    rw [length_letterWeights, List.length_map]
    omega
  have hvalue := eq_of_weightedSum_swap (by decide) hlen hsum
  rw [letterValue_inj (hs.letter c (by simp)) (hs.letter d (by simp)) hvalue]

/-- **The common typing errors.**  Of two different numbers of digits with a last character,
where one letter is another one or two neighbours have changed places, the function takes at
most one. -/
theorem chk18PaperId_detects {s t : Str} (hsdigits : ∀ c ∈ s.take 17, isdigit c = true)
    (htdigits : ∀ c ∈ t.take 17, isdigit c = true) (hne : s ≠ t)
    (herror : Substituted s t ∨ Transposed s t) :
    ¬ (chk18PaperId s = .ok 0 ∧ chk18PaperId t = .ok 0) := by
  rintro ⟨hs, ht⟩
  have hvs := valid_of_chk18PaperId hs hsdigits
  have hvt := valid_of_chk18PaperId ht htdigits
  rcases herror with h | h
  · exact hne (eq_of_substituted hvs hvt h)
  · exact hne (eq_of_transposed hvs hvt h)

/-- A number with its check character, and the same with another first digit. -/
theorem chk18PaperId_detects_first :
    ¬ (chk18PaperId (ascii ['1', '1', '0', '1', '0', '5', '1', '9', '4', '9', '1', '2', '3', '1',
        '0', '0', '2', 'X']) = .ok 0 ∧
      chk18PaperId (ascii ['2', '1', '0', '1', '0', '5', '1', '9', '4', '9', '1', '2', '3', '1',
        '0', '0', '2', 'X']) = .ok 0) :=
  chk18PaperId_detects (List.all_eq_true.mp (by decide)) (List.all_eq_true.mp (by decide))
    (by decide) (.inl ⟨[], _, 49, 50, rfl, rfl⟩)

end PaperId
end LogingameServer
end MySrc
