import MySrc.Lib.Walk
import MySrc.PythonProjects.DatagramFactory

/-!
# MySrc.PythonProjects.UnpackLoops

Where the loops of `unpack` and `unpack_row` end.

A turn reads a length and goes on behind the bytes that it announces.  A length of `-4`
leads back to itself, and other negative lengths back to earlier ones; a loop that comes
back to a length never ends (`unpack_ends_iff`).
-/

namespace MySrc
namespace PythonProjects
namespace DatagramFactory

open Lib
open Relation (TransGen)

/-! ## the places of a loop -/

/-- The length at a place of the bytes. -/
def lengthAt (bytes : Str) (pos : Int) : Option Int := unpackInt (slice bytes pos (pos + 4))

/-- The part at a place: its length and its bytes. -/
def partAt (bytes : Str) (pos : Int) : Int × Str :=
  let len := (lengthAt bytes pos).getD 0
  (len, slice bytes (pos + 4) (pos + 4 + len))

/-- Where a turn goes on, when it is not the last. -/
def nextPos (bytes : Str) (limit pos : Int) : Option Int :=
  if pos < limit then (lengthAt bytes pos).map (pos + 4 + ·) else none

/-- Following the lengths from the first one comes back to a length. -/
def Circular (bytes : Str) (limit : Int) : Prop := Cycles (nextPos bytes limit) 0

/-- Following the lengths from the first one comes to less than four bytes. -/
def CutShort (bytes : Str) (limit : Int) : Prop :=
  ∃ pos, LeadsTo (nextPos bytes limit) 0 pos ∧ pos < limit ∧ lengthAt bytes pos = none

/-- The rows are not circular, and neither is a row in front of which none is cut short.
With less than four bytes there are no rows. -/
def EndsOn (bytes : Str) : Prop :=
  ∀ len, unpackInt (slice bytes 0 4) = some len →
    ¬ Circular (bytes.drop 4) (len - 4) ∧
    ∀ pos, LeadsTo (nextPos (bytes.drop 4) (len - 4)) 0 pos →
      nextPos (bytes.drop 4) (len - 4) pos ≠ none →
      (∀ pos', LeadsTo (nextPos (bytes.drop 4) (len - 4)) 0 pos' →
        TransGen (Leads (nextPos (bytes.drop 4) (len - 4))) pos' pos →
        ¬ CutShort (partAt (bytes.drop 4) pos').2 (partAt (bytes.drop 4) pos').1) →
      ¬ Circular (partAt (bytes.drop 4) pos).2 (partAt (bytes.drop 4) pos).1

/-- The loop is a walk from length to length. -/
theorem partsLoop_eq_trail (bytes : Str) (limit : Int) (fuel : Nat) (pos : Int)
    (acc : List (Int × Str)) :
    partsLoop bytes limit fuel pos acc =
      match trail (nextPos bytes limit) fuel pos with
      | none => .error .diverge
      | some (ps, stop) => .ok (acc ++ ps.map (partAt bytes), decide (stop < limit)) := by
  induction fuel generalizing pos acc with
  | zero => rfl
  | succ fuel ih =>
      rw [partsLoop, trail, nextPos]
      by_cases hpos : pos < limit
      · rw [if_pos hpos, if_pos hpos, ← lengthAt]
        cases hlen : lengthAt bytes pos with
        | none => simp [hpos]
        | some len =>
            dsimp only [Option.map_some]
            rw [ih]
            cases hwalk : trail (nextPos bytes limit) fuel (pos + 4 + len) with
            | none => rfl
            | some r => simp [partAt, hlen]
      · simp [hpos]

/-- The places in so many bytes, which are counted from either end. -/
def places (n : Nat) : Finset Int := (Finset.range (2 * n)).image fun i : Nat => (i : Int) - n

/-- A length can be read only at these places. -/
theorem mem_places {bytes : Str} {limit pos : Int} (h : nextPos bytes limit pos ≠ none) :
    pos ∈ places bytes.length := by
  rw [nextPos] at h
  split at h
  · have hlen : (slice bytes pos (pos + 4)).length = 4 := by
      by_contra hne
      rw [lengthAt, unpackInt, if_neg hne] at h
      exact h rfl
    rw [slice, List.length_drop, List.length_take] at hlen
    simp only [sliceIndex] at hlen
    have hbounds : -(bytes.length : Int) ≤ pos ∧ pos < bytes.length := by
      split at hlen <;> split at hlen <;> omega
    refine Finset.mem_image.mpr ⟨(pos + bytes.length).toNat, Finset.mem_range.mpr ?_, ?_⟩
    · omega
    · omega
  · exact absurd rfl h

theorem card_places_le (n : Nat) : (places n).card ≤ 2 * n :=
  Finset.card_image_le.trans_eq (Finset.card_range _)

/-- **A loop ends** exactly when it does not come back to a length. -/
theorem parts_ends_iff (bytes : Str) (limit : Int) :
    (∃ r, parts bytes limit = .ok r) ↔ ¬ Circular bytes limit := by
  rw [parts, partsLoop_eq_trail]
  constructor
  · rintro ⟨r, hr⟩ hcircular
    rw [trail_eq_none hcircular] at hr
    cases hr
  · intro hcircular
    have hfuel : (places bytes.length).card < 2 * bytes.length + 2 :=
      Nat.lt_add_right 1 (Nat.lt_succ_of_le (card_places_le bytes.length))
    obtain ⟨ps, stop, hwalk⟩ := trail_stops _ (fun p hp => mem_places hp) hcircular hfuel
    rw [hwalk]
    exact ⟨_, rfl⟩

/-- A loop that does not end makes any number of turns. -/
theorem partsLoop_diverges {bytes : Str} {limit : Int} (h : parts bytes limit = .error .diverge)
    (fuel : Nat) : partsLoop bytes limit fuel 0 [] = .error .diverge := by
  have hcircular : Circular bytes limit := by
    by_contra hcircular
    obtain ⟨r, hr⟩ := (parts_ends_iff bytes limit).mpr hcircular
    rw [h] at hr
    cases hr
  rw [partsLoop_eq_trail, trail_eq_none hcircular]

/-- Without a length the loop stops. -/
theorem nextPos_of_short {bytes : Str} {limit pos : Int} (hlt : pos < limit)
    (hlen : lengthAt bytes pos = none) : nextPos bytes limit pos = none := by
  rw [nextPos, if_pos hlt, hlen]
  rfl

/-- What a loop that ends has found. -/
theorem parts_spec {bytes : Str} {limit : Int} (h : parts bytes limit = .ok (rows, raised)) :
    ∃ ps : List Int, rows = ps.map (partAt bytes) ∧ (raised = true ↔ CutShort bytes limit) ∧
      (∀ p, p ∈ ps ↔ LeadsTo (nextPos bytes limit) 0 p ∧ nextPos bytes limit p ≠ none) ∧
      ps.Pairwise (TransGen (Leads (nextPos bytes limit))) := by
  rw [parts, partsLoop_eq_trail] at h
  cases hwalk : trail (nextPos bytes limit) (2 * bytes.length + 2) 0 with
  | none =>
      rw [hwalk] at h
      cases h
  | some r =>
      obtain ⟨ps, stop⟩ := r
      rw [hwalk] at h
      cases h
      obtain ⟨hstop, hnone, hmem, hpair⟩ := trail_spec hwalk
      refine ⟨ps, rfl, ?_, hmem, hpair⟩
      rw [decide_eq_true_iff]
      constructor
      · intro hlt
        refine ⟨stop, hstop, hlt, ?_⟩
        rw [nextPos, if_pos hlt] at hnone
        exact Option.map_eq_none_iff.mp hnone
      · rintro ⟨pos, hreach, hlt, hlen⟩
        rwa [stop_unique hstop hnone hreach (nextPos_of_short hlt hlen)]

/-- A loop is cut short exactly when it raises an exception. -/
theorem cutShort_iff (bytes : Str) (limit : Int) :
    CutShort bytes limit ↔ ∃ fields, parts bytes limit = .ok (fields, true) := by
  constructor
  · intro h
    obtain ⟨pos, hreach, hlt, hlen⟩ := h
    obtain ⟨⟨fields, raised⟩, hparts⟩ :=
      (parts_ends_iff bytes limit).mpr (not_cycles hreach (nextPos_of_short hlt hlen))
    obtain ⟨-, -, hraised, -⟩ := parts_spec hparts
    obtain rfl := hraised.mpr ⟨pos, hreach, hlt, hlen⟩
    exact ⟨fields, hparts⟩
  · rintro ⟨fields, hparts⟩
    obtain ⟨-, -, hraised, -⟩ := parts_spec hparts
    exact hraised.mp rfl

/-! ## the rows -/

/-- The rows are read one after the other, until one raises an exception. -/
theorem unpackRow_ends_iff (datagram : List Dict) (rows : List (Int × Str)) :
    (∃ d, unpackRow datagram rows = .ok d) ↔
      ∀ before row behind, rows = before ++ row :: behind →
        (∀ r ∈ before, ¬ ∃ fields, parts r.2 r.1 = .ok (fields, true)) →
        ∃ r, parts row.2 row.1 = .ok r := by
  induction rows generalizing datagram with
  | nil => exact iff_of_true ⟨datagram, rfl⟩ (by simp)
  | cons row rows ih =>
      rw [unpackRow]
      cases hparts : parts row.2 row.1 with
      | error e =>
          refine iff_of_false (by simp) fun h => ?_
          obtain ⟨r, hr⟩ := h [] row rows rfl (by simp)
          rw [hparts] at hr
          cases hr
      | ok r =>
          obtain ⟨fields, raised⟩ := r
          rw [ok_bind]
          dsimp only
          cases raised with
          | true =>
              refine iff_of_true ⟨datagram, if_pos rfl⟩ fun before row' behind hsplit hno => ?_
              cases before with
              | nil =>
                  obtain ⟨rfl, -⟩ := List.cons.inj hsplit
                  exact ⟨_, hparts⟩
              | cons r before =>
                  obtain ⟨rfl, -⟩ := List.cons.inj hsplit
                  exact absurd ⟨fields, hparts⟩ (hno row List.mem_cons_self)
          | false =>
              rw [if_neg Bool.false_ne_true, ih]
              constructor
              · intro h before row' behind hsplit hno
                cases before with
                | nil =>
                    obtain ⟨rfl, -⟩ := List.cons.inj hsplit
                    exact ⟨_, hparts⟩
                | cons r before =>
                    obtain ⟨-, hsplit⟩ := List.cons.inj hsplit
                    exact h before row' behind hsplit fun r hr => hno r (List.mem_cons_of_mem _ hr)
              · intro h before row' behind hsplit hno
                refine h (row :: before) row' behind (by rw [hsplit]; rfl) ?_
                refine List.forall_mem_cons.mpr ⟨?_, hno⟩
                rintro ⟨fields', hfields⟩
                rw [hparts] at hfields
                cases hfields

/-- **`unpack` ends** exactly when neither the rows nor, up to the first row that is cut short,
the fields of a row come back to a length. -/
theorem unpack_ends_iff (bytes : Str) :
    (∃ datagram, unpack bytes = .ok datagram) ↔ EndsOn bytes := by
  rw [unpack, EndsOn]
  cases hlen : unpackInt (slice bytes 0 4) with
  | none => exact iff_of_true ⟨[], rfl⟩ (by simp)
  | some len =>
      simp only [Option.some.injEq, forall_eq']
      cases hparts : parts (bytes.drop 4) (len - 4) with
      | error e =>
          refine iff_of_false (by simp) fun h => ?_
          obtain ⟨r, hr⟩ := (parts_ends_iff _ _).mpr h.1
          rw [hparts] at hr
          cases hr
      | ok r =>
          obtain ⟨rows, raised⟩ := r
          have hends : ¬ Circular (bytes.drop 4) (len - 4) := (parts_ends_iff _ _).mp ⟨_, hparts⟩
          obtain ⟨ps, rfl, -, hmem, hpair⟩ := parts_spec hparts
          rw [ok_bind]
          dsimp only
          rw [unpackRow_ends_iff]
          simp only [parts_ends_iff, ← cutShort_iff]
          rw [and_iff_right hends]
          constructor
          · intro h pos hreach hnext hno
            obtain ⟨before, behind, rfl⟩ := List.append_of_mem ((hmem pos).mpr ⟨hreach, hnext⟩)
            refine h (before.map (partAt (bytes.drop 4))) (partAt (bytes.drop 4) pos)
              (behind.map (partAt (bytes.drop 4))) (by simp) ?_
            intro r hr
            obtain ⟨pos', hpos', rfl⟩ := List.mem_map.mp hr
            obtain ⟨hreach', hlead⟩ := (mem_before_iff hmem hpair hends).mp hpos'
            exact hno pos' hreach' hlead
          · intro h before row behind hsplit hno
            obtain ⟨ps₁, ps₂, rfl, rfl, hps₂⟩ := List.map_eq_append_iff.mp hsplit
            obtain ⟨pos, ps₂, rfl, rfl, rfl⟩ := List.map_eq_cons_iff.mp hps₂
            have hpos := (hmem pos).mp (List.mem_append_right _ List.mem_cons_self)
            refine h pos hpos.1 hpos.2 fun pos' hreach hlead => ?_
            have hpos' := (mem_before_iff hmem hpair hends).mpr ⟨hreach, hlead⟩
            exact hno _ (List.mem_map.mpr ⟨pos', hpos', rfl⟩)

/-- No length that a loop comes to is negative. -/
def Forward (bytes : Str) (limit : Int) : Prop :=
  ∀ pos len, LeadsTo (nextPos bytes limit) 0 pos → lengthAt bytes pos = some len → 0 ≤ len

theorem not_circular_of_forward {bytes : Str} {limit : Int} (h : Forward bytes limit) :
    ¬ Circular bytes limit := by
  refine not_cycles_of_lt fun pos next hreach hnext => ?_
  rw [nextPos] at hnext
  split at hnext
  · obtain ⟨len, hlen, rfl⟩ := Option.map_eq_some_iff.mp hnext
    have := h pos len hreach hlen
    omega
  · cases hnext

/-- A reply without a negative length ends. -/
theorem endsOn_of_forward {bytes : Str}
    (h : ∀ len, unpackInt (slice bytes 0 4) = some len → Forward (bytes.drop 4) (len - 4) ∧
      ∀ pos, LeadsTo (nextPos (bytes.drop 4) (len - 4)) 0 pos →
        Forward (partAt (bytes.drop 4) pos).2 (partAt (bytes.drop 4) pos).1) :
    EndsOn bytes := by
  intro len hlen
  obtain ⟨hrows, hfields⟩ := h len hlen
  exact ⟨not_circular_of_forward hrows,
    fun pos hreach _ _ => not_circular_of_forward (hfields pos hreach)⟩

/-- A row with a length of `-4` leads back to itself, for any number of turns. -/
theorem unpack_diverges :
    unpack [0, 0, 0, 12, 255, 255, 255, 252] = .error .diverge ∧
      ∀ fuel, partsLoop [255, 255, 255, 252] 8 fuel 0 [] = .error .diverge := by
  have hlen : unpackInt (slice [0, 0, 0, 12, 255, 255, 255, 252] 0 4) = some 12 := by
    decide +kernel
  have hparts : parts [255, 255, 255, 252] 8 = .error .diverge := by decide +kernel
  refine ⟨?_, partsLoop_diverges hparts⟩
  rw [unpack, hlen]
  exact congrArg (· >>= _) hparts

end DatagramFactory
end PythonProjects
end MySrc
