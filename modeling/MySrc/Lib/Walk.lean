import Mathlib.Data.Finset.Card
import Mathlib.Data.List.Chain
import Mathlib.Logic.Relation

/-!
# MySrc.Lib.Walk

Walks along a partial function.

From a place the function leads to the next one, or the walk stops there.  A walk that
comes back to a place never stops (`trail_eq_none`), and a walk that leaves only finitely
many places and does not come back to one stops (`trail_stops`).
-/

namespace Lib

open Relation

variable {α : Type} {next : α → Option α} {a b p : α}

/-- One step of the walk. -/
def Leads (next : α → Option α) (a b : α) : Prop := next a = some b

/-- The walk from `a` comes to `b`. -/
abbrev LeadsTo (next : α → Option α) : α → α → Prop := ReflTransGen (Leads next)

/-- The walk from `a` comes to a place that it comes back to. -/
def Cycles (next : α → Option α) (a : α) : Prop :=
  ∃ p, LeadsTo next a p ∧ TransGen (Leads next) p p

/-- The places that are left in at most so many steps, and where the walk stops. -/
def trail (next : α → Option α) : Nat → α → Option (List α × α)
  | 0, _ => none
  | fuel + 1, a =>
      match next a with
      | none => some ([], a)
      | some b => (trail next fuel b).map fun r => (a :: r.1, r.2)

/-- A walk that cycles goes on, and cycles from there. -/
theorem Cycles.step (h : Cycles next a) : ∃ b, next a = some b ∧ Cycles next b := by
  obtain ⟨p, hreach, hcycle⟩ := h
  obtain rfl | ⟨b, hb, hreach⟩ := hreach.cases_head
  · obtain ⟨b, hb, hback⟩ := TransGen.head'_iff.mp hcycle
    exact ⟨b, hb, a, hback, hcycle⟩
  · exact ⟨b, hb, p, hreach, hcycle⟩

/-- **A walk that cycles never stops.** -/
theorem trail_eq_none (h : Cycles next a) (fuel : Nat) : trail next fuel a = none := by
  induction fuel generalizing a with
  | zero => rfl
  | succ fuel ih =>
      obtain ⟨b, hb, h⟩ := h.step
      rw [trail, hb]
      dsimp only
      rw [ih h]
      rfl

/-- A walk that only goes up does not cycle. -/
theorem not_cycles_of_lt [Preorder α] (h : ∀ p b, LeadsTo next a p → next p = some b → p < b) :
    ¬ Cycles next a := by
  rintro ⟨p, hreach, hcycle⟩
  have hup : ∀ q, TransGen (Leads next) p q → p < q := by
    intro q hq
    induction hq with
    | single hb => exact h p _ hreach hb
    | tail hq hb ih => exact ih.trans (h _ _ (hreach.trans hq.to_reflTransGen) hb)
  exact lt_irrefl p (hup p hcycle)

/-- What is reached is where the walk is, or is reached from the next place. -/
theorem leadsTo_iff_of_step (hb : next a = some b) :
    LeadsTo next a p ↔ p = a ∨ LeadsTo next b p := by
  constructor
  · intro h
    obtain rfl | ⟨c, hc, h⟩ := h.cases_head
    · exact .inl rfl
    · obtain rfl : b = c := Option.some.inj (hb.symm.trans hc)
      exact .inr h
  · rintro (rfl | h)
    · exact .refl
    · exact h.head hb

/-- A walk stops at one place. -/
theorem stop_unique (hp : LeadsTo next a p) (hnp : next p = none) (hq : LeadsTo next a q)
    (hnq : next q = none) : p = q := by
  have hend : ∀ {c d}, next c = none → LeadsTo next c d → c = d := by
    intro c d hc hd
    obtain rfl | ⟨b, hb, -⟩ := hd.cases_head
    · rfl
    · rw [Leads, hc] at hb
      cases hb
  have hunique : Relator.RightUnique (Leads next) := fun a b c hb hc =>
    Option.some.inj (hb.symm.trans hc)
  obtain h | h := ReflTransGen.total_of_right_unique hunique hp hq
  · exact hend hnp h
  · exact (hend hnq h).symm

/-- **What a walk leaves**: every place that it comes to but the last, in this order. -/
theorem trail_spec (h : trail next fuel a = some (ps, stop)) :
    LeadsTo next a stop ∧ next stop = none ∧ (∀ p, p ∈ ps ↔ LeadsTo next a p ∧ next p ≠ none) ∧
      ps.Pairwise (TransGen (Leads next)) := by
  induction fuel generalizing a ps with
  | zero => cases h
  | succ fuel ih =>
      rw [trail] at h
      split at h
      · next hnone =>
          cases h
          refine ⟨.refl, hnone, fun p => ?_, List.Pairwise.nil⟩
          refine iff_of_false (by simp) ?_
          rintro ⟨hreach, hp⟩
          obtain rfl | ⟨b, hb, -⟩ := hreach.cases_head
          · exact hp hnone
          · rw [Leads, hnone] at hb
            cases hb
      · next b hb =>
          obtain ⟨⟨ps', stop'⟩, hwalk, h⟩ := Option.map_eq_some_iff.mp h
          cases h
          obtain ⟨hstop, hnone, hmem, hpair⟩ := ih hwalk
          refine ⟨hstop.head hb, hnone, fun p => ?_, List.pairwise_cons.mpr ⟨fun p hp => ?_, hpair⟩⟩
          · rw [List.mem_cons, hmem, leadsTo_iff_of_step hb]
            by_cases hp : p = a
            · subst hp
              simp [hb]
            · simp [hp]
          · exact TransGen.head' hb ((hmem p).mp hp).1

/-- The places before one that is left are those that lead to it. -/
theorem mem_before_iff (hmem : ∀ p, p ∈ ps ++ b :: qs ↔ LeadsTo next a p ∧ next p ≠ none)
    (hpair : (ps ++ b :: qs).Pairwise (TransGen (Leads next))) (hcycle : ¬ Cycles next a) :
    p ∈ ps ↔ LeadsTo next a p ∧ TransGen (Leads next) p b := by
  obtain ⟨-, hbehind, hbefore⟩ := List.pairwise_append.mp hpair
  constructor
  · intro hp
    exact ⟨((hmem p).mp (List.mem_append_left _ hp)).1, hbefore p hp b List.mem_cons_self⟩
  · rintro ⟨hreach, hlead⟩
    have hne : next p ≠ none := by
      obtain ⟨q, hq, -⟩ := TransGen.head'_iff.mp hlead
      rw [show next p = some q from hq]
      exact Option.some_ne_none q
    rcases List.mem_append.mp ((hmem p).mpr ⟨hreach, hne⟩) with hp | hp
    · exact hp
    · -- a place behind would lead back
      exfalso
      obtain rfl | hp := List.mem_cons.mp hp
      · exact hcycle ⟨p, hreach, hlead⟩
      · exact hcycle ⟨p, hreach, hlead.trans ((List.pairwise_cons.mp hbehind).1 p hp)⟩

/-- A walk that stops somewhere stops in so many steps. -/
theorem exists_trail (h : LeadsTo next a stop) (hstop : next stop = none) :
    ∃ fuel ps, trail next fuel a = some (ps, stop) := by
  induction h using ReflTransGen.head_induction_on with
  | refl => exact ⟨1, [], by rw [trail, hstop]⟩
  | @head a b hb _ ih =>
      obtain ⟨fuel, ps, hwalk⟩ := ih
      exact ⟨fuel + 1, a :: ps, by rw [trail, show next a = some b from hb]; simp [hwalk]⟩

/-- A walk that stops somewhere does not cycle. -/
theorem not_cycles (h : LeadsTo next a stop) (hstop : next stop = none) : ¬ Cycles next a := by
  intro hcycle
  obtain ⟨fuel, ps, hwalk⟩ := exists_trail h hstop
  rw [trail_eq_none hcycle] at hwalk
  cases hwalk

/-- The places of a walk that is not over. -/
theorem exists_chain (h : trail next fuel a = none) :
    ∃ ps : List α, ps.length = fuel ∧ (∀ p ∈ ps, LeadsTo next a p ∧ next p ≠ none) ∧
      ps.Pairwise (TransGen (Leads next)) := by
  induction fuel generalizing a with
  | zero => exact ⟨[], rfl, by simp, List.Pairwise.nil⟩
  | succ fuel ih =>
      rw [trail] at h
      split at h
      · cases h
      · next b hb =>
          obtain ⟨ps, hlen, hmem, hpair⟩ := ih (Option.map_eq_none_iff.mp h)
          refine ⟨a :: ps, by simp [hlen], List.forall_mem_cons.mpr ⟨⟨.refl, by simp [hb]⟩,
            fun p hp => ⟨(hmem p hp).1.head hb, (hmem p hp).2⟩⟩,
            List.pairwise_cons.mpr ⟨fun p hp => TransGen.head' hb (hmem p hp).1, hpair⟩⟩

/-- **A walk that does not cycle stops**, in more steps than there are places to leave. -/
theorem trail_stops [DecidableEq α] (places : Finset α) (hplaces : ∀ p, next p ≠ none → p ∈ places)
    (h : ¬ Cycles next a) (hfuel : places.card < fuel) :
    ∃ ps stop, trail next fuel a = some (ps, stop) := by
  cases hwalk : trail next fuel a with
  | some r => exact ⟨r.1, r.2, rfl⟩
  | none =>
      exfalso
      obtain ⟨ps, hlen, hmem, hpair⟩ := exists_chain hwalk
      have hnodup : ps.Nodup := by
        refine hpair.imp_of_mem fun {p q} hp _ hpq => ?_
        rintro rfl
        exact h ⟨p, (hmem p hp).1, hpq⟩
      have hsub : ps.toFinset ⊆ places := by
        intro p hp
        exact hplaces p (hmem p (List.mem_toFinset.mp hp)).2
      have hcard := Finset.card_le_card hsub
      rw [List.toFinset_card_of_nodup hnodup, hlen] at hcard
      omega

end Lib
