import Mathlib

/-!
# The first in a range

What a search through a range of numbers has to find: the first number of the range with a property, or nothing when there is none.
A search that goes through a range in pieces finds the first of all of them.
-/

namespace Scan

/-- The result is the first number from `a` on and below `b` that has the property, or none if there is none. -/
def FirstIn (p : Nat → Prop) (a b : Nat) : Option Nat → Prop
  | some x => a ≤ x ∧ x < b ∧ p x ∧ ∀ i, a ≤ i → i < x → ¬p i
  | none => ∀ i, a ≤ i → i < b → ¬p i

variable {p : Nat → Prop} {a b m x : Nat} {r r' : Option Nat}

/-- There is nothing in an empty range. -/
theorem firstIn_empty (h : b ≤ a) : FirstIn p a b none := fun _ ha hb => absurd (ha.trans_lt hb) (not_lt.2 h)

theorem FirstIn.eq_none (h : FirstIn p a b r) (hle : b ≤ a) : r = none := by
  cases r with
  | none => rfl
  | some x => exact absurd (h.1.trans_lt h.2.1) (not_lt.2 hle)

/-- A search through two adjacent ranges. -/
theorem FirstIn.or (h : FirstIn p a m r) (h' : FirstIn p m b r') (ham : a ≤ m) (hmb : m ≤ b) : FirstIn p a b (r.or r') := by
  cases r with
  | some x => exact ⟨h.1, h.2.1.trans_le hmb, h.2.2⟩
  | none =>
    cases r' with
    | some x =>
      obtain ⟨hm, hb, hp, hfirst⟩ := h'
      refine ⟨ham.trans hm, hb, hp, fun i hi hix => ?_⟩
      rcases lt_or_ge i m with hlt | hge
      · exact h i hi hlt
      · exact hfirst i hge hix
    | none =>
      intro i hi hib
      rcases lt_or_ge i m with hlt | hge
      · exact h i hi hlt
      · exact h' i hge hib

/-- Only what the property says of the numbers of the range matters. -/
theorem FirstIn.congr {q : Nat → Prop} (h : FirstIn p a b r) (hpq : ∀ i, a ≤ i → i < b → (q i ↔ p i)) : FirstIn q a b r := by
  cases r with
  | some x =>
    obtain ⟨ha, hb, hp, hfirst⟩ := h
    exact ⟨ha, hb, (hpq x ha hb).2 hp, fun i hi hix hq => hfirst i hi hix ((hpq i hi (hix.trans hb)).1 hq)⟩
  | none => exact fun i hi hib hq => h i hi hib ((hpq i hi hib).1 hq)

/-- The result is one of the numbers of a set that have the property, or none if none of them has it. -/
def AnyIn (s p : Nat → Prop) : Option Nat → Prop
  | some x => s x ∧ p x
  | none => ∀ i, s i → ¬p i

/-- A search through two sets one after the other. -/
theorem AnyIn.or {s t u : Nat → Prop} (h : AnyIn s p r) (h' : AnyIn t p r') (hu : ∀ i, u i ↔ s i ∨ t i) : AnyIn u p (r.or r') := by
  cases r with
  | some x => exact ⟨(hu x).2 (.inl h.1), h.2⟩
  | none =>
    cases r' with
    | some x => exact ⟨(hu x).2 (.inr h'.1), h'.2⟩
    | none => exact fun i hi => ((hu i).1 hi).elim (h i) (h' i)

end Scan
