import Mathlib

/-!
# Lists in parts

A list that is cut into parts with a property. Empty parts can be left out, and put back where the empty list has the property.
-/

namespace CutList

variable {α : Type*} {P Q : List α → Prop} {k m : Nat} {s : List α}

/-- The list is cut into `k` parts with the property. -/
def Cuts (P : List α → Prop) : Nat → List α → Prop
  | 0, s => s = []
  | k + 1, s => ∃ p t, s = p ++ t ∧ P p ∧ Cuts P k t

theorem cuts_iff : Cuts P k s ↔ ∃ ps : List (List α), ps.length = k ∧ ps.flatten = s ∧ ∀ p ∈ ps, P p := by
  induction k generalizing s with
  | zero =>
    constructor
    · rintro rfl
      exact ⟨[], rfl, rfl, by simp⟩
    · rintro ⟨ps, hlen, rfl, -⟩
      rw [List.length_eq_zero_iff.1 hlen]
      rfl
  | succ k ih =>
    constructor
    · rintro ⟨p, t, rfl, hp, ht⟩
      obtain ⟨ps, hlen, rfl, hall⟩ := ih.1 ht
      exact ⟨p :: ps, by simp [hlen], rfl, by simpa using ⟨hp, hall⟩⟩
    · rintro ⟨ps, hlen, rfl, hall⟩
      cases ps with
      | nil => simp at hlen
      | cons p ps =>
        exact ⟨p, ps.flatten, rfl, hall p (by simp), ih.2 ⟨ps, by simpa using hlen, rfl, fun q hq => hall q (List.mem_cons_of_mem _ hq)⟩⟩

/-- Without its empty parts. -/
theorem Cuts.nonempty (h : Cuts P k s) : ∃ j ≤ k, Cuts (fun p => p ≠ [] ∧ P p) j s ∧ (j < k → P []) := by
  induction k generalizing s with
  | zero => exact ⟨0, Nat.le_refl _, h, nofun⟩
  | succ k ih =>
    obtain ⟨p, t, rfl, hp, ht⟩ := h
    obtain ⟨j, hj, hcuts, hnil⟩ := ih ht
    by_cases hempty : p = []
    · subst hempty
      exact ⟨j, Nat.le_succ_of_le hj, hcuts, fun _ => hp⟩
    · exact ⟨j + 1, Nat.succ_le_succ hj, ⟨p, t, rfl, ⟨hempty, hp⟩, hcuts⟩, fun h => hnil (Nat.lt_of_succ_lt_succ h)⟩

theorem Cuts.length_le (h : Cuts P k s) (hP : ∀ p, P p → p.length ≤ m) : s.length ≤ k * m := by
  induction k generalizing s with
  | zero =>
    obtain rfl : s = [] := h
    simp
  | succ k ih =>
    obtain ⟨p, t, rfl, hp, ht⟩ := h
    have hrest := ih ht
    have hfirst := hP p hp
    rw [List.length_append, Nat.succ_mul]
    omega

theorem Cuts.le_length (h : Cuts P k s) (hP : ∀ p, P p → m ≤ p.length) : k * m ≤ s.length := by
  induction k generalizing s with
  | zero => simp
  | succ k ih =>
    obtain ⟨p, t, rfl, hp, ht⟩ := h
    have hrest := ih ht
    have hfirst := hP p hp
    rw [List.length_append, Nat.succ_mul]
    omega

end CutList
