import Gtm.Lib.LexOrder

/-!
# Common beginnings of strings

How far two strings agree, and what the order of strings says about it: for three strings in order the outer two agree exactly as
far as both neighbouring pairs do.
-/

namespace CommonPrefix

open LexOrder

variable {α : Type*} [LinearOrder α]

/-- How many symbols two strings have in common from their start. -/
def lcp : List α → List α → Nat
  | a :: u, b :: v => if a = b then lcp u v + 1 else 0
  | _, _ => 0

@[simp] theorem lcp_nil_left (v : List α) : lcp [] v = 0 := by simp [lcp]

@[simp] theorem lcp_nil_right (u : List α) : lcp u [] = 0 := by simp [lcp]

@[simp] theorem lcp_cons_self (a : α) (u v : List α) : lcp (a :: u) (a :: v) = lcp u v + 1 := by simp [lcp]

theorem lcp_cons_of_ne {a b : α} (h : a ≠ b) (u v : List α) : lcp (a :: u) (b :: v) = 0 := by simp [lcp, h]

@[simp] theorem lcp_self (u : List α) : lcp u u = u.length := by
  induction u with
  | nil => rfl
  | cons a u ih => simp [ih]

theorem lcp_comm (u v : List α) : lcp u v = lcp v u := by
  induction u generalizing v with
  | nil => simp
  | cons a u ih =>
    cases v with
    | nil => simp
    | cons b v =>
      by_cases h : a = b
      · subst h
        simp [ih]
      · rw [lcp_cons_of_ne h, lcp_cons_of_ne (Ne.symm h)]

theorem lcp_le_left (u v : List α) : lcp u v ≤ u.length := by
  induction u generalizing v with
  | nil => simp
  | cons a u ih =>
    cases v with
    | nil => simp
    | cons b v =>
      simp only [lcp]
      split
      · simpa using ih v
      · exact Nat.zero_le _

theorem lcp_le_right (u v : List α) : lcp u v ≤ v.length := by
  rw [lcp_comm]
  exact lcp_le_left v u

/-- A common beginning counts in full. -/
theorem lcp_append_left (p u v : List α) : lcp (p ++ u) (p ++ v) = p.length + lcp u v := by
  induction p with
  | nil => simp
  | cons a p ih =>
    simp only [List.cons_append, lcp_cons_self, ih, List.length_cons]
    omega

/-- Two strings that part behind a common beginning agree exactly on it. -/
theorem lcp_of_split {a b : α} (p u v : List α) (h : a ≠ b) : lcp (p ++ a :: u) (p ++ b :: v) = p.length := by
  rw [lcp_append_left, lcp_cons_of_ne h, Nat.add_zero]

theorem le_lcp_iff {n : Nat} {u v : List α} : n ≤ lcp u v ↔ n ≤ u.length ∧ n ≤ v.length ∧ u.take n = v.take n := by
  induction n generalizing u v with
  | zero => simp
  | succ n ih =>
    cases u with
    | nil => simp
    | cons a u =>
      cases v with
      | nil => simp
      | cons b v =>
        by_cases h : a = b
        · subst h
          simp [ih]
        · simp [lcp_cons_of_ne h, h]

theorem take_eq_of_le_lcp {n : Nat} {u v : List α} (h : n ≤ lcp u v) : u.take n = v.take n := (le_lcp_iff.1 h).2.2

/-- Where neither string is a beginning of the other, the one before the other is so at the first symbol they differ in. -/
theorem split_of_lt {u v : List α} (h : u < v) (hp : ¬u <+: v) : ∃ p a b u' v', u = p ++ a :: u' ∧ v = p ++ b :: v' ∧ a < b := by
  induction u generalizing v with
  | nil => exact absurd List.nil_prefix hp
  | cons x u ih =>
    cases v with
    | nil => exact absurd h (by simp)
    | cons y v =>
      rcases List.cons_lt_cons_iff.1 h with hxy | ⟨rfl, huv⟩
      · exact ⟨[], x, y, u, v, rfl, rfl, hxy⟩
      · obtain ⟨p, a, b, u', v', rfl, rfl, hab⟩ := ih huv (fun hpre => hp ((List.prefix_cons_inj x).2 hpre))
        exact ⟨x :: p, a, b, u', v', rfl, rfl, hab⟩

theorem lt_of_split {a b : α} (p u v : List α) (h : a < b) : p ++ a :: u < p ++ b :: v := by
  rw [append_left_lt_iff]
  exact List.cons_lt_cons_iff.2 (.inl h)

/-- Of three strings in order, the outer two agree as far as both neighbours do. -/
theorem lcp_of_le_of_le {u v w : List α} (huv : u ≤ v) (hvw : v ≤ w) : lcp u w = min (lcp u v) (lcp v w) := by
  induction u generalizing v w with
  | nil => simp
  | cons a u ih =>
    cases v with
    | nil => exact absurd huv (not_le.2 (List.nil_lt_cons _ _))
    | cons b v =>
      cases w with
      | nil => exact absurd hvw (not_le.2 (List.nil_lt_cons _ _))
      | cons c w =>
        rcases cons_le_cons_iff.1 huv with hab | ⟨rfl, huv'⟩
        · have hac : a < c := by
            rcases cons_le_cons_iff.1 hvw with hbc | ⟨rfl, -⟩
            · exact hab.trans hbc
            · exact hab
          rw [lcp_cons_of_ne hac.ne, lcp_cons_of_ne hab.ne, Nat.zero_min]
        · rcases cons_le_cons_iff.1 hvw with hac | ⟨rfl, hvw'⟩
          · rw [lcp_cons_of_ne hac.ne u w, lcp_cons_of_ne hac.ne v w, Nat.min_zero]
          · rw [lcp_cons_self, lcp_cons_self, lcp_cons_self, ih huv' hvw', Nat.add_min_add_right]

/-- A string that agrees with `u` further than `w` does is on the same side of `w`, and parts from it where `u` does. -/
theorem lt_of_lcp_lt {u v w : List α} (hu : ¬u <+: w) (huw : u < w) (h : lcp u w < lcp u v) : v < w ∧ lcp v w = lcp u w := by
  obtain ⟨p, a, b, u', w', rfl, rfl, hab⟩ := split_of_lt huw hu
  rw [lcp_of_split p u' w' hab.ne] at h ⊢
  have htake : (p ++ a :: u').take (p.length + 1) = v.take (p.length + 1) := take_eq_of_le_lcp h
  have hv : v = p ++ a :: v.drop (p.length + 1) := by
    conv_lhs => rw [← List.take_append_drop (p.length + 1) v, ← htake, List.take_length_add_append]
    simp
  rw [hv]
  exact ⟨lt_of_split _ _ _ hab, lcp_of_split _ _ _ hab.ne⟩

end CommonPrefix
