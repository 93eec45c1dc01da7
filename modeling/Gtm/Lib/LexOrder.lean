import Mathlib

/-!
# Byte strings in lexicographic order

Bytes are `UInt8` with their numeric order and byte strings are lists under the lexicographic order, the order `memcmp` decides
on strings of which neither is a prefix of the other. The statements here are about strings closed by a terminator: a terminator
that does not occur inside the strings makes them prefix-free, one below every symbol keeps the order of the strings, one above
every symbol reverses the order of an order-reversing code.
-/

namespace LexOrder

instance instLinearOrderUInt8 : LinearOrder UInt8 where
  le_refl := UInt8.le_refl
  le_trans _ _ _ := UInt8.le_trans
  le_antisymm _ _ := UInt8.le_antisymm
  le_total := UInt8.le_total
  lt_iff_le_not_ge a b := by
    rw [UInt8.lt_iff_toNat_lt, UInt8.le_iff_toNat_le, UInt8.le_iff_toNat_le]
    omega
  toDecidableLE := inferInstance

variable {α β : Type*} [LinearOrder α] [LinearOrder β]

/-- A common beginning does not count in a comparison. -/
theorem append_left_lt_iff (p u v : List α) : p ++ u < p ++ v ↔ u < v := by
  induction p with
  | nil => rfl
  | cons x p ih => simp [ih]

theorem append_left_le_iff (p u v : List α) : p ++ u ≤ p ++ v ↔ u ≤ v := by
  rw [← not_lt, ← not_lt, append_left_lt_iff]

theorem cons_le_cons_iff {x y : α} {u v : List α} : x :: u ≤ y :: v ↔ x < y ∨ (x = y ∧ u ≤ v) := by
  rw [← not_lt, List.cons_lt_cons_iff, ← not_lt]
  constructor
  · intro h
    rcases lt_trichotomy x y with hlt | heq | hlt
    · exact .inl hlt
    · exact .inr ⟨heq, fun hvu => h (.inr ⟨heq.symm, hvu⟩)⟩
    · exact absurd (.inl hlt) h
  · rintro (hlt | ⟨rfl, hle⟩) (hlt' | ⟨heq, hvu⟩)
    · exact hlt.asymm hlt'
    · exact hlt.ne' heq
    · exact lt_irrefl _ hlt'
    · exact hle hvu

/-- What lies between two strings with a common beginning has it too. -/
theorem prefix_of_between {p y : List α} (a b : List α) (ha : p ++ a ≤ y) (hb : y ≤ p ++ b) : p <+: y := by
  induction p generalizing y with
  | nil => exact List.nil_prefix
  | cons x p ih =>
    cases y with
    | nil => exact absurd ha (not_le.2 (List.nil_lt_cons _ _))
    | cons z y =>
      rw [List.cons_append, cons_le_cons_iff] at ha hb
      have hxz : x = z := by
        rcases ha with ha | ⟨rfl, -⟩
        · rcases hb with hb | ⟨rfl, -⟩
          · exact absurd ha hb.asymm
          · rfl
        · rfl
      subst hxz
      simp only [lt_self_iff_false, true_and, false_or] at ha hb
      exact (List.prefix_cons_inj x).2 (ih ha hb)

/-- Two strings closed by a terminator that occurs in neither compare like the closed strings alone, and only equal strings
leave the comparison to what follows them. -/
theorem append_terminator_lt_iff {t : α} {u v : List α} (r r' : List α) (hu : t ∉ u) (hv : t ∉ v) :
    u ++ t :: r < v ++ t :: r' ↔ u ++ [t] < v ++ [t] ∨ (u = v ∧ r < r') := by
  induction u generalizing v with
  | nil =>
    cases v with
    | nil => simp
    | cons y v =>
      have hy : t ≠ y := by
        rintro rfl
        simp at hv
      simp [List.cons_lt_cons_iff, hy]
  | cons x u ih =>
    cases v with
    | nil =>
      have hx : x ≠ t := by
        rintro rfl
        simp at hu
      simp [List.cons_lt_cons_iff, hx]
    | cons y v =>
      have hu' : t ∉ u := fun h => hu (List.mem_cons_of_mem _ h)
      have hv' : t ∉ v := fun h => hv (List.mem_cons_of_mem _ h)
      simp only [List.cons_append, List.cons_lt_cons_iff, ih hu' hv', List.cons.injEq]
      tauto

omit [LinearOrder α] in
/-- Strings closed by a terminator that occurs in neither are equal only when the strings are. -/
theorem append_terminator_inj {t : α} {u v r r' : List α} (hu : t ∉ u) (hv : t ∉ v) (h : u ++ t :: r = v ++ t :: r') : u = v ∧ r = r' := by
  induction u generalizing v with
  | nil =>
    cases v with
    | nil => simpa using h
    | cons y v =>
      simp only [List.nil_append, List.cons_append, List.cons.injEq] at h
      exact absurd (by simp [h.1]) hv
  | cons x u ih =>
    cases v with
    | nil =>
      simp only [List.nil_append, List.cons_append, List.cons.injEq] at h
      exact absurd (by simp [h.1]) hu
    | cons y v =>
      simp only [List.cons_append, List.cons.injEq] at h
      obtain ⟨rfl, h⟩ := h
      obtain ⟨rfl, hr⟩ := ih (fun h => hu (List.mem_cons_of_mem _ h)) (fun h => hv (List.mem_cons_of_mem _ h)) h
      exact ⟨rfl, hr⟩

/-- A terminator below every symbol keeps the order of the strings it closes. -/
theorem append_least_lt_iff {t : α} {u v : List α} (hu : ∀ x ∈ u, t < x) (hv : ∀ x ∈ v, t < x) : u ++ [t] < v ++ [t] ↔ u < v := by
  induction u generalizing v with
  | nil =>
    cases v with
    | nil => simp
    | cons y v => simp [List.cons_lt_cons_iff, hv y]
  | cons x u ih =>
    cases v with
    | nil =>
      have hx := hu x (by simp)
      simp [List.cons_lt_cons_iff, hx.ne', hx.le]
    | cons y v =>
      simp only [List.cons_append, List.cons_lt_cons_iff, ih (List.forall_mem_cons.mp hu).2 (List.forall_mem_cons.mp hv).2]

/-- A code that is strictly increasing on the symbols in use keeps the order of strings. -/
theorem map_lt_map_iff {f : α → β} {s : Set α} (hf : StrictMonoOn f s) {u v : List α} (hu : ∀ x ∈ u, x ∈ s)
    (hv : ∀ x ∈ v, x ∈ s) : u.map f < v.map f ↔ u < v := by
  induction u generalizing v with
  | nil => cases v <;> simp
  | cons x u ih =>
    cases v with
    | nil => simp
    | cons y v =>
      obtain ⟨hx, hu⟩ := List.forall_mem_cons.mp hu
      obtain ⟨hy, hv⟩ := List.forall_mem_cons.mp hv
      simp only [List.map_cons, List.cons_lt_cons_iff, hf.lt_iff_lt hx hy, hf.injOn.eq_iff hx hy, ih hu hv]

/-- A code that is strictly decreasing on the symbols in use, closed by a terminator above every code, reverses the order of
strings. -/
theorem map_append_greatest_lt_iff {f : α → β} {s : Set α} (hf : StrictAntiOn f s) {t : β} (ht : ∀ x ∈ s, f x < t)
    {u v : List α} (hu : ∀ x ∈ u, x ∈ s) (hv : ∀ x ∈ v, x ∈ s) : u.map f ++ [t] < v.map f ++ [t] ↔ v < u := by
  induction u generalizing v with
  | nil =>
    cases v with
    | nil => simp
    | cons y v =>
      have hy := ht y (hv y (by simp))
      simp [List.cons_lt_cons_iff, hy.ne', hy.le]
  | cons x u ih =>
    cases v with
    | nil => simp [List.cons_lt_cons_iff, ht x (hu x (by simp))]
    | cons y v =>
      obtain ⟨hx, hu⟩ := List.forall_mem_cons.mp hu
      obtain ⟨hy, hv⟩ := List.forall_mem_cons.mp hv
      simp only [List.map_cons, List.cons_append, List.cons_lt_cons_iff, hf.lt_iff_gt hx hy, hf.injOn.eq_iff hx hy, ih hu hv]
      tauto

end LexOrder
