import Gtm.Lib.LexOrder

/-!
# Sequences of terminated strings

A sequence of strings is written as one string by closing each of them with a terminator below every symbol, and closing the whole
once more. The order and the beginnings of such strings are those of the sequences.
-/

namespace Terminated

open LexOrder

variable {α : Type*} [LinearOrder α] {t : α}

/-- The strings one after the other, each closed by the terminator. -/
def closed (t : α) (u : List (List α)) : List α := u.flatMap (· ++ [t])

/-- None of the strings is empty, and all their symbols are above the terminator. -/
def Free (t : α) (u : List (List α)) : Prop := ∀ s ∈ u, s ≠ [] ∧ ∀ x ∈ s, t < x

omit [LinearOrder α] in
@[simp] theorem closed_nil : closed t [] = [] := rfl

omit [LinearOrder α] in
@[simp] theorem closed_cons (s : List α) (u : List (List α)) : closed t (s :: u) = s ++ t :: closed t u := by
  simp [closed]

omit [LinearOrder α] in
@[simp] theorem closed_append (u w : List (List α)) : closed t (u ++ w) = closed t u ++ closed t w := by
  simp [closed]

theorem free_cons {s : List α} {u : List (List α)} : Free t (s :: u) ↔ (s ≠ [] ∧ ∀ x ∈ s, t < x) ∧ Free t u := by
  simp [Free]

theorem Free.append {u w : List (List α)} (hu : Free t u) (hw : Free t w) : Free t (u ++ w) := by
  intro s hs
  rcases List.mem_append.1 hs with hs | hs
  · exact hu s hs
  · exact hw s hs

theorem Free.of_prefix {u w : List (List α)} (hw : Free t w) (h : u <+: w) : Free t u := fun s hs => hw s (h.subset hs)

theorem not_mem_of_lt {s : List α} (h : ∀ x ∈ s, t < x) : t ∉ s := fun ht => lt_irrefl t (h t ht)

/-- Closed sequences compare as the sequences. -/
theorem closed_lt_iff {u w : List (List α)} (hu : Free t u) (hw : Free t w) : closed t u ++ [t] < closed t w ++ [t] ↔ u < w := by
  induction u generalizing w with
  | nil =>
    cases w with
    | nil => simp
    | cons s w =>
      obtain ⟨⟨hne, hs⟩, -⟩ := free_cons.1 hw
      cases s with
      | nil => exact absurd rfl hne
      | cons x s => simp [List.cons_lt_cons_iff, hs x]
  | cons r u ih =>
    obtain ⟨⟨hner, hr⟩, hu⟩ := free_cons.1 hu
    cases w with
    | nil =>
      cases r with
      | nil => exact absurd rfl hner
      | cons x r =>
        have hx := hr x (by simp)
        simp [List.cons_lt_cons_iff, hx.ne', hx.le]
    | cons s w =>
      obtain ⟨⟨-, hs⟩, hw⟩ := free_cons.1 hw
      rw [closed_cons, closed_cons, List.append_assoc, List.append_assoc, List.cons_append, List.cons_append,
        append_terminator_lt_iff _ _ (not_mem_of_lt hr) (not_mem_of_lt hs), append_least_lt_iff hr hs, ih hu hw,
        List.cons_lt_cons_iff]

theorem closed_inj {u w : List (List α)} (hu : Free t u) (hw : Free t w) (h : closed t u ++ [t] = closed t w ++ [t]) : u = w := by
  rcases lt_trichotomy u w with hlt | heq | hlt
  · exact absurd ((closed_lt_iff hu hw).2 hlt) (by rw [h]; exact lt_irrefl _)
  · exact heq
  · exact absurd ((closed_lt_iff hw hu).2 hlt) (by rw [h]; exact lt_irrefl _)

theorem closed_le_iff {u w : List (List α)} (hu : Free t u) (hw : Free t w) : closed t u ++ [t] ≤ closed t w ++ [t] ↔ u ≤ w := by
  rw [← not_lt, ← not_lt, closed_lt_iff hw hu]

/-- A closed sequence is a beginning of another as the sequences are. -/
theorem closed_prefix_iff {u w : List (List α)} (hu : Free t u) (hw : Free t w) : closed t u <+: closed t w ++ [t] ↔ u <+: w := by
  constructor
  · intro h
    induction u generalizing w with
    | nil => exact List.nil_prefix
    | cons r u ih =>
      obtain ⟨⟨hner, hr⟩, hu⟩ := free_cons.1 hu
      obtain ⟨z, hz⟩ := h
      cases w with
      | nil =>
        -- the terminator alone does not begin with a symbol of `r`
        cases r with
        | nil => exact absurd rfl hner
        | cons x r =>
          have : x = t := by simpa using congrArg List.head? hz
          exact absurd (hr x (by simp)) (by rw [this]; exact lt_irrefl _)
      | cons s w =>
        obtain ⟨⟨-, hs⟩, hw'⟩ := free_cons.1 hw
        rw [closed_cons, closed_cons, List.append_assoc, List.append_assoc, List.cons_append] at hz
        obtain ⟨rfl, hz'⟩ := append_terminator_inj (not_mem_of_lt hr) (not_mem_of_lt hs) hz
        obtain ⟨y, hy⟩ := ih hu hw' ⟨z, hz'⟩
        exact ⟨y, by simp [hy]⟩
  · rintro ⟨y, rfl⟩
    rw [closed_append, List.append_assoc]
    exact List.prefix_append _ _

end Terminated
