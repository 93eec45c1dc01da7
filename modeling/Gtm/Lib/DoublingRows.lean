import Mathlib

/-!
# Rows that double

A sequence laid out in rows, of which the first and the second have the same size and every further one has twice the size of the one
before.
-/

namespace DoublingRows

variable {A i j k n : Nat}

/-- How many places are before row `k`. -/
def rowStart (A : Nat) : Nat → Nat
  | 0 => 0
  | k + 1 => A * 2 ^ k

/-- How many there are up to its end. -/
def rowEnd (A k : Nat) : Nat := A * 2 ^ k

/-- The row of a place. -/
def rowOf (A i : Nat) : Nat := if i < A then 0 else Nat.log2 (i / A) + 1

/-- The row in which the first `n` places end. -/
def endRow (A n : Nat) : Nat := if n ≤ A then 0 else rowOf A (n - 1)

@[simp] theorem rowStart_zero : rowStart A 0 = 0 := rfl

theorem rowStart_succ : rowStart A (k + 1) = rowEnd A k := rfl

theorem rowEnd_succ : rowEnd A (k + 1) = 2 * rowEnd A k := by
  rw [rowEnd, rowEnd]
  ring

theorem rowEnd_mono (h : j ≤ k) : rowEnd A j ≤ rowEnd A k := Nat.mul_le_mul_left A (Nat.pow_le_pow_right (by omega) h)

theorem rowEnd_le_rowStart (A : Nat) (h : j < k) : rowEnd A j ≤ rowStart A k := by
  obtain ⟨m, rfl⟩ : ∃ m, k = m + 1 := ⟨k - 1, by omega⟩
  exact rowEnd_mono (by omega)

theorem rowEnd_pos (hA : 0 < A) : 0 < rowEnd A k := Nat.mul_pos hA (Nat.pow_pos (by omega))

/-- How long a row is: as long as all the rows before it, unless it is the first one. -/
theorem rowSize_succ : rowEnd A (k + 1) - rowStart A (k + 1) = rowEnd A k := by
  rw [rowStart_succ, rowEnd_succ]
  omega

section
variable (hA : 0 < A)
include hA

theorem rowStart_lt_rowEnd : rowStart A k < rowEnd A k := by
  cases k with
  | zero => exact rowEnd_pos hA
  | succ k =>
    have := rowEnd_pos (k := k) hA
    rw [rowStart_succ, rowEnd_succ]
    omega

theorem rowOf_spec (i : Nat) : rowStart A (rowOf A i) ≤ i ∧ i < rowEnd A (rowOf A i) := by
  by_cases h : i < A
  · simp [rowOf, h, rowEnd]
  · have hq : i / A ≠ 0 := (Nat.div_pos (not_lt.1 h) hA).ne'
    have hlow : A * 2 ^ Nat.log2 (i / A) ≤ A * (i / A) := Nat.mul_le_mul_left A (Nat.log2_self_le hq)
    have hhigh : A * (i / A + 1) ≤ A * 2 ^ (Nat.log2 (i / A) + 1) := Nat.mul_le_mul_left A Nat.lt_log2_self
    have hdiv : A * (i / A) ≤ i := Nat.mul_div_le i A
    have hmod : i < A * (i / A + 1) := Nat.lt_mul_div_succ i hA
    rw [rowOf, if_neg h]
    exact ⟨hlow.trans hdiv, hmod.trans_le hhigh⟩

/-- A place is in one row only. -/
theorem rowOf_eq (hlow : rowStart A k ≤ i) (hhigh : i < rowEnd A k) : rowOf A i = k := by
  obtain ⟨hlow', hhigh'⟩ := rowOf_spec hA i
  rcases Nat.lt_trichotomy (rowOf A i) k with hlt | heq | hgt
  · have := rowEnd_le_rowStart A hlt
    omega
  · exact heq
  · have := rowEnd_le_rowStart A hgt
    omega

theorem rowOf_le (h : i < rowEnd A k) : rowOf A i ≤ k := by
  by_contra hlt
  have := rowEnd_le_rowStart A (not_le.1 hlt)
  have := (rowOf_spec hA i).1
  omega

theorem endRow_spec (n : Nat) : n ≤ rowEnd A (endRow A n) ∧ (endRow A n ≠ 0 → rowStart A (endRow A n) < n) := by
  by_cases h : n ≤ A
  · simp [endRow, h, rowEnd]
  · have := rowOf_spec hA (n - 1)
    rw [endRow, if_neg h]
    omega

theorem endRow_eq (hhigh : n ≤ rowEnd A k) (hlow : k ≠ 0 → rowStart A k < n) : endRow A n = k := by
  by_cases h : n ≤ A
  · rw [endRow, if_pos h]
    by_contra hne
    have := hlow (fun heq => hne heq.symm)
    have := rowEnd_le_rowStart A (Nat.pos_of_ne_zero fun heq => hne heq.symm)
    simp only [rowEnd, pow_zero, mul_one] at this
    omega
  · rw [endRow, if_neg h]
    refine rowOf_eq hA ?_ (by omega)
    cases k with
    | zero => exact Nat.zero_le _
    | succ k =>
      omega

theorem rowStart_endRow_le (n : Nat) : rowStart A (endRow A n) ≤ n := by
  have := (endRow_spec hA n).2
  by_cases h : endRow A n = 0
  · rw [h]
    exact Nat.zero_le _
  · exact (this h).le

theorem endRow_mono (h : j ≤ n) : endRow A j ≤ endRow A n := by
  by_contra hlt
  have hend := (endRow_spec hA n).1
  have hbelow := (endRow_spec hA j).2 (by omega)
  have := rowEnd_le_rowStart A (not_le.1 hlt)
  omega

theorem rowOf_le_endRow (h : i < n) : rowOf A i ≤ endRow A n := rowOf_le hA (h.trans_le (endRow_spec hA n).1)

end

end DoublingRows
