import Mathlib

/-!
# Numbers with a fixed number of digits

The last digits of a number, the first digits of a word of digits with zeros behind it, and rounding to the nearest number.
-/

namespace FixedPoint

variable {B L : ℕ}

/-- The last `k` digits of a number. -/
def lastDigits (B : ℕ) : ℕ → ℕ → List ℕ
  | 0, _ => []
  | k + 1, n => lastDigits B k (n / B) ++ [n % B]

/-- The first `k` digits of a word of `L + 1` digits, with zeros behind its last one. -/
def firstDigits (B L : ℕ) : ℕ → ℕ → List ℕ
  | 0, _ => []
  | k + 1, n => n / B ^ L :: firstDigits B L k (n % B ^ L * B)

theorem lastDigits_length (B k n : ℕ) : (lastDigits B k n).length = k := by
  induction k generalizing n with
  | zero => rfl
  | succ k ih => rw [lastDigits, List.length_append, ih, List.length_singleton]

theorem lastDigits_lt (hB : 0 < B) (k n : ℕ) : ∀ d ∈ lastDigits B k n, d < B := by
  induction k generalizing n with
  | zero => exact fun d hd => nomatch hd
  | succ k ih =>
    intro d hd
    rcases List.mem_append.1 hd with hd | hd
    · exact ih _ d hd
    · rw [List.mem_singleton.1 hd]
      exact Nat.mod_lt _ hB

theorem lastDigits_zero (B k : ℕ) : lastDigits B k 0 = List.replicate k 0 := by
  induction k with
  | zero => rfl
  | succ k ih => rw [lastDigits, Nat.zero_div, Nat.zero_mod, ih, ← List.replicate_succ']

/-- The digits of a number apart. -/
theorem lastDigits_add (B j k n : ℕ) : lastDigits B (j + k) n = lastDigits B j (n / B ^ k) ++ lastDigits B k n := by
  induction k generalizing n with
  | zero => rw [Nat.add_zero, Nat.pow_zero, Nat.div_one, lastDigits, List.append_nil]
  | succ k ih => rw [← Nat.add_assoc, lastDigits, lastDigits, ih, Nat.div_div_eq_div_mul, ← Nat.pow_succ', List.append_assoc]

theorem lastDigits_succ (B k n : ℕ) : lastDigits B (k + 1) n = n / B ^ k % B :: lastDigits B k n := by
  rw [Nat.add_comm k 1, lastDigits_add]
  rfl

/-- What is before the last digits does not matter. -/
theorem lastDigits_add_mul (hB : 0 < B) (k n q : ℕ) : lastDigits B k (n + q * B ^ k) = lastDigits B k n := by
  induction k generalizing n with
  | zero => rfl
  | succ k ih =>
    have hdiv : (n + q * B ^ (k + 1)) / B = n / B + q * B ^ k := by
      rw [Nat.pow_succ, ← Nat.mul_assoc, Nat.add_mul_div_right _ _ hB]
    have hmod : (n + q * B ^ (k + 1)) % B = n % B := by rw [Nat.pow_succ, ← Nat.mul_assoc, Nat.add_mul_mod_self_right]
    rw [lastDigits, lastDigits, hdiv, hmod, ih]

/-- The first digits of a word are those of the number that it begins. -/
theorem firstDigits_eq (hB : 0 < B) (k : ℕ) {n : ℕ} (hn : n < B ^ (L + 1)) :
    firstDigits B L k n = lastDigits B k (n * B ^ k / B ^ (L + 1)) := by
  induction k generalizing n with
  | zero => rfl
  | succ k ih =>
    have hpow : 0 < B ^ (L + 1) := Nat.pow_pos hB
    have hpowL : 0 < B ^ L := Nat.pow_pos hB
    have hrest : n % B ^ L * B < B ^ (L + 1) := by
      exact Nat.mul_lt_mul_of_pos_right (Nat.mod_lt n hpowL) hB
    have hsplit : n * B ^ (k + 1) = n % B ^ L * B * B ^ k + n / B ^ L * B ^ k * B ^ (L + 1) := by
      calc n * B ^ (k + 1) = (n % B ^ L + B ^ L * (n / B ^ L)) * B ^ (k + 1) := by rw [Nat.mod_add_div]
        _ = _ := by ring
    have hdiv : n * B ^ (k + 1) / B ^ (L + 1) = n % B ^ L * B * B ^ k / B ^ (L + 1) + n / B ^ L * B ^ k := by
      rw [hsplit, Nat.add_mul_div_right _ _ hpow]
    have hlow : n % B ^ L * B * B ^ k / B ^ (L + 1) < B ^ k := by
      rw [Nat.div_lt_iff_lt_mul hpow, Nat.mul_comm (B ^ k)]
      exact Nat.mul_lt_mul_of_pos_right hrest (Nat.pow_pos hB)
    have hhead : n * B ^ (k + 1) / B ^ (L + 1) / B ^ k % B = n / B ^ L := by
      rw [hdiv, Nat.add_mul_div_right _ _ (Nat.pow_pos hB), Nat.div_eq_of_lt hlow, Nat.zero_add]
      exact Nat.mod_eq_of_lt (by rwa [Nat.div_lt_iff_lt_mul hpowL, Nat.mul_comm, ← Nat.pow_succ])
    rw [firstDigits, lastDigits_succ, hhead, ih hrest, hdiv, lastDigits_add_mul hB]

theorem firstDigits_zero (B L k : ℕ) : firstDigits B L k 0 = List.replicate k 0 := by
  induction k with
  | zero => rfl
  | succ k ih => rw [firstDigits, Nat.zero_div, Nat.zero_mod, Nat.zero_mul, ih, List.replicate_succ]

/-- What is left of a word after its first digits. -/
theorem rest_succ (B L k n : ℕ) : n % B ^ L * B * B ^ k % B ^ (L + 1) = n * B ^ (k + 1) % B ^ (L + 1) := by
  have hmod : n % B ^ L * B % B ^ (L + 1) = n * B % B ^ (L + 1) := by
    rw [Nat.pow_succ, Nat.mul_mod_mul_right, Nat.mul_mod_mul_right, Nat.mod_mod]
  rw [Nat.mul_mod, hmod, ← Nat.mul_mod, Nat.mul_assoc, ← Nat.pow_succ']

/-- The first digits of a word and the next ones, as the last digits of a number. -/
theorem firstDigits_split (hB : 0 < B) (j k : ℕ) {n : ℕ} (hn : n < B ^ (L + 1)) {R : ℕ} (hR : R = n * B ^ (j + k) / B ^ (L + 1)) :
    firstDigits B L j n = lastDigits B j (R / B ^ k) ∧ firstDigits B L k (n * B ^ j % B ^ (L + 1)) = lastDigits B k R := by
  have hpow : 0 < B ^ (L + 1) := Nat.pow_pos hB
  have hrest : n * B ^ j % B ^ (L + 1) < B ^ (L + 1) := Nat.mod_lt _ hpow
  have hwhole : R / B ^ k = n * B ^ j / B ^ (L + 1) := by
    rw [hR, Nat.div_div_eq_div_mul, Nat.mul_comm (B ^ (L + 1)), Nat.pow_add, ← Nat.mul_assoc, Nat.mul_comm (n * B ^ j),
      Nat.mul_div_mul_left _ _ (Nat.pow_pos hB)]
  have hsplit : n * B ^ (j + k) = n * B ^ j % B ^ (L + 1) * B ^ k + n * B ^ j / B ^ (L + 1) * B ^ k * B ^ (L + 1) := by
    calc n * B ^ (j + k) = n * B ^ j * B ^ k := by rw [Nat.pow_add, Nat.mul_assoc]
      _ = (n * B ^ j % B ^ (L + 1) + B ^ (L + 1) * (n * B ^ j / B ^ (L + 1))) * B ^ k := by rw [Nat.mod_add_div]
      _ = _ := by ring
  have hlow : R = n * B ^ j % B ^ (L + 1) * B ^ k / B ^ (L + 1) + n * B ^ j / B ^ (L + 1) * B ^ k := by
    rw [hR, hsplit, Nat.add_mul_div_right _ _ hpow]
  rw [firstDigits_eq hB j hn, hwhole]
  exact ⟨rfl, by rw [firstDigits_eq hB k hrest, hlow, lastDigits_add_mul hB]⟩

/-- All the digits of a number. -/
theorem lastDigits_digits (hB : 1 < B) {k n : ℕ} (hlow : B ^ k ≤ n) (hhigh : n < B ^ (k + 1)) :
    lastDigits B (k + 1) n = (Nat.digits B n).reverse := by
  induction k generalizing n with
  | zero =>
    rw [Nat.pow_zero] at hlow
    rw [Nat.pow_one] at hhigh
    rw [Nat.digits_of_lt B n (by omega) hhigh, lastDigits, Nat.mod_eq_of_lt hhigh]
    rfl
  | succ k ih =>
    have hpos : 0 < n := Nat.lt_of_lt_of_le (Nat.pow_pos (by omega)) hlow
    have hdlow : B ^ k ≤ n / B := (Nat.le_div_iff_mul_le (by omega)).2 (by rwa [← Nat.pow_succ])
    have hdhigh : n / B < B ^ (k + 1) := (Nat.div_lt_iff_lt_mul (by omega)).2 (by rwa [← Nat.pow_succ])
    rw [lastDigits, ih hdlow hdhigh, Nat.digits_def' hB hpos, List.reverse_cons]

/-! ## Rounding -/

/-- The absolute value, rounded to the nearest number: a half is rounded up. -/
def roundHalf (q : ℚ) : ℕ := ⌊|q| + 1 / 2⌋₊

theorem roundHalf_eq {q : ℚ} {N : ℕ} (hlow : (N : ℚ) ≤ |q| + 1 / 2) (hhigh : |q| + 1 / 2 < N + 1) : roundHalf q = N :=
  (Nat.floor_eq_iff (by positivity)).2 ⟨hlow, hhigh⟩

/-- Rounding a quotient by an even number. -/
theorem roundHalf_div {q : ℚ} {N H : ℕ} (hH : 0 < H) (hq : |q| = (N : ℚ) / (2 * H : ℕ)) : roundHalf q = (N + H) / (2 * H) := by
  have hsum : |q| + 1 / 2 = ((N + H : ℕ) : ℚ) / (2 * H : ℕ) := by
    rw [hq]
    push_cast
    field_simp
  rw [roundHalf, hsum, Nat.floor_div_eq_div]

/-- Rounding a number. -/
theorem roundHalf_natCast {q : ℚ} {N : ℕ} (hq : |q| = N) : roundHalf q = N := roundHalf_eq (by linarith) (by linarith)

/-- What is below a half is rounded to zero. -/
theorem roundHalf_eq_zero {q : ℚ} (hq : |q| < 1 / 2) : roundHalf q = 0 := by
  have habs := abs_nonneg q
  exact roundHalf_eq (by rw [Nat.cast_zero]; linarith) (by rw [Nat.cast_zero]; linarith)

end FixedPoint
