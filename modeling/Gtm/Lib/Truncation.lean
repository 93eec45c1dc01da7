import Mathlib

/-!
# Truncation to significant digits

The exponent of a rational is that of its leading digit in base `B`, counted so that the fraction `0.d₁d₂…` times the power has the
value. `truncTo g` cuts a rational toward zero to a multiple of `g`, and `truncSig n` to its `n` leading digits. A number is given
as a sign, an integer mantissa and an exponent wherever a routine computes it, and the lemmas say what its truncations are there.
-/

namespace Truncation

/-- The exponent `e` of a number with `B ^ (e - 1) ≤ |q| < B ^ e`. -/
def expOf (B : ℕ) (q : ℚ) : ℤ := Int.log B |q| + 1

/-- The number cut toward zero to a multiple of `g`. -/
def truncTo (g q : ℚ) : ℚ := if q < 0 then -(⌊-q / g⌋ * g) else ⌊q / g⌋ * g

/-- The number cut toward zero to its `n` leading digits in base `B`. -/
def truncSig (B n : ℕ) (q : ℚ) : ℚ := truncTo ((B : ℚ) ^ (expOf B q - n)) q

/-- The sum of two numbers of `n` digits, each first cut to the places of the larger exponent, with `n` digits left of it. -/
def alignedSum (B n : ℕ) (a b : ℚ) : ℚ :=
  if a = 0 then b
  else if b = 0 then a
  else truncSig B n (truncTo ((B : ℚ) ^ (max (expOf B a) (expOf B b) - n)) a + truncTo ((B : ℚ) ^ (max (expOf B a) (expOf B b) - n)) b)

/-- A number with a sign. -/
def signed (neg : Bool) (q : ℚ) : ℚ := if neg then -q else q

@[simp] theorem signed_false (q : ℚ) : signed false q = q := rfl

@[simp] theorem signed_true (q : ℚ) : signed true q = -q := rfl

@[simp] theorem abs_signed (neg : Bool) (q : ℚ) : |signed neg q| = |q| := by cases neg <;> simp [signed]

theorem neg_signed (neg : Bool) (q : ℚ) : -signed neg q = signed (!neg) q := by cases neg <;> simp [signed]

theorem signed_mul (a b : Bool) (p q : ℚ) : signed a p * signed b q = signed (a ^^ b) (p * q) := by
  cases a <;> cases b <;> simp [signed]

theorem signed_div (a b : Bool) (p q : ℚ) : signed a p / signed b q = signed (a ^^ b) (p / q) := by
  cases a <;> cases b <;> simp [signed, neg_div, div_neg]

theorem signed_div_right (neg : Bool) (x c : ℚ) : signed neg x / c = signed neg (x / c) := by
  cases neg <;> simp [neg_div]

theorem signed_eq_zero {neg : Bool} {q : ℚ} : signed neg q = 0 ↔ q = 0 := by cases neg <;> simp [signed]

/-! ## Exponents -/

section Exponent

variable {B : ℕ} (hB : 1 < B)
include hB

variable {q : ℚ}

theorem expOf_le (hq : q ≠ 0) : (B : ℚ) ^ (expOf B q - 1) ≤ |q| ∧ |q| < (B : ℚ) ^ expOf B q := by
  unfold expOf
  rw [add_sub_cancel_right]
  exact ⟨Int.zpow_log_le_self hB (abs_pos.mpr hq), Int.lt_zpow_succ_log_self hB |q|⟩

/-- The exponent is determined by the powers the number lies between. -/
theorem expOf_eq {e : ℤ} (hlo : (B : ℚ) ^ (e - 1) ≤ |q|) (hhi : |q| < (B : ℚ) ^ e) : expOf B q = e := by
  have hBq : (1 : ℚ) < B := by exact_mod_cast hB
  have hq : q ≠ 0 := by
    rintro rfl
    exact absurd hlo (not_le.mpr (by positivity))
  obtain ⟨h1, h2⟩ := expOf_le hB hq
  have h3 := (zpow_lt_zpow_iff_right₀ hBq).mp (lt_of_le_of_lt h1 hhi)
  have h4 := (zpow_lt_zpow_iff_right₀ hBq).mp (lt_of_le_of_lt hlo h2)
  omega

/-- The exponent of a mantissa of `n` digits, cut to an integer. -/
theorem expOf_mantissa {n : ℕ} {N e : ℤ} (hlo : (B : ℤ) ^ n ≤ B * N) (hhi : N < (B : ℤ) ^ n)
    (h1 : (N : ℚ) * (B : ℚ) ^ (e - n) ≤ |q|) (h2 : |q| < ((N : ℚ) + 1) * (B : ℚ) ^ (e - n)) : expOf B q = e := by
  have hBq : (0 : ℚ) < B := by exact_mod_cast lt_trans one_pos hB
  have hp : (0 : ℚ) < (B : ℚ) ^ (e - n) := by positivity
  have hlo' : (B : ℚ) ^ n ≤ B * N := by exact_mod_cast hlo
  have hhi' : (N : ℚ) + 1 ≤ (B : ℚ) ^ n := by exact_mod_cast hhi
  have hsplit : (B : ℚ) ^ e = (B : ℚ) ^ n * (B : ℚ) ^ (e - n) := by
    rw [← zpow_natCast, ← zpow_add₀ hBq.ne']
    congr 1
    ring
  apply expOf_eq hB
  · rw [zpow_sub_one₀ hBq.ne', hsplit, ← div_eq_mul_inv, div_le_iff₀ hBq]
    calc (B : ℚ) ^ n * (B : ℚ) ^ (e - n) ≤ B * N * (B : ℚ) ^ (e - n) := mul_le_mul_of_nonneg_right hlo' hp.le
      _ = N * (B : ℚ) ^ (e - n) * B := by ring
      _ ≤ |q| * B := mul_le_mul_of_nonneg_right h1 hBq.le
  · rw [hsplit]
    exact lt_of_lt_of_le h2 (mul_le_mul_of_nonneg_right hhi' hp.le)

end Exponent

/-! ## Cutting to a grid -/

variable {g q : ℚ} {N : ℤ}

theorem truncTo_signed (hg : 0 < g) (neg : Bool) (hq : 0 ≤ q) : truncTo g (signed neg q) = signed neg (⌊q / g⌋ * g) := by
  unfold truncTo
  cases neg with
  | false => rw [signed_false, signed_false, if_neg hq.not_gt]
  | true =>
    rw [signed_true, signed_true]
    rcases hq.eq_or_lt with rfl | hpos
    · simp
    · rw [if_pos (by linarith), neg_neg]

/-- The multiple of the grid below a number is found by comparison. -/
theorem floor_div_eq (hg : 0 < g) (h1 : (N : ℚ) * g ≤ q) (h2 : q < ((N : ℚ) + 1) * g) : ⌊q / g⌋ = N := by
  rw [Int.floor_eq_iff, le_div_iff₀ hg, div_lt_iff₀ hg]
  exact ⟨h1, h2⟩

theorem truncTo_eq (hg : 0 < g) (neg : Bool) (hN : 0 ≤ N) (h1 : (N : ℚ) * g ≤ q)
    (h2 : q < ((N : ℚ) + 1) * g) : truncTo g (signed neg q) = signed neg (N * g) := by
  have hq : 0 ≤ q := le_trans (mul_nonneg (by exact_mod_cast hN) hg.le) h1
  rw [truncTo_signed hg neg hq, floor_div_eq hg h1 h2]

/-- The integer quotient of two integers in units of `g`. -/
theorem floor_bounds {P D : ℤ} (hD : 0 < D) (hg : 0 < g) :
    ((P / D : ℤ) : ℚ) * g ≤ (P : ℚ) / D * g ∧ (P : ℚ) / D * g < (((P / D : ℤ) : ℚ) + 1) * g := by
  have hDq : (0 : ℚ) < D := by exact_mod_cast hD
  constructor
  · apply mul_le_mul_of_nonneg_right _ hg.le
    rw [le_div_iff₀ hDq]
    exact_mod_cast Int.ediv_mul_le P hD.ne'
  · apply mul_lt_mul_of_pos_right _ hg
    rw [div_lt_iff₀ hDq]
    exact_mod_cast Int.lt_ediv_add_one_mul_self P hD

/-- A quotient in units of the grid is cut to the integer quotient. -/
theorem truncTo_quotient {P D : ℤ} (hP : 0 ≤ P) (hD : 0 < D) (hg : 0 < g) (neg : Bool) :
    truncTo g (signed neg ((P : ℚ) / D * g)) = signed neg ((P / D : ℤ) * g) := by
  obtain ⟨h1, h2⟩ := floor_bounds hD hg
  exact truncTo_eq hg neg (Int.ediv_nonneg hP hD.le) h1 h2

/-- A multiple of the grid is left alone. -/
theorem truncTo_of_grid (hg : 0 < g) (h : q = N * g) : truncTo g q = q := by
  unfold truncTo
  split
  · have hneg : -q / g = ((-N : ℤ) : ℚ) := by
      rw [h]
      push_cast
      field_simp
    rw [hneg, Int.floor_intCast, h]
    push_cast
    ring
  · rw [h, mul_div_cancel_right₀ _ hg.ne', Int.floor_intCast]

theorem truncTo_zero (g : ℚ) : truncTo g 0 = 0 := by simp [truncTo]

/-- A number below the grid is cut to zero. -/
theorem truncTo_eq_zero (hg : 0 < g) (h : |q| < g) : truncTo g q = 0 := by
  have hfloor : ∀ x : ℚ, 0 ≤ x → x < g → ⌊x / g⌋ = 0 := fun x h0 hx => floor_div_eq hg (by simpa using h0) (by simpa using hx)
  obtain ⟨h1, h2⟩ := abs_lt.mp h
  unfold truncTo
  split
  · next hneg => rw [hfloor _ (by linarith) (by linarith)]; simp
  · next hneg => rw [hfloor _ (by linarith) h2]; simp

/-- What is cut off is less than a unit of the grid. -/
theorem truncTo_bounds (hg : 0 < g) (q : ℚ) : |truncTo g q| ≤ |q| ∧ |q| < |truncTo g q| + g := by
  have hfloor : ∀ x : ℚ, 0 ≤ x → (⌊x / g⌋ : ℚ) * g ≤ x ∧ x < ⌊x / g⌋ * g + g ∧ 0 ≤ (⌊x / g⌋ : ℚ) * g := by
    intro x hx
    have h1 := Int.floor_le (x / g)
    have h2 := Int.lt_floor_add_one (x / g)
    have h3 : 0 ≤ ⌊x / g⌋ := Int.floor_nonneg.mpr (by positivity)
    rw [le_div_iff₀ hg] at h1
    rw [div_lt_iff₀ hg] at h2
    exact ⟨h1, by linarith, mul_nonneg (by exact_mod_cast h3) hg.le⟩
  unfold truncTo
  split
  · next hneg =>
    obtain ⟨h1, h2, h3⟩ := hfloor (-q) (by linarith)
    rw [abs_neg, abs_of_nonneg h3, abs_of_neg hneg]
    exact ⟨h1, h2⟩
  · next hneg =>
    obtain ⟨h1, h2, h3⟩ := hfloor q (not_lt.mp hneg)
    rw [abs_of_nonneg h3, abs_of_nonneg (not_lt.mp hneg)]
    exact ⟨h1, h2⟩

/-! ## Cutting to leading digits -/

theorem truncSig_zero (B n : ℕ) : truncSig B n 0 = 0 := truncTo_zero _

section Significant

variable {B : ℕ} (hB : 1 < B)
include hB

variable {N e : ℤ} {n : ℕ} {q : ℚ}

/-- A mantissa of `n` digits that was cut to an integer holds the leading digits. -/
theorem truncSig_eq (neg : Bool) (hlo : (B : ℤ) ^ n ≤ B * N) (hhi : N < (B : ℤ) ^ n)
    (h1 : (N : ℚ) * (B : ℚ) ^ (e - n) ≤ q) (h2 : q < ((N : ℚ) + 1) * (B : ℚ) ^ (e - n)) :
    expOf B (signed neg q) = e ∧ truncSig B n (signed neg q) = signed neg (N * (B : ℚ) ^ (e - n)) := by
  have hp : (0 : ℚ) < (B : ℚ) ^ (e - n) := by positivity
  have hN : 0 ≤ N := by
    by_contra hneg
    have : (B : ℤ) * N ≤ 0 := mul_nonpos_of_nonneg_of_nonpos (by positivity) (by omega)
    have : (0 : ℤ) < (B : ℤ) ^ n := by positivity
    omega
  have hq : 0 ≤ q := le_trans (mul_nonneg (by exact_mod_cast hN) hp.le) h1
  have hexp : expOf B (signed neg q) = e := by
    apply expOf_mantissa hB hlo hhi <;> rwa [abs_signed, abs_of_nonneg hq]
  refine ⟨hexp, ?_⟩
  unfold truncSig
  rw [hexp]
  exact truncTo_eq hp neg hN h1 h2

/-- A number of at most `n` digits is left alone. -/
theorem truncSig_of_mantissa (neg : Bool) (hlo : (B : ℤ) ^ n ≤ B * N) (hhi : N < (B : ℤ) ^ n) :
    expOf B (signed neg (N * (B : ℚ) ^ (e - n))) = e ∧
      truncSig B n (signed neg (N * (B : ℚ) ^ (e - n))) = signed neg (N * (B : ℚ) ^ (e - n)) := by
  have hp : (0 : ℚ) < (B : ℚ) ^ (e - n) := by positivity
  exact truncSig_eq hB neg hlo hhi le_rfl (by linarith)

/-- A number without digits behind the leading ones is left alone. -/
theorem truncSig_of_multiple {j : ℤ} (h : q = N * (B : ℚ) ^ j) (hj : expOf B q - n ≤ j) : truncSig B n q = q := by
  have hBq : (0 : ℚ) < B := by exact_mod_cast lt_trans one_pos hB
  apply truncTo_of_grid (N := N * (B : ℤ) ^ (j - (expOf B q - n)).toNat) (by positivity)
  have hsplit : (B : ℚ) ^ j = (B : ℚ) ^ (j - (expOf B q - n)).toNat * (B : ℚ) ^ (expOf B q - n) := by
    rw [← zpow_natCast, ← zpow_add₀ hBq.ne']
    congr 1
    omega
  conv_lhs => rw [h, hsplit]
  push_cast
  ring

/-- An upper bound of the exponent. -/
theorem expOf_le_of_lt (hq : q ≠ 0) (h : |q| < (B : ℚ) ^ e) : expOf B q ≤ e := by
  have hBq : (1 : ℚ) < B := by exact_mod_cast hB
  have := (zpow_lt_zpow_iff_right₀ hBq).mp (lt_of_le_of_lt (expOf_le hB hq).1 h)
  omega

/-- A lower bound of the exponent. -/
theorem lt_expOf_of_le (hq : q ≠ 0) (h : (B : ℚ) ^ e ≤ |q|) : e < expOf B q := by
  have hBq : (1 : ℚ) < B := by exact_mod_cast hB
  exact (zpow_lt_zpow_iff_right₀ hBq).mp (lt_of_le_of_lt h (expOf_le hB hq).2)

/-- What cutting to `n` digits leaves, as a part of the number. -/
theorem truncSig_bounds (n : ℕ) (hq : q ≠ 0) :
    |truncSig B n q| ≤ |q| ∧ |q| < |truncSig B n q| + |q| * (B : ℚ) ^ (1 - (n : ℤ)) := by
  have hBq : (0 : ℚ) < B := by exact_mod_cast lt_trans one_pos hB
  obtain ⟨h1, h2⟩ := truncTo_bounds (g := (B : ℚ) ^ (expOf B q - n)) (by positivity) q
  refine ⟨h1, lt_of_lt_of_le h2 ?_⟩
  have hlo := (expOf_le hB hq).1
  have hsplit : (B : ℚ) ^ (expOf B q - n) = (B : ℚ) ^ (expOf B q - 1) * (B : ℚ) ^ (1 - (n : ℤ)) := by
    rw [← zpow_add₀ hBq.ne']
    congr 1
    ring
  have := mul_le_mul_of_nonneg_right hlo (zpow_pos hBq (1 - (n : ℤ))).le
  change |truncSig B n q| + (B : ℚ) ^ (expOf B q - n) ≤ _
  linarith

end Significant

end Truncation
