import Mathlib

/-!
# Rounding to binary places

`round p q` is the rational `q` rounded to `p` significant binary digits, the even neighbour being taken of two equally near ones:
what an operation on floating-point numbers gives as long as exponents have no bounds. A number with at most `p` digits is left
alone, no such number is passed by rounding, and the error is at most `2⁻ᵖ` of the number.
-/

namespace BinaryRound

/-- The nearest integer, the even one of two. -/
def roundEven (q : ℚ) : ℤ :=
  if q - ⌊q⌋ < 1 / 2 ∨ q - ⌊q⌋ = 1 / 2 ∧ ⌊q⌋ % 2 = 0 then ⌊q⌋ else ⌊q⌋ + 1

/-- The place of the last of `p` significant binary digits. -/
def ulp (p : ℕ) (q : ℚ) : ℚ := 2 ^ (Int.log 2 q - p + 1)

/-- A positive number rounded to `p` significant binary digits. -/
def roundPos (p : ℕ) (q : ℚ) : ℚ := roundEven (q / ulp p q) * ulp p q

/-- A number rounded to `p` significant binary digits. -/
def round (p : ℕ) (q : ℚ) : ℚ := if q < 0 then -roundPos p (-q) else roundPos p q

theorem ulp_pos (p : ℕ) (q : ℚ) : 0 < ulp p q := by
  unfold ulp
  positivity

/-! ## The nearest integer -/

theorem roundEven_intCast (n : ℤ) : roundEven n = n := by
  unfold roundEven
  rw [if_pos]
  · exact Int.floor_intCast n
  · left
    norm_num

theorem floor_le_roundEven (q : ℚ) : ⌊q⌋ ≤ roundEven q := by
  unfold roundEven
  split <;> omega

theorem abs_roundEven_sub (q : ℚ) : |(roundEven q : ℚ) - q| ≤ 1 / 2 := by
  have h0 := Int.floor_le q
  have h1 := Int.lt_floor_add_one q
  unfold roundEven
  rw [abs_le]
  split
  · next h =>
    have : q - ⌊q⌋ ≤ 1 / 2 := by
      rcases h with h | h
      · exact h.le
      · exact h.1.le
    constructor <;> linarith
  · next h =>
    have : 1 / 2 ≤ q - ⌊q⌋ := by
      by_contra hlt
      exact h (Or.inl (lt_of_not_ge hlt))
    push_cast
    constructor <;> linarith

/-! ## Positive numbers -/

/-- In units of the last place a positive number has `p` binary digits. -/
theorem div_ulp_bounds {p : ℕ} {q : ℚ} (hq : 0 < q) : (2 : ℚ) ^ ((p : ℤ) - 1) ≤ q / ulp p q ∧ q / ulp p q < 2 ^ (p : ℤ) := by
  have hlo := Int.zpow_log_le_self (b := 2) (by norm_num) hq
  have hhi := Int.lt_zpow_succ_log_self (b := 2) (by norm_num) q
  have hu := ulp_pos p q
  have h1 : (2 : ℚ) ^ ((p : ℤ) - 1) * ulp p q = 2 ^ Int.log 2 q := by
    unfold ulp
    rw [← zpow_add₀ (by norm_num)]
    congr 1
    ring
  have h2 : (2 : ℚ) ^ (p : ℤ) * ulp p q = 2 ^ (Int.log 2 q + 1) := by
    unfold ulp
    rw [← zpow_add₀ (by norm_num)]
    congr 1
    ring
  rw [le_div_iff₀ hu, div_lt_iff₀ hu, h1, h2]
  exact ⟨hlo, hhi⟩

/-- The error of rounding. -/
theorem abs_roundPos_sub (p : ℕ) {q : ℚ} (hq : 0 < q) : |roundPos p q - q| ≤ q / 2 ^ p := by
  have hu := ulp_pos p q
  have hlo := (div_ulp_bounds (p := p) hq).1
  have herr := abs_roundEven_sub (q / ulp p q)
  have hsub : roundPos p q - q = (roundEven (q / ulp p q) - q / ulp p q) * ulp p q := by
    unfold roundPos
    field_simp
  have hulp : ulp p q ≤ 2 * (q / 2 ^ p) := by
    rw [le_div_iff₀ hu, zpow_sub_one₀ (by norm_num), zpow_natCast] at hlo
    rw [mul_div_assoc', le_div_iff₀ (by positivity)]
    linarith
  rw [hsub, abs_mul, abs_of_pos hu]
  calc |(roundEven (q / ulp p q) : ℚ) - q / ulp p q| * ulp p q ≤ 1 / 2 * ulp p q := mul_le_mul_of_nonneg_right herr hu.le
    _ ≤ 1 / 2 * (2 * (q / 2 ^ p)) := by linarith
    _ = q / 2 ^ p := by ring

/-- Rounding does not pass a number of at most `p` digits. -/
theorem le_roundPos {p : ℕ} {m k : ℤ} {q : ℚ} (hm : m < 2 ^ p) (hpos : 0 < (m : ℚ) * 2 ^ k) (h : (m : ℚ) * 2 ^ k ≤ q) :
    (m : ℚ) * 2 ^ k ≤ roundPos p q := by
  have hq : 0 < q := lt_of_lt_of_le hpos h
  have hu := ulp_pos p q
  have hfloor : ((⌊q / ulp p q⌋ : ℤ) : ℚ) * ulp p q ≤ roundPos p q := by
    exact mul_le_mul_of_nonneg_right (by exact_mod_cast floor_le_roundEven _) hu.le
  refine le_trans ?_ hfloor
  rw [← div_le_iff₀ hu]
  -- the number is a multiple of the last place of `q`, or lies below its leading digit
  rcases le_or_gt (Int.log 2 q - p + 1) k with hk | hk
  · have hint : (m : ℚ) * 2 ^ k / ulp p q = ((m * 2 ^ (k - (Int.log 2 q - p + 1)).toNat : ℤ) : ℚ) := by
      have hexp : (k : ℤ) = ((k - (Int.log 2 q - p + 1)).toNat : ℤ) + (Int.log 2 q - p + 1) := by omega
      unfold ulp
      rw [div_eq_iff (by positivity)]
      conv_lhs => rw [hexp]
      rw [zpow_add₀ (by norm_num), zpow_natCast]
      push_cast
      ring
    have hle := Int.le_floor.mpr (hint ▸ div_le_div_of_nonneg_right h hu.le)
    rw [hint]
    exact Int.cast_le.mpr hle
  · have hlead : (2 : ℚ) ^ (Int.log 2 q) ≤ q := by
      have := Int.zpow_log_le_self (b := 2) (by norm_num) hq
      exact_mod_cast this
    have hmq : (m : ℚ) < 2 ^ p := by exact_mod_cast hm
    have hp : 1 ≤ p := by
      by_contra h0
      have hp0 : p = 0 := by omega
      have hmpos : (0 : ℚ) < m := pos_of_mul_pos_left hpos (by positivity)
      have : (0 : ℤ) < m := by exact_mod_cast hmpos
      rw [hp0] at hm
      omega
    have hcut : (m : ℚ) * 2 ^ k ≤ 2 ^ Int.log 2 q := by
      calc (m : ℚ) * 2 ^ k ≤ 2 ^ p * 2 ^ (Int.log 2 q - p) := by
            apply mul_le_mul hmq.le _ (by positivity) (by positivity)
            exact zpow_le_zpow_right₀ (by norm_num) (by omega)
        _ = 2 ^ Int.log 2 q := by
            rw [← zpow_natCast, ← zpow_add₀ (by norm_num)]
            congr 1
            ring
    have htop : (2 : ℚ) ^ Int.log 2 q / ulp p q = ((2 ^ (p - 1) : ℤ) : ℚ) := by
      unfold ulp
      rw [← zpow_sub₀ (by norm_num)]
      push_cast
      rw [← zpow_natCast]
      congr 1
      omega
    have hle := Int.le_floor.mpr (htop ▸ div_le_div_of_nonneg_right hlead hu.le)
    calc (m : ℚ) * 2 ^ k / ulp p q ≤ 2 ^ Int.log 2 q / ulp p q := div_le_div_of_nonneg_right hcut hu.le
      _ = ((2 ^ (p - 1) : ℤ) : ℚ) := htop
      _ ≤ _ := Int.cast_le.mpr hle

/-- A positive number of at most `p` digits is left alone. -/
theorem roundPos_eq {p : ℕ} {m k : ℤ} {q : ℚ} (hm : m < 2 ^ p) (hpos : 0 < q) (h : q = (m : ℚ) * 2 ^ k) : roundPos p q = q := by
  have hu := ulp_pos p q
  have hlo := le_roundPos hm (h ▸ hpos) h.ge
  rw [← h] at hlo
  apply le_antisymm _ hlo
  -- `q` is a whole number of last places: between it and the rounding the nearest integer is `q` itself
  have hfloor : ((⌊q / ulp p q⌋ : ℤ) : ℚ) = q / ulp p q := by
    rcases le_or_gt (Int.log 2 q - p + 1) k with hk | hk
    · have hexp : (k : ℤ) = ((k - (Int.log 2 q - p + 1)).toNat : ℤ) + (Int.log 2 q - p + 1) := by omega
      have hint : q / ulp p q = ((m * 2 ^ (k - (Int.log 2 q - p + 1)).toNat : ℤ) : ℚ) := by
        unfold ulp
        rw [div_eq_iff (by positivity)]
        conv_lhs => rw [h, hexp]
        rw [zpow_add₀ (by norm_num), zpow_natCast]
        push_cast
        ring
      rw [hint, Int.floor_intCast]
    · exfalso
      have hlead : (2 : ℚ) ^ (Int.log 2 q) ≤ q := by
        have := Int.zpow_log_le_self (b := 2) (by norm_num) hpos
        exact_mod_cast this
      have hmq : (m : ℚ) < 2 ^ p := by exact_mod_cast hm
      have : q < 2 ^ Int.log 2 q := by
        calc q = (m : ℚ) * 2 ^ k := h
          _ < 2 ^ p * 2 ^ k := mul_lt_mul_of_pos_right hmq (by positivity)
          _ ≤ 2 ^ p * 2 ^ (Int.log 2 q - p) := mul_le_mul_of_nonneg_left (zpow_le_zpow_right₀ (by norm_num) (by omega)) (by positivity)
          _ = 2 ^ Int.log 2 q := by
            rw [← zpow_natCast, ← zpow_add₀ (by norm_num)]
            congr 1
            ring
      linarith
  unfold roundPos
  rw [← hfloor, roundEven_intCast, hfloor, div_mul_cancel₀ _ hu.ne']

theorem roundPos_zero (p : ℕ) : roundPos p 0 = 0 := by
  have h := roundEven_intCast 0
  rw [Int.cast_zero] at h
  unfold roundPos
  rw [zero_div, h]
  simp

/-! ## All numbers -/

theorem round_of_nonneg (p : ℕ) {q : ℚ} (h : 0 ≤ q) : round p q = roundPos p q := if_neg h.not_gt

theorem round_neg (p : ℕ) (q : ℚ) : round p (-q) = -round p q := by
  unfold round
  rcases lt_trichotomy q 0 with h | rfl | h
  · rw [if_neg (by linarith), if_pos h, neg_neg]
  · simp [roundPos_zero]
  · rw [if_pos (by linarith), if_neg (by linarith), neg_neg]

/-- An integer of at most `p` digits is left alone. -/
theorem round_intCast {p : ℕ} {n : ℤ} (h : |n| < 2 ^ p) : round p (n : ℚ) = n := by
  have hpos : ∀ m : ℤ, 0 < m → m < 2 ^ p → round p (m : ℚ) = m := by
    intro m hm hlt
    have hm' : (0 : ℚ) < m := by exact_mod_cast hm
    rw [round_of_nonneg p hm'.le]
    exact roundPos_eq (k := 0) hlt hm' (by simp)
  rcases lt_trichotomy n 0 with hn | rfl | hn
  · have := hpos (-n) (by omega) (by rw [abs_of_neg hn] at h; exact h)
    push_cast at this
    rw [round_neg] at this
    linarith
  · rw [Int.cast_zero, round_of_nonneg p le_rfl, roundPos_zero]
  · exact hpos n hn (by rw [abs_of_pos hn] at h; exact h)

/-- Rounding does not pass an integer of at most `p` digits. -/
theorem le_round {p : ℕ} {n : ℤ} {q : ℚ} (hn : n < 2 ^ p) (hpos : 0 ≤ n) (h : (n : ℚ) ≤ q) : (n : ℚ) ≤ round p q := by
  have hq : 0 ≤ q := le_trans (by exact_mod_cast hpos) h
  rw [round_of_nonneg p hq]
  rcases hpos.eq_or_lt with rfl | hpos
  · rcases hq.eq_or_lt with rfl | hq
    · rw [roundPos_zero, Int.cast_zero]
    · have hu := ulp_pos p q
      apply mul_nonneg _ hu.le
      have : 0 ≤ ⌊q / ulp p q⌋ := Int.floor_nonneg.mpr (by positivity)
      exact_mod_cast le_trans this (floor_le_roundEven _)
  · have := le_roundPos (k := 0) hn (by simpa using hpos) (by simpa using h)
    simpa using this

/-- A quotient of small integers keeps its integer part when it is rounded. -/
theorem floor_round_div {p : ℕ} {a b : ℤ} (ha : 0 ≤ a) (hap : a < 2 ^ p) (hb : 0 < b) : ⌊round p ((a : ℚ) / b)⌋ = a / b := by
  have hbq : (0 : ℚ) < b := by exact_mod_cast hb
  have hn : a / b * b + a % b = a := Int.ediv_mul_add_emod a b
  have hn0 : 0 ≤ a / b := Int.ediv_nonneg ha hb.le
  have hlt : a % b < b := Int.emod_lt_of_pos a hb
  have hge : 0 ≤ a % b := Int.emod_nonneg a hb.ne'
  have hap' : (a : ℚ) < 2 ^ p := by exact_mod_cast hap
  have hnle : a / b ≤ a := Int.ediv_le_self b ha
  have haq : (a : ℚ) = (a / b : ℤ) * b + (a % b : ℤ) := by exact_mod_cast hn.symm
  have hx : (a : ℚ) / b = (a / b : ℤ) + (a % b : ℤ) / b := by
    rw [haq]
    field_simp
  rw [Int.floor_eq_iff]
  constructor
  · apply le_round (by omega) hn0
    have : (0 : ℚ) ≤ (a % b : ℤ) := by exact_mod_cast hge
    linarith [div_nonneg this hbq.le]
  · rcases ha.eq_or_lt with rfl | ha
    · simp [round_of_nonneg, roundPos_zero]
    · have haq' : (0 : ℚ) < a := by exact_mod_cast ha
      have hpos : (0 : ℚ) < (a : ℚ) / b := div_pos haq' hbq
      have herr := abs_roundPos_sub p hpos
      rw [round_of_nonneg p hpos.le]
      have h1 : (a : ℚ) / b / 2 ^ p < 1 / b := by
        rw [div_div, div_lt_div_iff₀ (by positivity) hbq, one_mul, mul_comm]
        exact mul_lt_mul_of_pos_left hap' hbq
      have h2 : ((a % b : ℤ) : ℚ) / b + 1 / b ≤ 1 := by
        rw [← add_div, div_le_one hbq]
        exact_mod_cast hlt
      have h3 := (abs_le.mp herr).2
      linarith

/-- The integer part of a quotient stays where it is, and the fraction is rounded to the places that the integer part leaves. -/
theorem round_div_fraction {p s : ℕ} {a b : ℤ} (hb : 0 < b) (hab : b ≤ a) (hs : (s : ℤ) = p - 1 - Int.log 2 ((a : ℚ) / b)) :
    ∃ K : ℤ, round p ((a : ℚ) / b) = (a / b : ℤ) + K / 2 ^ s ∧ |(K : ℚ) - (a % b : ℤ) / b * 2 ^ s| ≤ 1 / 2 := by
  have hbq : (0 : ℚ) < b := by exact_mod_cast hb
  have haq : (0 : ℚ) < a := by exact_mod_cast lt_of_lt_of_le hb hab
  have hpos : (0 : ℚ) < (a : ℚ) / b := div_pos haq hbq
  have hulp : ulp p ((a : ℚ) / b) = 1 / 2 ^ s := by
    unfold ulp
    rw [show Int.log 2 ((a : ℚ) / b) - p + 1 = -(s : ℤ) by omega, zpow_neg, zpow_natCast, one_div]
  have hsplit : (a : ℚ) / b = (a / b : ℤ) + (a % b : ℤ) / b := by
    have : (a : ℚ) = (a / b : ℤ) * b + (a % b : ℤ) := by exact_mod_cast (Int.ediv_mul_add_emod a b).symm
    conv_lhs => rw [this]
    field_simp
  have herr := abs_roundEven_sub ((a : ℚ) / b / ulp p ((a : ℚ) / b))
  refine ⟨roundEven ((a : ℚ) / b / ulp p ((a : ℚ) / b)) - a / b * 2 ^ s, ?_, ?_⟩
  · rw [round_of_nonneg p hpos.le]
    unfold roundPos
    generalize roundEven ((a : ℚ) / b / ulp p ((a : ℚ) / b)) = k
    rw [hulp]
    push_cast
    field_simp
    ring
  · generalize roundEven ((a : ℚ) / b / ulp p ((a : ℚ) / b)) = k at herr ⊢
    rw [hulp, hsplit] at herr
    convert herr using 2
    push_cast
    field_simp
    ring

end BinaryRound
