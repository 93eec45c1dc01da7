import Gtm.Lemmas.NumberPromote

/-!
# Sums and differences of mantissas

The steps of `add_mvals`: the word of an `MV_INT` moved up to its leading digit, the mantissa of the smaller exponent moved down to
the places of the larger one, and the sum or the difference of the two with its normalisation.
-/

namespace Gtm

open Limbs EbMulAux Truncation NumberRoundTripAux NumberStoreAux NumberPromoteAux

namespace NumberAddAux

/-! ## Words -/

/-- A word moved up to its leading digit. -/
theorem normWord_spec (fuel : ℕ) {m : ℤ} (n : ℕ) (hpos : 0 < m) (hlt : m < 1000000000) (hfuel : 100000000 ≤ m * 10 ^ fuel) :
    ∃ k, normWord fuel m n = (m * 10 ^ k, n + k) ∧ 100000000 ≤ m * 10 ^ k ∧ m * 10 ^ k < 1000000000 := by
  induction fuel generalizing m n with
  | zero =>
    exact ⟨0, by simp [normWord], by simpa using hfuel, by simpa using hlt⟩
  | succ fuel ih =>
    unfold normWord
    by_cases h : m < mantLo
    · rw [if_pos h]
      simp only [mantLo] at h
      obtain ⟨k, hk, h1, h2⟩ := ih (n + 1) (m := m * 10) (by omega) (by omega) (by rw [mul_assoc, ← pow_succ']; exact hfuel)
      have hmul : m * 10 * 10 ^ k = m * 10 ^ (k + 1) := by ring
      rw [hmul] at hk h1 h2
      exact ⟨k + 1, by rw [hk]; congr 1; omega, h1, h2⟩
    · rw [if_neg h]
      simp only [mantLo, not_lt] at h
      exact ⟨0, by simp, by simpa using h, by simpa using hlt⟩

/-- Nine digits leave no more than eight places free. -/
theorem shift_le {m : ℤ} {k : ℕ} (hpos : 0 < m) (h : m * 10 ^ k < 1000000000) : k ≤ 8 := by
  by_contra hgt
  have h9 : (10 : ℤ) ^ 9 ≤ 10 ^ k := pow_le_pow_right₀ (by norm_num) (by omega)
  have : (10 : ℤ) ^ k ≤ m * 10 ^ k := le_mul_of_one_le_left (by positivity) hpos
  omega

/-- The mantissa moved down by `delta` places. -/
theorem addAlign_spec {n : Mantissa} (hn : n.Words) {delta : ℕ} (h : delta < 18) :
    (addAlign delta n).Words ∧ (addAlign delta n).val = n.val / 10 ^ delta := by
  obtain ⟨h1, h1', h0, h0'⟩ := hn
  unfold addAlign
  simp only [numDecDg1l, tenPwr, Nat.cast_pow, Nat.cast_ofNat]
  by_cases hbig : 9 ≤ delta
  · obtain ⟨k, rfl⟩ : ∃ k, delta = k + 9 := ⟨delta - 9, by omega⟩
    have hp : (1 : ℤ) ≤ 10 ^ k := one_le_pow₀ (by norm_num)
    have hle : n.m1 / 10 ^ k ≤ n.m1 := Int.ediv_le_self _ h1
    have hnn : 0 ≤ n.m1 / 10 ^ k := Int.ediv_nonneg h1 (by omega)
    have hval : n.val / 10 ^ (k + 9) = n.m1 / 10 ^ k := by
      have hword : n.val / 1000000000 = n.m1 := by
        unfold Mantissa.val
        omega
      rw [pow_add, mul_comm, ← Int.ediv_ediv_of_nonneg (by norm_num), show (10 : ℤ) ^ 9 = 1000000000 by norm_num, hword]
    rw [hval]
    exact ⟨⟨le_rfl, by norm_num, hnn, lt_of_le_of_lt hle h1'⟩, by simp [Mantissa.val]⟩
  · rw [if_neg hbig]
    by_cases hpos : 0 < delta
    · rw [if_pos hpos]
      obtain ⟨j, hj⟩ : ∃ j, delta + j = 9 := ⟨9 - delta, by omega⟩
      have hsub : 9 - delta = j := by omega
      have hP : (0 : ℤ) < 10 ^ delta := by positivity
      have hJ : (0 : ℤ) < 10 ^ j := by positivity
      have hPJ : (10 : ℤ) ^ delta * 10 ^ j = 1000000000 := by
        rw [← pow_add, hj]
        norm_num
      rw [hsub]
      generalize (10 : ℤ) ^ delta = P at *
      generalize (10 : ℤ) ^ j = J at *
      have hdm1 := Int.ediv_mul_add_emod n.m1 P
      have hdm0 := Int.ediv_mul_add_emod n.m0 P
      have hr1 := Int.emod_nonneg n.m1 hP.ne'
      have hr1' := Int.emod_lt_of_pos n.m1 hP
      have hr0 := Int.emod_nonneg n.m0 hP.ne'
      have hr0' := Int.emod_lt_of_pos n.m0 hP
      have hq1 := Int.ediv_nonneg h1 hP.le
      have hq0 := Int.ediv_nonneg h0 hP.le
      have hle : n.m1 / P ≤ n.m1 := Int.ediv_le_self _ h1
      -- the low word takes the digits that fall out of the high one
      have hlow : n.m0 / P < J := by
        rw [Int.ediv_lt_iff_lt_mul hP, mul_comm, hPJ]
        exact h0'
      have hrest : n.m1 - n.m1 / P * P = n.m1 % P := by omega
      have hmulr : n.m1 % P * J + J ≤ 1000000000 := by
        have : (n.m1 % P + 1) * J ≤ P * J := mul_le_mul_of_nonneg_right hr1' hJ.le
        linarith
      have hmul0 : 0 ≤ n.m1 % P * J := mul_nonneg hr1 hJ.le
      rw [hrest]
      refine ⟨⟨hq1, by simp only; omega, by simp only; omega, by simp only; omega⟩, ?_⟩
      symm
      rw [Int.ediv_eq_iff_of_pos hP]
      simp only [Mantissa.val]
      have hid : (n.m1 / P * 1000000000 + (n.m1 % P * J + n.m0 / P)) * P = n.m1 * 1000000000 + n.m0 - n.m0 % P := by
        linear_combination 1000000000 * hdm1 + (n.m1 % P) * hPJ + hdm0
      constructor
      · linarith
      · linarith
    · rw [if_neg hpos]
      have hd : delta = 0 := by omega
      rw [hd, pow_zero, Int.ediv_one]
      exact ⟨⟨h1, h1', h0, h0'⟩, rfl⟩

/-- The sum of two mantissas, its last digit dropped where there is a carry out of the first. -/
theorem addMagnitudes_spec {m n : Mantissa} (hm : m.Words) (hn : n.Words) (exp : ℤ) (hlo : 10 ^ 17 ≤ m.val + n.val) :
    (addMagnitudes m n exp).1.Normal ∧ (m.val + n.val < 10 ^ 18 ∧ addMagnitudes m n exp = ((addMagnitudes m n exp).1, exp) ∧
          (addMagnitudes m n exp).1.val = m.val + n.val ∨
        10 ^ 18 ≤ m.val + n.val ∧ addMagnitudes m n exp = ((addMagnitudes m n exp).1, exp + 1) ∧
          (addMagnitudes m n exp).1.val = (m.val + n.val) / 10) := by
  obtain ⟨-, hm1', hm0, hm0'⟩ := hm
  obtain ⟨-, hn1', hn0, hn0'⟩ := hn
  have hhi : (mantHi : ℤ) = 1000000000 := rfl
  -- the low words first, with their carry
  obtain ⟨m1, m0, hpair, hlow, hlow', hsum⟩ : ∃ m1 m0 : ℤ,
      (if (mantHi : ℤ) ≤ m.m0 + n.m0 then (m.m1 + 1, m.m0 + n.m0 - (mantHi : ℤ)) else (m.m1, m.m0 + n.m0)) = (m1, m0) ∧
        0 ≤ m0 ∧ m0 < 1000000000 ∧ m1 * 1000000000 + m0 + n.m1 * 1000000000 = m.val + n.val := by
    unfold Mantissa.val
    by_cases h : (mantHi : ℤ) ≤ m.m0 + n.m0
    · exact ⟨_, _, if_pos h, by omega, by omega, by omega⟩
    · exact ⟨_, _, if_neg h, by omega, by omega, by omega⟩
  have hbound : m.val + n.val < 2000000000000000000 := by
    unfold Mantissa.val
    omega
  unfold addMagnitudes
  simp only [hpair]
  generalize m.val + n.val = S at *
  by_cases hcarry : (mantHi : ℤ) ≤ m1 + n.m1
  · rw [if_pos hcarry]
    obtain ⟨hw, hval⟩ := Mantissa.words_of_val (N := S / 10)
      (v := ⟨(m1 + n.m1) / 10, m0 / 10 + (m1 + n.m1 - (m1 + n.m1) / 10 * 10) * (mantLo : ℤ)⟩) (by omega) (by omega)
      (by simp only; omega) (by simp only [mantLo]; omega)
    exact ⟨hw.normal (by omega), Or.inr ⟨by omega, rfl, hval⟩⟩
  · rw [if_neg hcarry]
    obtain ⟨hw, hval⟩ := Mantissa.words_of_val (N := S) (v := ⟨m1 + n.m1, m0⟩) (by omega) (by omega)
      (by simp only; omega) (by simp only; omega)
    exact ⟨hw.normal (by omega), Or.inl ⟨by omega, rfl, hval⟩⟩

/-- The difference of two mantissas, moved up to its leading digit; there is none for equal mantissas. -/
theorem subMagnitudes_spec {m n : Mantissa} (hm : m.Words) (hn : n.Words) (exp : ℤ) (hle : n.val ≤ m.val) :
    (m.val = n.val ∧ subMagnitudes m n exp = none) ∨
      ∃ w k, subMagnitudes m n exp = some (w, exp - (k : ℕ)) ∧ w.Normal ∧ w.val = (m.val - n.val) * 10 ^ k := by
  obtain ⟨-, hm1', hm0, hm0'⟩ := hm
  obtain ⟨hn1, -, hn0, hn0'⟩ := hn
  have hhi : (mantHi : ℤ) = 1000000000 := rfl
  -- the low words first, with their borrow
  obtain ⟨a, m0, hpair, hlow, hlow', hdiff, ha⟩ : ∃ a m0 : ℤ,
      (if m.m0 - n.m0 < 0 then (m.m1 - 1, m.m0 - n.m0 + (mantHi : ℤ)) else (m.m1, m.m0 - n.m0)) = (a, m0) ∧
        0 ≤ m0 ∧ m0 < 1000000000 ∧ (a - n.m1) * 1000000000 + m0 = m.val - n.val ∧ a - n.m1 < 1000000000 := by
    unfold Mantissa.val
    by_cases h : m.m0 - n.m0 < 0
    · exact ⟨_, _, if_pos h, by omega, by omega, by omega, by omega⟩
    · exact ⟨_, _, if_neg h, by omega, by omega, by omega, by omega⟩
  unfold subMagnitudes
  simp only [hpair]
  obtain ⟨D, hD⟩ : ∃ D, D = m.val - n.val := ⟨_, rfl⟩
  rw [← hD] at hdiff ⊢
  generalize a - n.m1 = m1 at *
  by_cases hzero : m1 = 0 ∧ m0 = 0
  · left
    rw [if_pos hzero]
    exact ⟨by omega, rfl⟩
  · right
    rw [if_neg hzero]
    -- an empty high word is filled from the low one
    obtain ⟨b1, b0, j, hpair', hb1, hb1', hb0, hb0', hval⟩ : ∃ (b1 b0 : ℤ) (j : ℕ),
        (if m1 = 0 then (m0, 0, exp - (numDecDg1l : ℤ)) else (m1, m0, exp)) = (b1, b0, exp - (j : ℤ)) ∧
          0 < b1 ∧ b1 < 1000000000 ∧ 0 ≤ b0 ∧ b0 < 1000000000 ∧ b1 * 1000000000 + b0 = D * 10 ^ j := by
      by_cases h0 : m1 = 0
      · exact ⟨m0, 0, 9, by rw [if_pos h0]; rfl, by omega, by omega, le_rfl, by norm_num, by norm_num; omega⟩
      · exact ⟨m1, m0, 0, by rw [if_neg h0]; simp, by omega, by omega, hlow, hlow', by rw [pow_zero]; omega⟩
    simp only [hpair', if_neg hb1.le.not_gt]
    by_cases hlead : b1 < mantLo
    · rw [if_pos hlead]
      obtain ⟨k, hk, h1, h2⟩ := normWord_spec numDecDg1l 0 hb1 hb1' (by simp only [numDecDg1l]; omega)
      have hk8 := shift_le hb1 h2
      rw [hk]
      simp only [zero_add, numDecDg1l, tenPwr, Nat.cast_pow, Nat.cast_ofNat]
      obtain ⟨i, hi⟩ : ∃ i, k + i = 9 := ⟨9 - k, by omega⟩
      rw [show 9 - k = i by omega]
      have hK : (0 : ℤ) < 10 ^ k := by positivity
      have hI : (0 : ℤ) < 10 ^ i := by positivity
      have hKI : (10 : ℤ) ^ k * 10 ^ i = 1000000000 := by
        rw [← pow_add, hi]
        norm_num
      have hpow : D * 10 ^ (j + k) = D * 10 ^ j * 10 ^ k := by rw [pow_add, mul_assoc]
      refine ⟨⟨b1 * 10 ^ k + b0 / 10 ^ i, (b0 - b0 / 10 ^ i * 10 ^ i) * 10 ^ k⟩, j + k, by simp only [Nat.cast_add, sub_sub], ?_⟩
      rw [hpow, ← hval]
      generalize (10 : ℤ) ^ k = K at *
      generalize (10 : ℤ) ^ i = I at *
      have hdm := Int.ediv_mul_add_emod b0 I
      have hr := Int.emod_nonneg b0 hI.ne'
      have hr' := Int.emod_lt_of_pos b0 hI
      have hq := Int.ediv_nonneg hb0 hI.le
      have hqK : b0 / I < K := by
        rw [Int.ediv_lt_iff_lt_mul hI, hKI]
        exact hb0'
      have hrest : b0 - b0 / I * I = b0 % I := by omega
      have hlowK : b0 % I * K + K ≤ 1000000000 := by
        have : (b0 % I + 1) * K ≤ I * K := mul_le_mul_of_nonneg_right hr' hK.le
        linarith
      have htop : b1 * K + K ≤ 1000000000 := by
        have : b1 + 1 ≤ I := by
          by_contra hge
          have : I * K ≤ b1 * K := mul_le_mul_of_nonneg_right (by omega) hK.le
          linarith
        have : (b1 + 1) * K ≤ I * K := mul_le_mul_of_nonneg_right this hK.le
        linarith
      have hlow0 : 0 ≤ b0 % I * K := mul_nonneg hr hK.le
      rw [hrest]
      refine ⟨⟨⟨by simp only; omega, by simp only; omega, hlow0, by simp only; omega⟩, by simp only; omega⟩, ?_⟩
      simp only [Mantissa.val]
      linear_combination (-(b0 / I)) * hKI + K * hdm
    · rw [if_neg hlead]
      simp only [mantLo, not_lt] at hlead
      exact ⟨⟨b1, b0⟩, j, rfl, ⟨⟨hb1.le, hb1', hb0, hb0'⟩, hlead⟩, hval⟩

/-! ## Operands and copies -/

theorem mvForceCanonical_number {v : Mval} (hv : v.Number) :
    (mvForceCanonical v).Number ∧ (mvForceCanonical v).numVal = v.numVal ∧ (mvForceCanonical v).mvtype.int = v.mvtype.int := by
  unfold mvForceCanonical
  split
  · exact ⟨⟨hv.nm, hv.valid⟩, rfl, rfl⟩
  · exact ⟨hv, rfl, rfl⟩

theorem numVal_neg {v r : Mval} (hint : r.mvtype.int = v.mvtype.int) (h1 : v.mvtype.int = true → r.m1 = -v.m1)
    (h2 : v.mvtype.int = false → r.sgn = !v.sgn ∧ r.e = v.e ∧ r.mant = v.mant) : r.numVal = -v.numVal := by
  cases h : v.mvtype.int with
  | true =>
    rw [numVal_int h, numVal_int (by rw [hint, h]), h1 h]
    push_cast
    ring
  | false =>
    obtain ⟨hs, he, hm⟩ := h2 h
    rw [numVal_mant h, numVal_mant (by rw [hint, h]), hs, he, hm, neg_signed]

/-- The copy of the second operand. -/
theorem resultIsV_number {v : Mval} (hv : v.Number) (subtraction : Bool) (result : Mval) :
    (resultIsV v subtraction result).Number ∧ (resultIsV v subtraction result).numVal = signed subtraction v.numVal ∧
      (resultIsV v subtraction result).mvtype.int = v.mvtype.int := by
  unfold resultIsV
  cases subtraction with
  | false => exact mvForceCanonical_number hv
  | true =>
    rw [if_pos rfl]
    have hvalid := hv.valid
    unfold Mval.NumValid at hvalid
    cases h : v.mvtype.int with
    | true =>
      rw [if_pos h] at hvalid
      refine ⟨⟨rfl, ?_⟩, numVal_neg h.symm (fun _ => rfl) (fun hf => absurd (h.symm.trans hf) (by simp)), rfl⟩
      unfold Mval.NumValid
      rw [if_pos rfl, Int.natAbs_neg]
      exact hvalid
    | false =>
      rw [if_neg (by simp [h])] at hvalid
      refine ⟨⟨rfl, ?_⟩, numVal_neg h.symm (fun ht => absurd (h.symm.trans ht) (by simp)) (fun _ => ⟨rfl, rfl, rfl⟩), rfl⟩
      exact hvalid

theorem fitsInt_signed {neg : Bool} {q : ℚ} : FitsInt (signed neg q) ↔ FitsInt q := by
  have hneg : ∀ q : ℚ, FitsInt q → FitsInt (-q) := by
    rintro q ⟨m, hm, rfl⟩
    exact ⟨-m, by rwa [abs_neg], by push_cast; ring⟩
  cases neg with
  | false => exact Iff.rfl
  | true => exact ⟨fun h => by simpa using hneg _ h, hneg q⟩

/-- A copy of a number is canonical where the number is. -/
theorem canonical_copy {v r : Mval} (neg : Bool) (hv : v.Canonical) (hr : r.Number) (hval : r.numVal = signed neg v.numVal)
    (hint : r.mvtype.int = v.mvtype.int) : r.Canonical := by
  refine ⟨hr, fun h => ?_⟩
  rw [hval, fitsInt_signed] at h
  rw [hint]
  exact hv.int_of_fits h

/-- A number is stored as it is. -/
theorem stored_number {r : Mval} (hr : r.Number) : Stored r.numVal (.ok r) := by
  refine ⟨hr, ?_⟩
  by_cases hzero : r.numVal = 0
  · exact Or.inl ⟨Or.inl hzero, hzero⟩
  · right
    refine ⟨?_, rfl⟩
    cases hint : r.mvtype.int with
    | true =>
      have hne : r.m1 ≠ 0 := fun h => hzero ((int_eq_zero_iff hint).mpr h)
      obtain ⟨h1, h2⟩ := expOf_thousandths (hr.int_bound hint) hne
      rw [numVal_int hint]
      simp only [expLo, expHi, mvXbias]
      omega
    | false =>
      have := hr.exp_bounds hint
      rw [expOf_number hr hint]
      omega

/-- The value of the word of an `MV_INT` that was moved up by `k` places. -/
theorem operand_value (m : ℤ) (k : ℕ) :
    ((⟨m * 10 ^ k, 0⟩ : Mantissa).val : ℚ) * (10 : ℚ) ^ (expIntOverf - 1 - (k : ℕ) - mvXbias - 18) = m / 1000 := by
  simp only [Mantissa.val, expIntOverf, mvXbias]
  rw [show (7 : ℤ) + ((62 : ℕ) : ℤ) - 1 - (k : ℕ) - ((62 : ℕ) : ℤ) - 18 = -(k : ℤ) - 12 by omega, zpow_sub₀ (by norm_num), zpow_neg,
    zpow_natCast]
  push_cast
  field_simp
  ring

/-- The operand of `add_mvals` that a number is. -/
theorem addOperand_spec {v : Mval} (hv : v.Number) (hne : v.numVal ≠ 0) (subtraction : Bool) : (addOperand v subtraction).m.Normal ∧
      signed subtraction v.numVal = signed (addOperand v subtraction).sgn
        ((addOperand v subtraction).m.val * (10 : ℚ) ^ ((addOperand v subtraction).exp - mvXbias - 18)) := by
  cases hint : v.mvtype.int with
  | true =>
    have hpos : 0 < |v.m1| := abs_pos.mpr fun h => hne ((int_eq_zero_iff hint).mpr h)
    obtain ⟨k, hk, h1, h2⟩ := normWord_spec numDecDg1l 0 hpos (hv.int_bound hint) (by simp only [numDecDg1l]; omega)
    have hop : addOperand v subtraction =
        { sgn := decide (v.m1 < 0) ^^ subtraction, exp := expIntOverf - 1 - (k : ℕ), m := ⟨|v.m1| * 10 ^ k, 0⟩ } := by
      unfold addOperand
      rw [if_pos hint, ← Int.abs_eq_natAbs, hk, zero_add]
    rw [hop, operand_value, numVal_int hint]
    refine ⟨⟨⟨by positivity, h2, le_rfl, by norm_num⟩, h1⟩, ?_⟩
    rcases lt_or_ge v.m1 0 with hneg | hnn
    · rw [abs_of_neg hneg]
      cases subtraction <;> simp [hneg, neg_div]
    · rw [abs_of_nonneg hnn]
      cases subtraction <;> simp [not_lt.mpr hnn]
  | false =>
    unfold addOperand
    rw [if_neg (by simp [hint])]
    refine ⟨hv.normal hint, ?_⟩
    rw [numVal_mant hint]
    cases subtraction <;> cases v.sgn <;> simp

/-! ## Aligned mantissas -/

theorem signed_add (neg : Bool) (p q : ℚ) : signed neg p + signed neg q = signed neg (p + q) := by
  cases neg
  · rfl
  · exact (neg_add p q).symm

theorem signed_add_not {a b : Bool} (h : a ≠ b) (p q : ℚ) : signed a p + signed b q = signed a (p - q) := by
  have hb : b = !a := by
    cases a <;> cases b <;> simp at h ⊢
  rw [hb]
  cases a <;> simp <;> ring

/-- The difference with the larger magnitude first. -/
theorem subAligned_stored {m n : Mantissa} (hm : m.Words) (hn : n.Words) (hle : n.val ≤ m.val) (sgn : Bool) (exp : ℤ) (result : Mval) :
    let res := match subMagnitudes m n exp with
      | none => .ok { result with mvtype := { nm := true, int := true }, m1 := 0 }
      | some (m, exp) => addStore sgn m exp result
    Stored (truncSig 10 18 (signed sgn ((m.val - n.val : ℤ) * (10 : ℚ) ^ (exp - mvXbias - 18)))) res ∧
      ∀ r, res = .ok r → r.Canonical := by
  intro res
  rcases subMagnitudes_spec hm hn exp hle with ⟨heq, hrun⟩ | ⟨w, k, hrun, hw, hval⟩
  · have hzero : ({ result with mvtype := { nm := true, int := true }, m1 := 0 } : Mval).Number := ⟨rfl, by simp [Mval.NumValid, mantHi]⟩
    have hres : res = .ok { result with mvtype := { nm := true, int := true }, m1 := 0 } := by simp only [res, hrun]
    rw [hres, heq, sub_self, Int.cast_zero, zero_mul, signed_eq_zero.mpr rfl, truncSig_zero]
    constructor
    · have h := stored_number hzero
      rwa [(int_eq_zero_iff rfl).mpr rfl] at h
    · rintro r hr
      cases hr
      exact hzero.canonical_of_int rfl
  · have hres : res = addStore sgn w (exp - (k : ℕ)) result := by simp only [res, hrun]
    have hlo := hw.lo
    have hscale : ((m.val - n.val : ℤ) : ℚ) * (10 : ℚ) ^ (exp - mvXbias - 18) = w.val * (10 : ℚ) ^ (exp - (k : ℕ) - mvXbias - 18) := by
      rw [hval, show exp - (k : ℤ) - mvXbias - 18 = exp - mvXbias - 18 - k by ring, zpow_sub₀ (by norm_num : (10 : ℚ) ≠ 0) _ (k : ℤ),
        zpow_natCast]
      push_cast
      field_simp
    have hsame := (truncSig_of_mantissa (B := 10) (by norm_num) (n := 18) sgn (N := w.val) (e := exp - (k : ℕ) - mvXbias) (by omega)
      hw.hi).2
    push_cast at hsame
    rw [hres, hscale, hsame]
    exact addStore_stored hw sgn _ result

/-- The sum of the aligned mantissas. -/
theorem addAligned_stored {m n : Mantissa} (hm : m.Words) (hn : n.Words) {delta : ℤ} (hpos : 0 < delta → m.Normal ∧ n.val < 10 ^ 17)
    (hneg : delta < 0 → n.Normal ∧ m.val < 10 ^ 17) (hzero : delta = 0 → m.Normal) (sa sb : Bool) (exp : ℤ) (result : Mval) :
    Stored (truncSig 10 18 (signed sa (m.val * (10 : ℚ) ^ (exp - mvXbias - 18)) + signed sb (n.val * (10 : ℚ) ^ (exp - mvXbias - 18))))
        (addAligned sa sb delta exp m n result) ∧ ∀ r, addAligned sa sb delta exp m n result = .ok r → r.Canonical := by
  have hm0 := hm.nonneg
  have hn0 := hn.nonneg
  have hg : (0 : ℚ) < 10 ^ (exp - mvXbias - 18) := by positivity
  have hlead : 10 ^ 17 ≤ m.val ∨ 10 ^ 17 ≤ n.val := by
    rcases lt_trichotomy delta 0 with h | h | h
    · exact Or.inr (hneg h).1.lo
    · exact Or.inl (hzero h).lo
    · exact Or.inl (hpos h).1.lo
  unfold addAligned
  by_cases hsgn : sa = sb
  · rw [if_pos hsgn, ← hsgn, signed_add, ← add_mul, ← Int.cast_add]
    obtain ⟨hw, ⟨hlt, hpair, hval⟩ | ⟨hge, hpair, hval⟩⟩ := addMagnitudes_spec hm hn exp (by omega)
    · have hsame := (truncSig_of_mantissa (B := 10) (by norm_num) (n := 18) sa (N := m.val + n.val) (e := exp - mvXbias) (by omega)
        (by push_cast; omega)).2
      push_cast at hsame ⊢
      rw [hsame, hpair]
      have h := addStore_stored hw sa exp result
      rw [hval] at h
      push_cast at h
      exact h
    · -- a carry out of the mantissa: the last digit is dropped
      have hsum := hn.hi
      have hsum' := hm.hi
      have hten : (10 : ℚ) ^ (exp + 1 - mvXbias - 18) = 10 * 10 ^ (exp - mvXbias - 18) := by
        rw [show exp + 1 - (mvXbias : ℤ) - 18 = 1 + (exp - mvXbias - 18) by ring, zpow_add₀ (by norm_num), zpow_one]
      have hcut := (truncSig_eq (B := 10) (by norm_num) (n := 18) sa (q := ((m.val + n.val : ℤ) : ℚ) * 10 ^ (exp - mvXbias - 18))
        (N := (m.val + n.val) / 10) (e := exp + 1 - mvXbias) (by omega) (by push_cast; omega) (by
          push_cast
          rw [hten, ← mul_assoc]
          apply mul_le_mul_of_nonneg_right _ hg.le
          exact_mod_cast Int.ediv_mul_le (m.val + n.val) (by norm_num : (10 : ℤ) ≠ 0)) (by
          push_cast
          rw [hten, ← mul_assoc]
          apply mul_lt_mul_of_pos_right _ hg
          exact_mod_cast Int.lt_ediv_add_one_mul_self (m.val + n.val) (by norm_num : (0 : ℤ) < 10))).2
      rw [hcut, hpair]
      have h := addStore_stored hw sa (exp + 1) result
      rw [hval] at h
      exact h
  · rw [if_neg hsgn]
    by_cases hswap : delta < 0 ∨ delta = 0 ∧ (m.m1 < n.m1 ∨ m.m1 = n.m1 ∧ m.m0 < n.m0)
    · have hle : m.val ≤ n.val := by
        rcases hswap with h | ⟨-, h⟩
        · have := (hneg h).1.lo
          omega
        · have h1 := hm.m0_lt
          have h2 := hn.m0_nonneg
          unfold Mantissa.val
          omega
      simp only [hswap, decide_true, if_true]
      have h := subAligned_stored hn hm hle sb exp result
      rw [add_comm, signed_add_not (Ne.symm hsgn), ← sub_mul, ← Int.cast_sub]
      exact h
    · have hle : n.val ≤ m.val := by
        rw [not_or] at hswap
        rcases (by omega : delta = 0 ∨ 0 < delta) with h | h
        · have h1 := hn.m0_lt
          have h2 := hm.m0_nonneg
          unfold Mantissa.val
          omega
        · have := (hpos h).1.lo
          omega
      simp only [hswap, decide_false, Bool.false_eq_true, if_false]
      have h := subAligned_stored hm hn hle sa exp result
      rw [signed_add_not hsgn, ← sub_mul, ← Int.cast_sub]
      exact h

/-! ## Two numbers -/

/-- A mantissa cut to the places that are `d` higher. -/
theorem truncTo_aligned {N : ℤ} (hN : 0 ≤ N) (neg : Bool) {e e' : ℤ} (d : ℕ) (hd : e' = e - d) :
    truncTo ((10 : ℚ) ^ e) (signed neg (N * (10 : ℚ) ^ e')) = signed neg ((N / 10 ^ d : ℤ) * (10 : ℚ) ^ e) := by
  have hscale : (N : ℚ) * (10 : ℚ) ^ e' = (N : ℚ) / (10 ^ d : ℤ) * 10 ^ e := by
    rw [hd, zpow_sub₀ (by norm_num), zpow_natCast]
    push_cast
    ring
  rw [hscale]
  exact truncTo_quotient hN (by positivity) (by positivity) neg

/-- A number of 18 digits is on the grid of its own exponent. -/
theorem truncTo_own {w : Mantissa} (hw : w.Normal) (neg : Bool) (e : ℤ) :
    truncTo ((10 : ℚ) ^ (e - 18)) (signed neg (w.val * (10 : ℚ) ^ (e - 18))) = signed neg (w.val * (10 : ℚ) ^ (e - 18)) := by
  have h := truncTo_aligned hw.toWords.nonneg neg 0 (show e - 18 = e - 18 - (0 : ℕ) by simp)
  simpa using h

theorem truncSig_own {w : Mantissa} (hw : w.Normal) (neg : Bool) (e : ℤ) :
    truncSig 10 18 (signed neg (w.val * (10 : ℚ) ^ (e - 18))) = signed neg (w.val * (10 : ℚ) ^ (e - 18)) := by
  have hlo := hw.lo
  have h := (truncSig_of_mantissa (B := 10) (by norm_num) (n := 18) neg (N := w.val) (e := e) (by omega) hw.hi).2
  exact_mod_cast h

/-- A number whose leading digit is below the last place is cut to zero. -/
theorem truncTo_far {q : ℚ} (hq : q ≠ 0) {e : ℤ} (h : expOf 10 q ≤ e) : truncTo ((10 : ℚ) ^ e) q = 0 := by
  apply truncTo_eq_zero (by positivity)
  have hhi := (expOf_le (B := 10) (by norm_num) hq).2
  exact lt_of_lt_of_le hhi (zpow_le_zpow_right₀ (by norm_num) h)

/-- `add_mvals`. -/
theorem addMvals_stored {u v : Mval} (hu : u.Number) (hv : v.Number) (subtraction : Bool) (result : Mval) :
    Stored (alignedSum 10 18 u.numVal (signed subtraction v.numVal)) (addMvals u v subtraction result) ∧
      (u.Canonical → v.Canonical → ∀ r, addMvals u v subtraction result = .ok r → r.Canonical) := by
  obtain ⟨hcu, hcuv, hcui⟩ := mvForceCanonical_number hu
  obtain ⟨hcv, hcvv, hcvi⟩ := resultIsV_number hv subtraction result
  have hcopyU : ∀ s, addMvals u v subtraction result = .ok (mvForceCanonical u) → s = u.numVal →
      Stored s (addMvals u v subtraction result) ∧
        (u.Canonical → v.Canonical → ∀ r, addMvals u v subtraction result = .ok r → r.Canonical) := by
    rintro s hrun rfl
    rw [hrun]
    refine ⟨hcuv ▸ stored_number hcu, fun hu' _ r hr => ?_⟩
    cases hr
    exact canonical_copy false hu' hcu hcuv hcui
  have hcopyV : ∀ s, addMvals u v subtraction result = .ok (resultIsV v subtraction result) → s = signed subtraction v.numVal →
      Stored s (addMvals u v subtraction result) ∧
        (u.Canonical → v.Canonical → ∀ r, addMvals u v subtraction result = .ok r → r.Canonical) := by
    rintro s hrun rfl
    rw [hrun]
    refine ⟨hcvv ▸ stored_number hcv, fun _ hv' r hr => ?_⟩
    cases hr
    exact canonical_copy _ hv' hcv hcvv hcvi
  by_cases hzu : u.mvtype.int ∧ u.m1 = 0
  · have hval := (int_eq_zero_iff hzu.1).mpr hzu.2
    apply hcopyV
    · unfold addMvals
      rw [if_pos hzu]
    · unfold alignedSum
      rw [if_pos hval]
  have hune : u.numVal ≠ 0 := by
    cases hint : u.mvtype.int with
    | true => exact fun h => hzu ⟨hint, (int_eq_zero_iff hint).mp h⟩
    | false => exact number_ne_zero hu hint
  by_cases hzv : v.mvtype.int ∧ v.m1 = 0
  · have hval := (int_eq_zero_iff hzv.1).mpr hzv.2
    apply hcopyU
    · unfold addMvals
      rw [if_neg hzu, if_pos hzv]
    · unfold alignedSum
      rw [if_neg hune, if_pos (signed_eq_zero.mpr hval)]
  have hvne : v.numVal ≠ 0 := by
    cases hint : v.mvtype.int with
    | true => exact fun h => hzv ⟨hint, (int_eq_zero_iff hint).mp h⟩
    | false => exact number_ne_zero hv hint
  have hbne : signed subtraction v.numVal ≠ 0 := fun h => hvne (signed_eq_zero.mp h)
  obtain ⟨hA, hav⟩ := addOperand_spec hu hune false
  obtain ⟨hB, hbv⟩ := addOperand_spec hv hvne subtraction
  rw [signed_false] at hav
  have hea : expOf 10 u.numVal = (addOperand u false).exp - mvXbias := by rw [hav]; exact expOf_mant hA _ _
  have heb : expOf 10 (signed subtraction v.numVal) = (addOperand v subtraction).exp - mvXbias := by rw [hbv]; exact expOf_mant hB _ _
  have hrun : addMvals u v subtraction result =
      if (numDecDg2l : ℤ) ≤ (addOperand u false).exp - (addOperand v subtraction).exp then .ok (mvForceCanonical u)
      else if (addOperand u false).exp - (addOperand v subtraction).exp ≤ -(numDecDg2l : ℤ) then .ok (resultIsV v subtraction result)
      else addAligned (addOperand u false).sgn (addOperand v subtraction).sgn
        ((addOperand u false).exp - (addOperand v subtraction).exp)
        (if 0 ≤ (addOperand u false).exp - (addOperand v subtraction).exp then (addOperand u false).exp
          else (addOperand v subtraction).exp)
        (if 0 ≤ (addOperand u false).exp - (addOperand v subtraction).exp then (addOperand u false).m
          else addAlign (-((addOperand u false).exp - (addOperand v subtraction).exp)).toNat (addOperand u false).m)
        (if 0 ≤ (addOperand u false).exp - (addOperand v subtraction).exp then
          addAlign ((addOperand u false).exp - (addOperand v subtraction).exp).toNat (addOperand v subtraction).m
          else (addOperand v subtraction).m) result := by
    conv_lhs => unfold addMvals
    rw [if_neg hzu, if_neg hzv]
  have hsum : alignedSum 10 18 u.numVal (signed subtraction v.numVal) =
      truncSig 10 18 (truncTo ((10 : ℚ) ^ (max ((addOperand u false).exp - mvXbias) ((addOperand v subtraction).exp - mvXbias) - 18)) u.numVal +
        truncTo ((10 : ℚ) ^ (max ((addOperand u false).exp - mvXbias) ((addOperand v subtraction).exp - mvXbias) - 18))
          (signed subtraction v.numVal)) := by
    unfold alignedSum
    rw [if_neg hune, if_neg hbne, hea, heb]
    rfl
  generalize addOperand u false = a at *
  generalize addOperand v subtraction = b at *
  have hwide : (numDecDg2l : ℤ) = 18 := rfl
  rw [hsum]
  by_cases hfar : (numDecDg2l : ℤ) ≤ a.exp - b.exp
  · -- the second operand has no digit within reach of the first
    rw [if_pos hfar] at hrun
    apply hcopyU _ hrun
    rw [max_eq_left (by omega), truncTo_far hbne (by omega), add_zero, hav, truncTo_own hA, truncSig_own hA]
  by_cases hfar' : a.exp - b.exp ≤ -(numDecDg2l : ℤ)
  · rw [if_neg hfar, if_pos hfar'] at hrun
    apply hcopyV _ hrun
    rw [max_eq_right (by omega), truncTo_far hune (by omega), zero_add, hbv, truncTo_own hB, truncSig_own hB]
  rw [if_neg hfar, if_neg hfar'] at hrun
  rw [hrun]
  have hcut : ∀ {w : Mantissa} {d : ℕ}, w.Words → 0 < d → w.val / 10 ^ d < 10 ^ 17 := by
    intro w d hw hd
    have hten : (10 : ℤ) ≤ 10 ^ d := le_self_pow₀ (by norm_num) (by omega)
    have hhi := hw.hi
    rw [Int.ediv_lt_iff_lt_mul (by positivity)]
    calc w.val < 10 ^ 17 * 10 := by omega
      _ ≤ 10 ^ 17 * 10 ^ d := mul_le_mul_of_nonneg_left hten (by norm_num)
  by_cases hnn : 0 ≤ a.exp - b.exp
  · obtain ⟨d, hd⟩ : ∃ d : ℕ, (d : ℤ) = a.exp - b.exp := ⟨(a.exp - b.exp).toNat, by omega⟩
    obtain ⟨hw, hval⟩ := addAlign_spec hB.toWords (by omega : d < 18)
    simp only [if_pos hnn]
    rw [show (a.exp - b.exp).toNat = d by omega, max_eq_left (by omega), hbv,
      truncTo_aligned hB.toWords.nonneg b.sgn d (by omega), hav, truncTo_own hA, ← hval]
    have h := addAligned_stored hA.toWords hw (fun hpos : 0 < a.exp - b.exp => ⟨hA, hval ▸ hcut hB.toWords (by omega)⟩)
      (fun hneg => absurd hneg (by omega)) (fun _ => hA) a.sgn b.sgn a.exp result
    exact ⟨h.1, fun _ _ => h.2⟩
  · obtain ⟨d, hd⟩ : ∃ d : ℕ, (d : ℤ) = -(a.exp - b.exp) := ⟨(-(a.exp - b.exp)).toNat, by omega⟩
    obtain ⟨hw, hval⟩ := addAlign_spec hA.toWords (by omega : d < 18)
    simp only [if_neg hnn]
    rw [show (-(a.exp - b.exp)).toNat = d by omega, max_eq_right (by omega), hav,
      truncTo_aligned hA.toWords.nonneg a.sgn d (by omega), hbv, truncTo_own hB, ← hval]
    have h := addAligned_stored hw hB.toWords (fun hpos : 0 < a.exp - b.exp => absurd hpos (by omega))
      (fun hneg => ⟨hB, hval ▸ hcut hA.toWords (by omega)⟩) (fun h0 => absurd h0 (by omega)) a.sgn b.sgn b.exp result
    exact ⟨h.1, fun _ _ => h.2⟩

/-! ## Two `MV_INT`s -/

/-- The sum of two `MV_INT`s, kept as one where it fits. -/
theorem addInts_spec {m : ℤ} (hm : |m| < 2000000000) (s : Mval) : (addInts m s).numVal = m / 1000 ∧ (addInts m s).Canonical := by
  have hhi : (mantHi : ℤ) = 1000000000 := rfl
  unfold addInts
  rw [abs_lt] at hm
  by_cases hfit : m < mantHi ∧ -mantHi < m
  · rw [if_pos hfit]
    have hnum : ({ s with mvtype := { nm := true, int := true }, m1 := m } : Mval).Number := by
      refine ⟨rfl, ?_⟩
      unfold Mval.NumValid
      rw [if_pos rfl]
      simp only [mantHi] at hfit ⊢
      omega
    exact ⟨numVal_int rfl, hnum.canonical_of_int rfl⟩
  · rw [if_neg hfit]
    obtain ⟨a, ha, -, hhi', hsgn⟩ : ∃ a : ℤ, (if 0 < m then m else -m) = a ∧ 1000000000 ≤ a ∧ a < 2000000000 ∧
        (m : ℚ) = signed (!decide (0 < m)) a := by
      by_cases hpos : 0 < m
      · exact ⟨m, if_pos hpos, by omega, by omega, by simp [hpos]⟩
      · exact ⟨-m, if_neg hpos, by omega, by omega, by simp [hpos]⟩
    simp only [ha]
    obtain ⟨r, hr⟩ : ∃ r : Mval, r = { s with
          mvtype := { nm := true }, sgn := decide (¬0 < m), e := expIntOverf.toNat, m0 := (a - a / 10 * 10) * (mantLo : ℤ),
          m1 := a / 10 } := ⟨_, rfl⟩
    rw [← hr]
    have hval : r.numVal = m / 1000 := by
      rw [hr, numVal_mant rfl, hsgn, signed_div_right]
      simp only [Mval.mant, Mantissa.val, expIntOverf, mvXbias, mantLo, decide_not]
      congr 1
      have hword : a / 10 * 1000000000 + (a - a / 10 * 10) * ((100000000 : ℕ) : ℤ) = a * 100000000 := by
        ring
      norm_num
      ring
    have hnum : r.Number := by
      refine ⟨by rw [hr], ?_⟩
      rw [hr]
      unfold Mval.NumValid
      rw [if_neg (by simp)]
      simp only [mantLo, mantHi, expIntOverf, mvXbias, expLo, expHi]
      omega
    refine ⟨hval, hnum, ?_⟩
    rintro ⟨m', hm', hq⟩
    rw [hval, div_left_inj' (by norm_num)] at hq
    have : m = m' := by exact_mod_cast hq
    rw [abs_lt] at hm'
    omega

/-- Thousandths add up without a loss. -/
theorem alignedSum_thousandths {a b : ℤ} (ha : |a| < 1000000000) (hb : |b| < 1000000000) :
    alignedSum 10 18 ((a : ℚ) / 1000) ((b : ℚ) / 1000) = ((a + b : ℤ) : ℚ) / 1000 := by
  unfold alignedSum
  by_cases hza : (a : ℚ) / 1000 = 0
  · rw [if_pos hza]
    push_cast
    rw [add_div, hza, zero_add]
  by_cases hzb : (b : ℚ) / 1000 = 0
  · rw [if_neg hza, if_pos hzb]
    push_cast
    rw [add_div, hzb, add_zero]
  rw [if_neg hza, if_neg hzb]
  have hea := (expOf_thousandths ha (by rintro rfl; simp at hza)).2
  have heb := (expOf_thousandths hb (by rintro rfl; simp at hzb)).2
  obtain ⟨E, hE⟩ : ∃ E, max (expOf 10 ((a : ℚ) / 1000)) (expOf 10 ((b : ℚ) / 1000)) = E := ⟨_, rfl⟩
  have hgrid : ∀ m : ℤ, truncTo (((10 : ℕ) : ℚ) ^ (E - ((18 : ℕ) : ℤ))) ((m : ℚ) / 1000) = m / 1000 := by
    intro m
    apply truncTo_of_grid (N := m * 10 ^ (15 - E).toNat) (by positivity)
    have hsplit : (10 : ℚ) ^ (15 - E).toNat * 10 ^ (E - 18) = 1 / 1000 := by
      rw [← zpow_natCast, ← zpow_add₀ (by norm_num), show ((15 - E).toNat : ℤ) + (E - 18) = -3 by omega]
      norm_num
    push_cast
    rw [mul_assoc, hsplit]
    ring
  rw [hE, hgrid, hgrid, ← add_div, ← Int.cast_add]
  rw [abs_lt] at ha hb
  rcases eq_or_ne (a + b) 0 with h0 | hne
  · rw [h0, Int.cast_zero, zero_div, truncSig_zero]
  · have hq : ((a + b : ℤ) : ℚ) / 1000 ≠ 0 := by
      positivity
    have hexp := expOf_le_of_lt (B := 10) (by norm_num) hq (e := 7) (by
      have hsum : |a + b| < 10000000000 := by
        rw [abs_lt]
        omega
      have hsumq : ((|a + b| : ℤ) : ℚ) < 10000000000 := by exact_mod_cast hsum
      rw [abs_div, ← Int.cast_abs, div_lt_iff₀ (by norm_num)]
      norm_num only at hsumq ⊢
      exact hsumq)
    exact truncSig_of_multiple (B := 10) (by norm_num) (N := a + b) (j := -3) (by norm_num [div_eq_mul_inv]) (by omega)

/-! ## `op_add` and `op_sub` -/

/-- Two `MV_INT`s through the shortcut. -/
theorem addInts_stored {a b : ℤ} (ha : |a| < 1000000000) (hb : |b| < 1000000000) (s : Mval) :
    Stored (alignedSum 10 18 ((a : ℚ) / 1000) ((b : ℚ) / 1000)) (.ok (addInts (a + b) s)) ∧
      ∀ r, (.ok (addInts (a + b) s) : Except ArithErr Mval) = .ok r → r.Canonical := by
  have hsum : |a + b| < 2000000000 := by
    rw [abs_lt] at *
    omega
  obtain ⟨hval, hcan⟩ := addInts_spec hsum s
  rw [alignedSum_thousandths ha hb, ← hval]
  refine ⟨stored_number hcan.toNumber, ?_⟩
  rintro r hr
  cases hr
  exact hcan

theorem opAdd_stored {u v : Mval} (hu : u.Number) (hv : v.Number) (s : Mval) : Stored (alignedSum 10 18 u.numVal v.numVal) (opAdd u v s) ∧
      (u.Canonical → v.Canonical → ∀ r, opAdd u v s = .ok r → r.Canonical) := by
  have hrun : opAdd u v s = if u.mvtype.int ∧ v.mvtype.int then .ok (addInts (u.m1 + v.m1) s) else addMvals u v false s := by
    unfold opAdd
    rw [forceNum_of_nm hu.nm, forceNum_of_nm hv.nm]
    rfl
  rw [hrun]
  by_cases hints : u.mvtype.int ∧ v.mvtype.int
  · rw [if_pos hints, numVal_int hints.1, numVal_int hints.2]
    have h := addInts_stored (hu.int_bound hints.1) (hv.int_bound hints.2) s
    exact ⟨h.1, fun _ _ => h.2⟩
  · rw [if_neg hints]
    exact addMvals_stored hu hv false s

theorem opSub_stored {u v : Mval} (hu : u.Number) (hv : v.Number) (s : Mval) : Stored (alignedSum 10 18 u.numVal (-v.numVal)) (opSub u v s) ∧
      (u.Canonical → v.Canonical → ∀ r, opSub u v s = .ok r → r.Canonical) := by
  have hrun : opSub u v s = if u.mvtype.int ∧ v.mvtype.int then .ok (addInts (u.m1 - v.m1) s) else addMvals u v true s := by
    unfold opSub
    rw [forceNum_of_nm hu.nm, forceNum_of_nm hv.nm]
    rfl
  rw [hrun]
  by_cases hints : u.mvtype.int ∧ v.mvtype.int
  · have hneg : -((v.m1 : ℚ) / 1000) = ((-v.m1 : ℤ) : ℚ) / 1000 := by
      push_cast
      ring
    rw [if_pos hints, numVal_int hints.1, numVal_int hints.2, hneg]
    have h := addInts_stored (hu.int_bound hints.1) (by rw [abs_neg]; exact hv.int_bound hints.2 : |-v.m1| < 1000000000) s
    exact ⟨h.1, fun _ _ => h.2⟩
  · rw [if_neg hints]
    exact addMvals_stored hu hv true s

end NumberAddAux

end Gtm
