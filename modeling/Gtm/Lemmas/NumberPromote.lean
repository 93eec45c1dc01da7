import Gtm.Lemmas.NumberStore
import Gtm.Theorems.LimbArithmetic

/-!
# Promotion, and the general paths of multiplication and division

`promote` keeps the value of an `MV_INT` and gives it a normalised mantissa. Behind the promotion `op_mul` and `op_div` store the
product and the quotient cut to 18 digits, and `op_idiv` the integer part of the quotient.
-/

namespace Gtm

open Limbs EbMulAux Truncation NumberRoundTripAux NumberStoreAux LimbArithmeticAux

namespace NumberPromoteAux

/-! ## Promotion -/

theorem promoteExp_digits {m : ℕ} (hpos : 0 < m) (hlt : m < 1000000000) :
    1 ≤ promoteExp 9 m 0 ∧ promoteExp 9 m 0 ≤ 9 ∧ 10 ^ (promoteExp 9 m 0 - 1) ≤ m ∧ m < 10 ^ promoteExp 9 m 0 := by
  obtain ⟨h2, h3, h9⟩ := promoteExp_spec (n := 9) (m := m) (e := 0) (Or.inl rfl) (by omega)
  have hne : promoteExp 9 m 0 ≠ 0 := by
    intro h
    rw [h] at h2
    omega
  have h3' := h3.resolve_left hne
  exact ⟨by omega, by omega, h3', h2⟩

/-- A number in extended precision whose exponent need not be canonical for its value. -/
structure Extended (v : Mval) (q : ℚ) : Prop where
  nm : v.mvtype.nm = true
  int : v.mvtype.int = false
  normal : v.mant.Normal
  exp_lo : expLo ≤ v.e
  exp_hi : v.e < expHi
  value : v.numVal = q

variable {v : Mval}

/-- `promote` on an `MV_INT` other than zero. -/
theorem promote_extended (hv : v.Number) (hint : v.mvtype.int = true) (hne : v.m1 ≠ 0) :
    Extended (promote v) v.numVal ∧ (promote v).e ≤ 68 ∧ 60 ≤ (promote v).e := by
  have hlt : v.m1.natAbs < 1000000000 := by
    have := hv.int_bound hint
    rw [Int.abs_eq_natAbs] at this
    exact_mod_cast this
  obtain ⟨h1, h9, hlo, hhi⟩ := promoteExp_digits (Int.natAbs_pos.mpr hne) hlt
  have habs : (v.m1 : ℚ) = signed (decide (v.m1 < 0)) (v.m1.natAbs : ℚ) := by
    rcases lt_or_ge v.m1 0 with h | h
    · have hq : (v.m1 : ℚ) < 0 := by exact_mod_cast h
      simp [h, abs_of_neg hq]
    · have hq : (0 : ℚ) ≤ v.m1 := by exact_mod_cast h
      simp [not_lt.mpr h, abs_of_nonneg hq]
  unfold promote
  rw [if_neg hne]
  generalize promoteExp 9 v.m1.natAbs 0 = d at *
  generalize v.m1.natAbs = m at *
  obtain ⟨k, rfl⟩ : ∃ k, d = k + 1 := ⟨d - 1, by omega⟩
  have he : mvXbias - 3 + (k + 1) = 60 + k := by
    simp only [mvXbias]
    omega
  have hm1 : mantLo ≤ m * tenPwr (9 - (k + 1)) ∧ m * tenPwr (9 - (k + 1)) < mantHi := by
    have hp : 10 ^ k * 10 ^ (9 - (k + 1)) = mantLo := by
      rw [← pow_add, show k + (9 - (k + 1)) = 8 by omega]
      rfl
    have hp' : 10 ^ (k + 1) * 10 ^ (9 - (k + 1)) = mantHi := by
      rw [← pow_add, show k + 1 + (9 - (k + 1)) = 9 by omega]
      rfl
    simp only [tenPwr]
    rw [← hp, ← hp']
    exact ⟨Nat.mul_le_mul_right _ hlo, Nat.mul_lt_mul_of_pos_right hhi (by positivity)⟩
  simp only [he]
  refine ⟨⟨rfl, rfl, ?_, by simp only [expLo]; omega, by simp only [expHi]; omega, ?_⟩, by omega, by omega⟩
  · have hm1z : (100000000 : ℤ) ≤ m * (tenPwr (9 - (k + 1)) : ℕ) ∧ (m : ℤ) * (tenPwr (9 - (k + 1)) : ℕ) < 1000000000 := by
      exact_mod_cast hm1
    refine ⟨⟨?_, ?_, ?_, ?_⟩, ?_⟩ <;> simp only [Mval.mant] <;> omega
  · rw [numVal_mant rfl, numVal_int hint, habs]
    simp only [Mval.mant, Mantissa.val, mvXbias, tenPwr]
    have hscale : ((10 ^ (9 - (k + 1)) : ℕ) : ℚ) * 1000000000 * (10 : ℚ) ^ (((60 + k : ℕ) : ℤ) - ((62 : ℕ) : ℤ) - 18) = 1 / 1000 := by
      have e1 : ((10 ^ (9 - (k + 1)) : ℕ) : ℚ) = 10 ^ ((8 : ℤ) - k) := by
        rw [Nat.cast_pow, ← zpow_natCast]
        congr 1
        omega
      rw [e1, show (1000000000 : ℚ) = 10 ^ (9 : ℤ) by norm_num, ← zpow_add₀ (by norm_num), ← zpow_add₀ (by norm_num)]
      rw [show (8 : ℤ) - k + 9 + (((60 + k : ℕ) : ℤ) - ((62 : ℕ) : ℤ) - 18) = -3 by push_cast; ring]
      norm_num
    have : (((m * 10 ^ (9 - (k + 1)) : ℕ) * 1000000000 + 0 : ℤ) : ℚ) *
        (10 : ℚ) ^ (((60 + k : ℕ) : ℤ) - ((62 : ℕ) : ℤ) - 18) = m / 1000 := by
      push_cast at hscale ⊢
      linear_combination (m : ℚ) * hscale
    rw [this]
    cases decide (v.m1 < 0)
    · rfl
    · simp [neg_div]

/-- A number other than zero, brought to extended precision. -/
theorem promoteInt_extended (hv : v.Number) (hne : v.numVal ≠ 0) : Extended (promoteInt v) v.numVal := by
  unfold promoteInt
  cases hint : v.mvtype.int with
  | true =>
    exact (promote_extended hv hint fun h => hne ((int_eq_zero_iff hint).mpr h)).1
  | false =>
    obtain ⟨h1, h2⟩ := hv.exp_bounds hint
    exact ⟨hv.nm, hint, hv.normal hint, h1, h2, rfl⟩

theorem promote_zero (h : v.m1 = 0) : promote v = literalZero := if_pos h

theorem literalZero_words : literalZero.mant.Words := ⟨by decide, by decide, by decide, by decide⟩

/-- An operand promoted from an `MV_INT` that is not zero. -/
theorem promote_nonzero (hv : v.Number) (hint : v.mvtype.int = true) (hne : v.m1 ≠ 0) :
    Extended (promote v) ((v.m1 : ℚ) / 1000) ∧ (promote v).e ≤ 68 ∧ 60 ≤ (promote v).e := by
  rw [← numVal_int hint]
  exact promote_extended hv hint hne

theorem promote_words (hv : v.Number) (hint : v.mvtype.int = true) :
    (promote v).mant.Words ∧ (promote v).e ≤ 68 ∧ (v.m1 = 0 → (promote v).mant.val = 0 ∧ (promote v).e = 0) := by
  rcases eq_or_ne v.m1 0 with h | h
  · rw [promote_zero h]
    exact ⟨literalZero_words, by decide, fun _ => ⟨by decide, rfl⟩⟩
  · obtain ⟨hx, he, -⟩ := promote_nonzero hv hint h
    exact ⟨hx.normal.toWords, he, fun h0 => absurd h0 h⟩

/-! ## The routines on operands that are numbers -/

section Numbers

variable {u v : Mval} (hu : u.mvtype.nm = true) (hv : v.mvtype.nm = true)
include hu hv

theorem opMul_of_nm (p : Mval) : opMul u v p = match if u.mvtype.int ∧ v.mvtype.int then ebIntMul u.m1 v.m1 else none with
    | some w => .ok (intResult w p)
    | none => mulPromoted (promoteInt u) (promoteInt v) p := by
  unfold opMul
  rw [forceNum_of_nm hu, forceNum_of_nm hv]
  rfl

theorem opDiv_of_nm (q : Mval) (hne : ¬ (v.mvtype.int ∧ v.m1 = 0)) :
    opDiv u v q = match if u.mvtype.int ∧ v.mvtype.int then ebMvintDiv u.m1 v.m1 else none with
    | some w => .ok (intResult w q)
    | none => divPromoted (promoteInt u) (promoteInt v) q := by
  unfold opDiv
  rw [forceNum_of_nm hu, forceNum_of_nm hv]
  exact if_neg hne

theorem opIdiv_of_nm (q : Mval) (hne : ¬ (v.mvtype.int ∧ v.m1 = 0)) :
    opIdiv u v q = match if u.mvtype.int ∧ v.mvtype.int then ebIntDiv u.m1 v.m1 else none with
    | some w => .ok (intResult w q)
    | none => idivPromoted (promoteInt u) (promoteInt v) q := by
  unfold opIdiv
  rw [forceNum_of_nm hu, forceNum_of_nm hv]
  exact if_neg hne

end Numbers

/-! ## Zeros -/

variable {u v : Mval} {a b : ℚ}

/-- A product of zero is zero as long as the exponents add up to one below the least. -/
theorem mulPromoted_zero (hu : u.mant.Words) (hv : v.mant.Words) (h0 : u.mant.val * v.mant.val = 0)
    (he : u.e + v.e < expLo + mvXbias + 1) (p : Mval) : mulPromoted u v p = .ok literalZero := by
  obtain ⟨scale, w, hrun, -, hcases⟩ := ebMul_words hu hv
  have hexp : ¬ (expHi : ℤ) ≤ u.e + v.e + scale - mvXbias ∧ (u.e : ℤ) + v.e + scale - mvXbias < expLo := by
    simp only [expLo, expHi, mvXbias] at he ⊢
    omega
  unfold mulPromoted
  rw [hrun]
  unfold mulStore
  simp only
  rw [if_neg hexp.1, if_pos hexp.2]

/-- A quotient of zero is zero as long as the exponent is below the least. -/
theorem divPromoted_zero (hu : u.mant.Words) (h0 : u.mant.val = 0) (hv : v.mant.Normal)
    (he : u.e + mvXbias < v.e + expLo) (q : Mval) : divPromoted u v q = .ok literalZero := by
  obtain ⟨scale, w, hrun, -, hcases⟩ := ebDiv_words hv hu (Or.inr h0)
  have hlo := hv.lo
  have hexp : ¬ (expHi : ℤ) ≤ u.e - v.e + scale + mvXbias ∧ (u.e : ℤ) - v.e + scale + mvXbias < expLo := by
    simp only [expLo, expHi, mvXbias] at he ⊢
    omega
  unfold divPromoted
  rw [hrun]
  unfold mulStore
  simp only
  rw [if_neg hexp.1, if_pos hexp.2]

/-- The integer quotient is zero when the dividend has the smaller exponent. -/
theorem idivPromoted_below (he : u.e < v.e) (q : Mval) : idivPromoted u v q = .ok literalZero := by
  unfold idivPromoted
  rw [if_pos (by omega)]

/-! ## Products and quotients -/

section
variable (hu : Extended u a) (hv : Extended v b)
include hu hv

/-- `op_mul` behind the promotion. -/
theorem mulPromoted_stored (p : Mval) :
    Stored (truncSig 10 18 (a * b)) (mulPromoted u v p) ∧ ∀ r, mulPromoted u v p = .ok r → r.Canonical := by
  have hUV : u.numVal * v.numVal = signed (u.sgn ^^ v.sgn)
      ((u.mant.val * v.mant.val : ℤ) * (10 : ℚ) ^ ((u.e : ℤ) + v.e - 160)) := by
    rw [numVal_mant hu.int, numVal_mant hv.int, signed_mul]
    congr 1
    have : (10 : ℚ) ^ ((u.e : ℤ) + v.e - 160) = 10 ^ ((u.e : ℤ) - mvXbias - 18) * 10 ^ ((v.e : ℤ) - mvXbias - 18) := by
      rw [← zpow_add₀ (by norm_num)]
      congr 1
      simp only [mvXbias]
      ring
    rw [this]
    push_cast
    ring
  obtain ⟨scale, w, hrun, hwords, hcases⟩ := ebMul_words hu.normal.toWords hv.normal.toWords
  have hw := product_normal hu.normal hv.normal hwords hcases
  obtain ⟨k, hk, hwv⟩ : ∃ k : ℕ, (k : ℤ) = 18 + scale ∧ w.val = u.mant.val * v.mant.val / 10 ^ k := by
    rcases hcases with ⟨-, rfl, h⟩ | ⟨-, rfl, h⟩
    · exact ⟨18, rfl, h⟩
    · exact ⟨17, rfl, h⟩
  have hlo := hw.lo
  have hhi := hw.hi
  have hq : ((u.mant.val * v.mant.val : ℤ) : ℚ) / ((10 ^ k : ℤ) : ℚ) * (10 : ℚ) ^ ((u.e : ℤ) + v.e + scale - mvXbias - mvXbias - 18) =
      (u.mant.val * v.mant.val : ℤ) * (10 : ℚ) ^ ((u.e : ℤ) + v.e - 160) := by
    have : (10 : ℚ) ^ ((u.e : ℤ) + v.e - 160) * (10 : ℚ) ^ (k : ℤ) = (10 : ℚ) ^ ((u.e : ℤ) + v.e + scale - mvXbias - mvXbias - 18) := by
      rw [← zpow_add₀ (by norm_num)]
      congr 1
      simp only [mvXbias]
      omega
    rw [← this, zpow_natCast]
    push_cast
    field_simp
  have hbounds := floor_bounds (P := u.mant.val * v.mant.val) (D := 10 ^ k) (by positivity)
    (g := (10 : ℚ) ^ ((u.e : ℤ) + v.e + scale - mvXbias - mvXbias - 18)) (by positivity)
  rw [hq, ← hwv] at hbounds
  have htrunc := (truncSig_eq (B := 10) (by norm_num) (n := 18) (u.sgn ^^ v.sgn) (by omega) hhi hbounds.1 hbounds.2).2
  rw [← hUV, hu.value, hv.value] at htrunc
  unfold mulPromoted
  rw [hrun, htrunc]
  exact mulStore_stored hw _ _ p

/-- The mantissa and the exponent `eb_div` gives for a quotient. -/
theorem ebDiv_quotient :
    ∃ scale w x, ebDiv v.mant u.mant = some (scale, w) ∧ (scale = 0 ∨ scale = 1) ∧ w.Normal ∧ a / b = signed (u.sgn ^^ v.sgn) x ∧
      (w.val : ℚ) * 10 ^ ((u.e : ℤ) - v.e + scale - 18) ≤ x ∧ x < ((w.val : ℚ) + 1) * 10 ^ ((u.e : ℤ) - v.e + scale - 18) := by
  have hUV : u.numVal / v.numVal = signed (u.sgn ^^ v.sgn) ((u.mant.val : ℚ) / v.mant.val * (10 : ℚ) ^ ((u.e : ℤ) - v.e)) := by
    rw [numVal_mant hu.int, numVal_mant hv.int, signed_div]
    congr 1
    have : (10 : ℚ) ^ ((u.e : ℤ) - v.e) = 10 ^ ((u.e : ℤ) - mvXbias - 18) / 10 ^ ((v.e : ℤ) - mvXbias - 18) := by
      rw [← zpow_sub₀ (by norm_num)]
      congr 1
      ring
    rw [this]
    ring
  obtain ⟨scale, w, hrun, hwords, hcases⟩ := ebDiv_words hv.normal hu.normal.toWords (Or.inl hu.normal.lo)
  have hw := quotient_normal hv.normal hu.normal hwords hcases
  obtain ⟨k, hk, hs, hwv⟩ : ∃ k : ℕ, (k : ℤ) = 18 - scale ∧ (scale = 0 ∨ scale = 1) ∧ w.val = u.mant.val * 10 ^ k / v.mant.val := by
    rcases hcases with ⟨-, rfl, h⟩ | ⟨-, rfl, h⟩
    · exact ⟨17, rfl, Or.inr rfl, h⟩
    · exact ⟨18, rfl, Or.inl rfl, h⟩
  have hvpos : 0 < v.mant.val := lt_of_lt_of_le (by norm_num) hv.normal.lo
  have hq : ((u.mant.val * 10 ^ k : ℤ) : ℚ) / (v.mant.val : ℚ) * (10 : ℚ) ^ ((u.e : ℤ) - v.e + scale - 18) =
      (u.mant.val : ℚ) / v.mant.val * (10 : ℚ) ^ ((u.e : ℤ) - v.e) := by
    have : (10 : ℚ) ^ (k : ℤ) * (10 : ℚ) ^ ((u.e : ℤ) - v.e + scale - 18) = (10 : ℚ) ^ ((u.e : ℤ) - v.e) := by
      rw [← zpow_add₀ (by norm_num)]
      congr 1
      omega
    rw [← this, zpow_natCast]
    push_cast
    ring
  have hbounds := floor_bounds (P := u.mant.val * 10 ^ k) hvpos (g := (10 : ℚ) ^ ((u.e : ℤ) - v.e + scale - 18)) (by positivity)
  rw [hq, ← hwv] at hbounds
  exact ⟨scale, w, _, hrun, hs, hw, by rw [← hu.value, ← hv.value, hUV], hbounds⟩

/-- `op_div` behind the promotion. -/
theorem divPromoted_stored (q : Mval) :
    Stored (truncSig 10 18 (a / b)) (divPromoted u v q) ∧ ∀ r, divPromoted u v q = .ok r → r.Canonical := by
  obtain ⟨scale, w, x, hrun, -, hw, hx, h1, h2⟩ := ebDiv_quotient hu hv
  have hlo := hw.lo
  have htrunc := (truncSig_eq (B := 10) (by norm_num) (n := 18) (u.sgn ^^ v.sgn) (by omega) hw.hi h1 h2).2
  unfold divPromoted
  rw [hrun, hx, htrunc, show (u.e : ℤ) - v.e + scale - (18 : ℕ) = u.e - v.e + scale + mvXbias - mvXbias - 18 by push_cast; ring]
  exact mulStore_stored hw _ _ q

end

/-! ## Integer quotients -/

/-- Cutting the digits behind the decimal point off a normalised mantissa. -/
theorem idivTruncate_spec {w : Mantissa} (hw : w.Normal) (q : Mval) {e : ℕ} (he : 0 < e) (he' : e < 18) :
    ∃ w' : Mantissa, idivTruncate { q with m1 := w.m1, m0 := w.m0 } (e + mvXbias) = { q with m1 := w'.m1, m0 := w'.m0 } ∧
      w'.Normal ∧ w'.val = w.val / 10 ^ (18 - e) * 10 ^ (18 - e) := by
  obtain ⟨⟨h1, h1', h0, h0'⟩, hl⟩ := hw
  have hnot : ¬ (e : ℤ) + mvXbias ≤ mvXbias := by omega
  unfold idivTruncate
  rw [if_neg hnot]
  by_cases hsmall : e < 9
  · have hk : tenPwr (expIdxBial - (e + mvXbias)).toNat = 10 ^ (9 - e) := by
      simp only [tenPwr, expIdxBial]
      congr 1
      omega
    have hlt : (e : ℤ) + mvXbias < expIdxBial := by
      simp only [expIdxBial]
      omega
    rw [if_pos hlt, hk]
    refine ⟨⟨w.m1 / (10 ^ (9 - e) : ℕ) * (10 ^ (9 - e) : ℕ), 0⟩, rfl, ?_⟩
    have hval : Mantissa.val ⟨w.m1 / (10 ^ (9 - e) : ℕ) * (10 ^ (9 - e) : ℕ), 0⟩ = w.val / 10 ^ (18 - e) * 10 ^ (18 - e) := by
      unfold Mantissa.val
      interval_cases e <;> norm_num only <;> omega
    refine ⟨⟨⟨?_, ?_, le_rfl, by norm_num⟩, ?_⟩, hval⟩ <;> simp only <;> interval_cases e <;> norm_num only <;> omega
  · have hk : tenPwr (expIdxBiaq - (e + mvXbias)).toNat = 10 ^ (18 - e) := by
      simp only [tenPwr, expIdxBiaq]
      congr 1
      omega
    have hge : ¬ (e : ℤ) + mvXbias < expIdxBial := by
      simp only [expIdxBial]
      omega
    have hlt : (e : ℤ) + mvXbias < expIdxBiaq := by
      simp only [expIdxBiaq]
      omega
    rw [if_neg hge, if_pos hlt, hk]
    refine ⟨⟨w.m1, w.m0 / (10 ^ (18 - e) : ℕ) * (10 ^ (18 - e) : ℕ)⟩, rfl, ?_⟩
    have hval : Mantissa.val ⟨w.m1, w.m0 / (10 ^ (18 - e) : ℕ) * (10 ^ (18 - e) : ℕ)⟩ = w.val / 10 ^ (18 - e) * 10 ^ (18 - e) := by
      unfold Mantissa.val
      interval_cases e <;> norm_num only <;> omega
    refine ⟨⟨⟨h1, h1', ?_, ?_⟩, hl⟩, hval⟩ <;> simp only <;> interval_cases e <;> norm_num only <;> omega

/-- The end of `op_idiv` for a quotient that is not below one is that of `op_div`. -/
theorem idivPromoted_eq {q : Mval} {scale : ℤ} {w w' : Mantissa} (hrun : ebDiv v.mant u.mant = some (scale, w))
    (hexp : 0 ≤ (u.e : ℤ) - v.e) (hscale : 0 ≤ scale)
    (htrunc : idivTruncate { q with m1 := w.m1, m0 := w.m0 } (u.e - v.e + mvXbias + scale) = { q with m1 := w'.m1, m0 := w'.m0 }) :
    idivPromoted u v q = mulStore (u.sgn ^^ v.sgn) w' (u.e - v.e + mvXbias + scale) q := by
  unfold idivPromoted mulStore
  simp only [hrun, htrunc]
  rw [if_neg (by omega)]
  have hlo : ¬ (u.e : ℤ) - v.e + mvXbias + scale < (expLo : ℤ) := by
    simp only [mvXbias, expLo]
    omega
  by_cases hint : (u.e : ℤ) - v.e + mvXbias + scale < expIntOverf ∧ expIntUnderf < (u.e : ℤ) - v.e + mvXbias + scale ∧ w'.m0 = 0 ∧
      w'.m1.tmod (tenPwr (expIntOverf - 1 - ((u.e : ℤ) - v.e + mvXbias + scale)).toNat) = 0
  · have hhi : ¬ (expHi : ℤ) ≤ u.e - v.e + mvXbias + scale := by
      have := hint.1
      simp only [expIntOverf, mvXbias, expHi] at this ⊢
      omega
    rw [if_pos hint, if_neg hhi, if_neg hlo, if_pos hint]
  · rw [if_neg hint, if_neg hlo, if_neg hlo, if_neg hint]

/-- `op_idiv` behind the promotion. -/
theorem idivPromoted_stored (hu : Extended u a) (hv : Extended v b) (q : Mval) :
    Stored (truncSig 10 18 (truncTo 1 (a / b))) (idivPromoted u v q) ∧ ∀ r, idivPromoted u v q = .ok r → r.Canonical := by
  obtain ⟨scale, w, x, hrun, hs, hw, hx, h1, h2⟩ := ebDiv_quotient hu hv
  have hlo := hw.lo
  have hhi := hw.hi
  have hs0 : 0 ≤ scale := by omega
  have hx0 : 0 ≤ x := le_trans (mul_nonneg (by exact_mod_cast (by omega : 0 ≤ w.val)) (by positivity)) h1
  have hfloor : truncTo 1 (a / b) = signed (u.sgn ^^ v.sgn) (⌊x⌋ : ℤ) := by
    rw [hx, truncTo_signed one_pos _ hx0, div_one, mul_one]
  rcases le_or_gt ((u.e : ℤ) - v.e + scale) 0 with hneg | hpos
  · -- the quotient is below one
    have hx1 : x < 1 := by
      refine lt_of_lt_of_le h2 ?_
      have hp : (10 : ℚ) ^ ((u.e : ℤ) - v.e + scale - 18) ≤ 10 ^ (-18 : ℤ) := zpow_le_zpow_right₀ (by norm_num) (by omega)
      have hw1 : (w.val : ℚ) + 1 ≤ 10 ^ (18 : ℤ) := by exact_mod_cast hhi
      calc ((w.val : ℚ) + 1) * 10 ^ ((u.e : ℤ) - v.e + scale - 18) ≤ 10 ^ (18 : ℤ) * 10 ^ (-18 : ℤ) :=
            mul_le_mul hw1 hp (by positivity) (by positivity)
        _ = 1 := by norm_num
    have hzero : ⌊x⌋ = 0 := Int.floor_eq_zero_iff.mpr ⟨hx0, hx1⟩
    rw [hfloor, hzero, Int.cast_zero, signed_eq_zero.mpr rfl, truncSig_zero]
    have hres : idivPromoted u v q = .ok literalZero ∨
        idivPromoted u v q = .ok { literalZero with mvtype := { nm := true, int := true } } := by
      unfold idivPromoted
      by_cases hlt : (u.e : ℤ) - v.e + mvXbias < mvXbias
      · exact Or.inl (by rw [if_pos hlt])
      · right
        have he : (u.e : ℤ) - v.e + mvXbias + scale = mvXbias := by omega
        rw [if_neg hlt]
        simp only [hrun, he]
        cases (u.sgn ^^ v.sgn) <;> rfl
    rcases hres with h | h
    · rw [h]
      refine ⟨⟨literalZero_number, Or.inl ⟨Or.inl rfl, literalZero_numVal⟩⟩, ?_⟩
      rintro r hr
      cases hr
      exact literalZero_number.canonical_of_int rfl
    · have hnum : ({ literalZero with mvtype := { nm := true, int := true } } : Mval).Number := ⟨rfl, by decide⟩
      rw [h]
      refine ⟨⟨hnum, Or.inl ⟨Or.inl rfl, ?_⟩⟩, ?_⟩
      · rw [int_eq_zero_iff rfl]
        rfl
      · rintro r hr
        cases hr
        exact hnum.canonical_of_int rfl
  · have hexp : 0 ≤ (u.e : ℤ) - v.e := by omega
    obtain ⟨e, he⟩ : ∃ e : ℕ, (e : ℤ) = u.e - v.e + scale := ⟨((u.e : ℤ) - v.e + scale).toNat, by omega⟩
    have hg : (10 : ℚ) ^ ((u.e : ℤ) - v.e + scale - 18) = 10 ^ ((e : ℤ) - 18) := by rw [← he]
    rw [hg] at h1 h2
    have hfinal : ∀ w' : Mantissa, w'.Normal → truncSig 10 18 (signed (u.sgn ^^ v.sgn) (⌊x⌋ : ℤ)) =
        signed (u.sgn ^^ v.sgn) (w'.val * (10 : ℚ) ^ ((e : ℤ) - 18)) →
          idivTruncate { q with m1 := w.m1, m0 := w.m0 } (e + mvXbias) = { q with m1 := w'.m1, m0 := w'.m0 } →
          Stored (truncSig 10 18 (truncTo 1 (a / b))) (idivPromoted u v q) ∧ ∀ r, idivPromoted u v q = .ok r → r.Canonical := by
      intro w' hw' hval htr
      have hexp' : (u.e : ℤ) - v.e + mvXbias + scale = e + mvXbias := by omega
      rw [hfloor, hval, idivPromoted_eq hrun hexp hs0 (by rw [hexp']; exact htr), hexp',
        show (e : ℤ) - 18 = e + mvXbias - mvXbias - 18 by ring]
      exact mulStore_stored hw' _ _ q
    rcases lt_or_ge e 18 with hsmall | hbig
    · obtain ⟨w', htr, hw', hval⟩ := idivTruncate_spec hw q (by omega) hsmall
      apply hfinal w' hw' _ htr
      have hscale : (10 : ℚ) ^ ((e : ℤ) - 18) = 1 / (10 ^ (18 - e) : ℤ) := by
        rw [show (e : ℤ) - 18 = -((18 - e : ℕ) : ℤ) by omega, zpow_neg, zpow_natCast]
        push_cast
        rw [one_div]
      have hZ : (0 : ℤ) < 10 ^ (18 - e) := by positivity
      have hI : ⌊x⌋ = w.val / 10 ^ (18 - e) := by
        have hZq : (0 : ℚ) < (10 ^ (18 - e) : ℤ) := by exact_mod_cast hZ
        rw [hscale, mul_one_div] at h1 h2
        rw [Int.floor_eq_iff]
        constructor
        · refine le_trans ?_ h1
          rw [le_div_iff₀ hZq]
          exact_mod_cast Int.ediv_mul_le w.val hZ.ne'
        · refine lt_of_lt_of_le h2 ?_
          rw [div_le_iff₀ hZq]
          exact_mod_cast Int.lt_ediv_add_one_mul_self w.val hZ
      have hlo' := hw'.lo
      have hsame : ((⌊x⌋ : ℤ) : ℚ) = w'.val * (10 : ℚ) ^ ((e : ℤ) - 18) := by
        rw [hI, hval, hscale]
        push_cast
        field_simp
      rw [hsame]
      exact (truncSig_of_mantissa (B := 10) (by norm_num) (n := 18) (u.sgn ^^ v.sgn) (by omega) (by exact_mod_cast hw'.hi)).2
    · apply hfinal w hw
      · obtain ⟨k, hk⟩ : ∃ k : ℕ, (e : ℤ) - 18 = k := ⟨e - 18, by omega⟩
        have hint : (w.val : ℚ) * 10 ^ ((e : ℤ) - 18) = ((w.val * 10 ^ k : ℤ) : ℚ) := by
          rw [hk, zpow_natCast]
          push_cast
          ring
        refine (truncSig_eq (B := 10) (by norm_num) (n := 18) (u.sgn ^^ v.sgn) (by omega) (by exact_mod_cast hhi) ?_ ?_).2
        · rw [Nat.cast_ofNat, Nat.cast_ofNat, hint]
          rw [hint] at h1
          exact_mod_cast Int.le_floor.mpr h1
        · exact lt_of_le_of_lt (Int.floor_le x) h2
      · have hge : ¬ (e : ℤ) + mvXbias ≤ mvXbias ∧ ¬ (e : ℤ) + mvXbias < expIdxBial ∧ ¬ (e : ℤ) + mvXbias < expIdxBiaq := by
          simp only [expIdxBial, expIdxBiaq]
          omega
        unfold idivTruncate
        rw [if_neg hge.1, if_neg hge.2.1, if_neg hge.2.2]

end NumberPromoteAux

end Gtm
