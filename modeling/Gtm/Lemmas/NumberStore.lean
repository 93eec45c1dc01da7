import Gtm.Lemmas.EbMuldiv
import Gtm.Lemmas.NumberRoundTrip
import Gtm.Lib.Truncation
import Gtm.Numeric.Arith

/-!
# Numbers in and out of extended precision

The value of an mval as a sign, a mantissa of 18 digits and an exponent, which numbers fit an `MV_INT`, and what is stored for a
normalised mantissa: the number as an `MV_INT` where it fits, zero below the least exponent, and an error from the highest on.
-/

namespace Gtm

open Limbs EbMulAux Truncation NumberRoundTripAux

/-- The number has the form of an `MV_INT`: thousandths below `MANT_HI`. -/
def FitsInt (q : ℚ) : Prop := ∃ m : ℤ, |m| < 1000000000 ∧ q = m / 1000

/-- A numeric mval in valid representation. -/
structure Mval.Number (v : Mval) : Prop where
  nm : v.mvtype.nm = true
  valid : v.NumValid

/-- A number that is an `MV_INT` wherever it fits one. -/
structure Mval.Canonical (v : Mval) : Prop extends v.Number where
  int_of_fits : FitsInt v.numVal → v.mvtype.int = true

/-- The outcome of a routine whose exact result, cut to 18 digits, is `q`. -/
def Stored (q : ℚ) : Except ArithErr Mval → Prop
  | .ok r => r.Number ∧
      ((q = 0 ∨ expOf 10 q < (expLo : ℤ) - mvXbias) ∧ r.numVal = 0 ∨
        ((expLo : ℤ) - mvXbias ≤ expOf 10 q ∧ expOf 10 q < (expHi : ℤ) - mvXbias) ∧ r.numVal = q)
  | .error err => err = .numoflow ∧ q ≠ 0 ∧ (expHi : ℤ) - mvXbias ≤ expOf 10 q

/-- An `MV_INT` of so many thousandths. -/
def thousandths (m : Int) : Mval := { mvtype := { nm := true, int := true }, m1 := m }

variable {v : Mval}

theorem forceNum_of_nm (h : v.mvtype.nm = true) : forceNum v = .ok v := by rw [forceNum, mvForceNum_of_nm h]

theorem Mval.Number.normal (hv : v.Number) (h : v.mvtype.int = false) : v.mant.Normal := by
  have hvalid := hv.valid
  unfold Mval.NumValid at hvalid
  rw [if_neg (by simp [h])] at hvalid
  obtain ⟨h1, h1', h0, h0', -, -⟩ := hvalid
  exact ⟨⟨by simp only [Mval.mant]; omega, h1', h0, h0'⟩, h1⟩

theorem Mval.Number.exp_bounds (hv : v.Number) (h : v.mvtype.int = false) : expLo ≤ v.e ∧ v.e < expHi := by
  have hvalid := hv.valid
  unfold Mval.NumValid at hvalid
  rw [if_neg (by simp [h])] at hvalid
  exact hvalid.2.2.2.2

theorem Mval.Number.int_bound (hv : v.Number) (h : v.mvtype.int = true) : |v.m1| < 1000000000 := by
  have hvalid := hv.valid
  unfold Mval.NumValid at hvalid
  rw [if_pos h] at hvalid
  rw [Int.abs_eq_natAbs]
  exact_mod_cast hvalid

theorem Mval.Number.canonical_of_int (hv : v.Number) (h : v.mvtype.int = true) : v.Canonical := ⟨hv, fun _ => h⟩

/-- A number is an `MV_INT` exactly when it fits one. -/
theorem Mval.Canonical.int_iff (hv : v.Canonical) : v.mvtype.int = true ↔ FitsInt v.numVal :=
  ⟨fun h => ⟨v.m1, hv.toNumber.int_bound h, numVal_int h⟩, hv.int_of_fits⟩

namespace NumberStoreAux

/-! ## Values -/

variable {v : Mval} {w : Mantissa} {exp : ℤ}

/-- The value of a number in extended precision. -/
theorem numVal_mant (h : v.mvtype.int = false) : v.numVal = signed v.sgn (v.mant.val * (10 : ℚ) ^ ((v.e : ℤ) - mvXbias - 18)) := by
  have hsplit : (10 : ℚ) ^ ((v.e : ℤ) - mvXbias - 18) = 10 ^ ((v.e : ℤ) - mvXbias) / 10 ^ 18 := by
    rw [zpow_sub₀ (by norm_num)]
    norm_num
  rw [Mval.numVal, if_neg (by simp [h]), hsplit]
  simp only [Mval.mant, Mantissa.val]
  cases v.sgn <;> simp only [signed] <;> push_cast <;> ring

/-- The exponent of a normalised mantissa. -/
theorem expOf_mant (h : w.Normal) (neg : Bool) (e : ℤ) : expOf 10 (signed neg (w.val * (10 : ℚ) ^ (e - 18))) = e := by
  have hlo := h.lo
  have hhi := h.hi
  exact (truncSig_of_mantissa (B := 10) (n := 18) (by norm_num) neg (by omega) (by exact_mod_cast hhi)).1

theorem mant_ne_zero (h : w.Normal) (neg : Bool) (e : ℤ) : signed neg (w.val * (10 : ℚ) ^ e) ≠ 0 := by
  have hlo := h.lo
  rw [Ne, signed_eq_zero]
  positivity

theorem expOf_number (hv : v.Number) (h : v.mvtype.int = false) : expOf 10 v.numVal = (v.e : ℤ) - mvXbias := by
  rw [numVal_mant h]
  exact expOf_mant (hv.normal h) _ _

theorem number_ne_zero (hv : v.Number) (h : v.mvtype.int = false) : v.numVal ≠ 0 := by
  rw [numVal_mant h]
  exact mant_ne_zero (hv.normal h) _ _

theorem int_eq_zero_iff (h : v.mvtype.int = true) : v.numVal = 0 ↔ v.m1 = 0 := by
  rw [numVal_int h]
  norm_num

theorem literalZero_number : literalZero.Number := ⟨rfl, by decide⟩

theorem literalZero_numVal : literalZero.numVal = 0 := by
  rw [numVal_int rfl]
  norm_num [literalZero]

/-- The exponent of a number of thousandths below `MANT_HI`. -/
theorem expOf_thousandths {m : ℤ} (hm : |m| < 1000000000) (hne : m ≠ 0) : -3 < expOf 10 ((m : ℚ) / 1000) ∧ expOf 10 ((m : ℚ) / 1000) ≤ 6 := by
  have habs : |(m : ℚ) / 1000| = (|m| : ℤ) / 1000 := by
    rw [abs_div, abs_of_pos (by norm_num : (0 : ℚ) < 1000), Int.cast_abs]
  have hq : (m : ℚ) / 1000 ≠ 0 := by
    positivity
  have hone : (1 : ℚ) ≤ (|m| : ℤ) := by exact_mod_cast Int.one_le_abs hne
  have hlt : ((|m| : ℤ) : ℚ) < 1000000000 := by exact_mod_cast hm
  constructor
  · apply lt_expOf_of_le (by norm_num) hq
    rw [habs]
    generalize |m| = k at hone hlt
    linarith
  · apply expOf_le_of_lt (by norm_num) hq
    rw [habs]
    generalize |m| = k at hone hlt
    linarith

/-- A stored number within the exponents has its exact value. -/
theorem stored_value {q : ℚ} {res : Except ArithErr Mval} (h : Stored q res)
    (hr : q = 0 ∨ (expLo : ℤ) - mvXbias ≤ expOf 10 q ∧ expOf 10 q < (expHi : ℤ) - mvXbias) : res.map Mval.numVal = .ok q := by
  cases res with
  | error err =>
    obtain ⟨-, hne, hhi⟩ := h
    rcases hr with rfl | hr
    · exact absurd rfl hne
    · omega
  | ok r =>
    obtain ⟨-, ⟨hzero, hval⟩ | ⟨-, hval⟩⟩ := h
    · have hq : q = 0 := by
        rcases hzero with hq | hlt
        · exact hq
        · rcases hr with hq | hr
          · exact hq
          · omega
      rw [hq, ← hval]
      rfl
    · rw [← hval]
      rfl

/-! ## Which mantissas fit an `MV_INT` -/

/-- A mantissa fits when its exponent is that of an `MV_INT` and the digits behind the thousandths are zeros. -/
theorem fitsInt_iff {N : ℤ} (hlo : 10 ^ 17 ≤ N) (hhi : N < 10 ^ 18) (neg : Bool) :
    FitsInt (signed neg (N * (10 : ℚ) ^ (exp - mvXbias - 18))) ↔
      (expIntUnderf < exp ∧ exp < expIntOverf) ∧ (10 : ℤ) ^ (77 - exp).toNat ∣ N := by
  have hscale : (10 : ℚ) ^ (exp - mvXbias - 18) = 10 ^ (exp - 77) / 1000 := by
    rw [show exp - (mvXbias : ℕ) - 18 = exp - 77 - 3 by simp only [mvXbias]; push_cast; ring, zpow_sub₀ (by norm_num)]
    norm_num
  have habs : ∀ m : ℤ, signed neg (N * (10 : ℚ) ^ (exp - mvXbias - 18)) = m / 1000 → (N : ℚ) * 10 ^ (exp - 77) = (|m| : ℤ) := by
    intro m hm
    have h := congrArg (fun x => |x|) hm
    simp only [abs_signed, hscale, abs_div, abs_mul] at h
    have hN : |(N : ℚ)| = N := abs_of_nonneg (by exact_mod_cast (by omega : 0 ≤ N))
    have hp : (0 : ℚ) < 10 ^ (exp - 77) := by positivity
    rw [hN, abs_of_pos hp, ← mul_div_assoc, ← Int.cast_abs] at h
    have := (div_left_inj' (by norm_num : (1000 : ℚ) ≠ 0)).mp h
    exact this
  have hloq : (10 : ℚ) ^ (17 : ℤ) ≤ N := by exact_mod_cast hlo
  have hhiq : (N : ℚ) < 10 ^ (18 : ℤ) := by exact_mod_cast hhi
  constructor
  · rintro ⟨m, hm, hq⟩
    have hv := habs m hq
    generalize |m| = a at hm hv
    have hp : (0 : ℚ) < 10 ^ (exp - 77) := by positivity
    have hmq : (a : ℚ) < 10 ^ (9 : ℤ) := by
      exact_mod_cast hm
    have h1 : (10 : ℚ) ^ (17 + (exp - 77)) < 10 ^ (9 : ℤ) := by
      rw [zpow_add₀ (by norm_num)]
      exact lt_of_le_of_lt (mul_le_mul_of_nonneg_right hloq hp.le) (hv ▸ hmq)
    have hpos : (0 : ℚ) < a := by
      rw [← hv]
      positivity
    have hone : (1 : ℚ) ≤ a := by
      have : (0 : ℤ) < a := by exact_mod_cast hpos
      exact_mod_cast this
    have h2 : (10 : ℚ) ^ (0 : ℤ) < 10 ^ (18 + (exp - 77)) := by
      rw [zpow_add₀ (by norm_num : (10 : ℚ) ≠ 0) 18]
      calc (1 : ℚ) ≤ a := hone
        _ = N * 10 ^ (exp - 77) := hv.symm
        _ < 10 ^ (18 : ℤ) * 10 ^ (exp - 77) := mul_lt_mul_of_pos_right hhiq hp
    have h3 := (zpow_lt_zpow_iff_right₀ (by norm_num : (1 : ℚ) < 10)).mp h1
    have h4 := (zpow_lt_zpow_iff_right₀ (by norm_num : (1 : ℚ) < 10)).mp h2
    refine ⟨by simp only [expIntUnderf, expIntOverf, mvXbias]; omega, ?_⟩
    refine ⟨a, ?_⟩
    have hexp : exp - 77 = -(((77 - exp).toNat : ℕ) : ℤ) := by omega
    rw [hexp, zpow_neg, ← div_eq_mul_inv, div_eq_iff (by positivity), mul_comm] at hv
    exact_mod_cast hv
  · rintro ⟨⟨h1, h2⟩, c, hc⟩
    simp only [expIntUnderf, expIntOverf, mvXbias] at h1 h2
    have hc0 : 0 ≤ c := by
      by_contra hneg
      have : (10 : ℤ) ^ (77 - exp).toNat * c ≤ 0 := mul_nonpos_of_nonneg_of_nonpos (by positivity) (by omega)
      omega
    have hclt : c < 1000000000 := by
      have hpow : (10 : ℤ) ^ 9 ≤ 10 ^ (77 - exp).toNat := pow_le_pow_right₀ (by norm_num) (by omega)
      by_contra hge
      have : (10 : ℤ) ^ 9 * 10 ^ 9 ≤ 10 ^ (77 - exp).toNat * c := mul_le_mul hpow (by omega) (by norm_num) (by positivity)
      omega
    have hval : (N : ℚ) * 10 ^ (exp - mvXbias - 18) = c / 1000 := by
      have hexp : exp - 77 = -(((77 - exp).toNat : ℕ) : ℤ) := by omega
      have hcq : (N : ℚ) = 10 ^ (77 - exp).toNat * c := by exact_mod_cast hc
      rw [hscale, hexp, zpow_neg, zpow_natCast, hcq]
      field_simp
    refine ⟨if neg then -c else c, ?_, ?_⟩
    · cases neg
      · simpa [abs_of_nonneg hc0] using hclt
      · simpa [abs_of_nonneg hc0] using hclt
    · rw [hval]
      cases neg
      · simp
      · simp [neg_div]

/-- The digits behind the thousandths are zeros when the low word is zero and the high word ends in zeros. -/
theorem dvd_words {m1 m0 : ℤ} (h0 : 0 ≤ m0) (h0' : m0 < 1000000000) (h1 : expIntUnderf < exp) (h2 : exp < expIntOverf) :
    (10 : ℤ) ^ (77 - exp).toNat ∣ m1 * 1000000000 + m0 ↔ m0 = 0 ∧ (tenPwr (expIntOverf - 1 - exp).toNat : ℤ) ∣ m1 := by
  simp only [expIntUnderf, expIntOverf, mvXbias] at h1 h2 ⊢
  obtain ⟨k, hk, -⟩ : ∃ k : ℕ, exp = 68 - k ∧ k ≤ 8 := ⟨(68 - exp).toNat, by omega, by omega⟩
  have e1 : (77 - exp).toNat = k + 9 := by omega
  have e2 : (7 + ((62 : ℕ) : ℤ) - 1 - exp).toNat = k := by omega
  rw [e1, e2, pow_add]
  simp only [tenPwr]
  push_cast
  constructor
  · rintro ⟨c, hc⟩
    have hm0 : m0 = 0 := by
      have : m0 = 1000000000 * (10 ^ k * c - m1) := by linear_combination hc
      omega
    subst hm0
    exact ⟨rfl, c, by linarith⟩
  · rintro ⟨rfl, c, hc⟩
    exact ⟨c, by rw [hc]; ring⟩

/-! ## Storing a mantissa -/

/-- The condition on the exponent and the words under which a mantissa is stored as an `MV_INT`. -/
theorem fitsInt_words (hw : w.Normal) (neg : Bool) : FitsInt (signed neg (w.val * (10 : ℚ) ^ (exp - mvXbias - 18))) ↔
      exp < expIntOverf ∧ expIntUnderf < exp ∧ w.m0 = 0 ∧ (tenPwr (expIntOverf - 1 - exp).toNat : ℤ) ∣ w.m1 := by
  rw [fitsInt_iff hw.lo hw.hi neg]
  constructor
  · rintro ⟨⟨h1, h2⟩, hd⟩
    exact ⟨h2, h1, (dvd_words hw.m0_nonneg hw.m0_lt h1 h2).mp hd⟩
  · rintro ⟨h2, h1, hd⟩
    exact ⟨⟨h1, h2⟩, (dvd_words hw.m0_nonneg hw.m0_lt h1 h2).mpr hd⟩

/-- The thousandths of a mantissa that fits. -/
theorem thousandths_value {m1 : ℤ} (h1 : expIntUnderf < exp) (h2 : exp < expIntOverf) (hd : (tenPwr (expIntOverf - 1 - exp).toNat : ℤ) ∣ m1) :
    ((m1 / (tenPwr (expIntOverf - 1 - exp).toNat : ℤ) : ℤ) : ℚ) / 1000 =
      ((m1 * 1000000000 + 0 : ℤ) : ℚ) * (10 : ℚ) ^ (exp - mvXbias - 18) := by
  simp only [expIntUnderf, expIntOverf, mvXbias, tenPwr] at *
  obtain ⟨k, hk⟩ : ∃ k : ℕ, exp = 68 - k := ⟨(68 - exp).toNat, by omega⟩
  have e2 : (7 + ((62 : ℕ) : ℤ) - 1 - exp).toNat = k := by omega
  rw [e2] at hd ⊢
  obtain ⟨c, rfl⟩ := hd
  have hpow : ((10 ^ k : ℕ) : ℤ) ≠ 0 := by positivity
  rw [Int.mul_ediv_cancel_left _ hpow, show exp - ((62 : ℕ) : ℤ) - 18 = -(k : ℤ) - 12 by omega, zpow_sub₀ (by norm_num),
    zpow_neg, zpow_natCast]
  push_cast
  field_simp
  ring

/-- What both ends of the arithmetic routines store for a normalised mantissa. -/
theorem stored_mantissa (hw : w.Normal) (sgn : Bool) {res : Except ArithErr Mval}
    (hint : exp < expIntOverf → expIntUnderf < exp → w.m0 = 0 → (tenPwr (expIntOverf - 1 - exp).toNat : ℤ) ∣ w.m1 →
      ∃ r, res = .ok r ∧ r.mvtype.nm = true ∧ r.mvtype.int = true ∧
        r.m1 = if sgn then -(w.m1 / (tenPwr (expIntOverf - 1 - exp).toNat : ℤ)) else w.m1 / (tenPwr (expIntOverf - 1 - exp).toNat : ℤ))
    (hhi : (expHi : ℤ) ≤ exp → res = .error .numoflow) (hlo : exp < expLo → res = .ok literalZero)
    (hrest : ¬(exp < expIntOverf ∧ expIntUnderf < exp ∧ w.m0 = 0 ∧ (tenPwr (expIntOverf - 1 - exp).toNat : ℤ) ∣ w.m1) →
      (expLo : ℤ) ≤ exp → exp < expHi →
        ∃ r, res = .ok r ∧ r.mvtype.nm = true ∧ r.mvtype.int = false ∧ r.sgn = sgn ∧ (r.e : ℤ) = exp ∧ r.mant = w) :
    Stored (signed sgn (w.val * (10 : ℚ) ^ (exp - mvXbias - 18))) res ∧ ∀ r, res = .ok r → r.Canonical := by
  have hexp : expOf 10 (signed sgn (w.val * (10 : ℚ) ^ (exp - mvXbias - 18))) = exp - mvXbias := expOf_mant hw sgn _
  have hne := mant_ne_zero hw sgn (exp - mvXbias - 18)
  by_cases hfit : exp < expIntOverf ∧ expIntUnderf < exp ∧ w.m0 = 0 ∧ (tenPwr (expIntOverf - 1 - exp).toNat : ℤ) ∣ w.m1
  · obtain ⟨h2, h1, h0, hd⟩ := hfit
    obtain ⟨r, rfl, hnm, hi, hm⟩ := hint h2 h1 h0 hd
    have hval : r.numVal = signed sgn (w.val * (10 : ℚ) ^ (exp - mvXbias - 18)) := by
      rw [numVal_int hi, hm]
      have hth := thousandths_value h1 h2 hd
      have hwv : w.val = w.m1 * 1000000000 + 0 := by rw [Mantissa.val, h0]
      rw [hwv, ← hth]
      cases sgn
      · simp
      · simp [neg_div]
    have hnum : r.Number := by
      refine ⟨hnm, ?_⟩
      unfold Mval.NumValid
      have h3 := hw.m1_lt
      have h4 := hw.m1_nonneg
      have h6 : w.m1 / (tenPwr (expIntOverf - 1 - exp).toNat : ℤ) ≤ w.m1 := Int.ediv_le_self _ h4
      have h7 : 0 ≤ w.m1 / (tenPwr (expIntOverf - 1 - exp).toNat : ℤ) := Int.ediv_nonneg h4 (by omega)
      simp only [mantHi]
      split <;> omega
    refine ⟨⟨hnum, Or.inr ⟨?_, hval⟩⟩, ?_⟩
    · simp only [expIntUnderf, expIntOverf, mvXbias, expLo, expHi] at *
      omega
    · rintro r' hr'
      cases hr'
      exact hnum.canonical_of_int hi
  · rcases le_or_gt (expHi : ℤ) exp with hov | hov
    · rw [hhi hov]
      refine ⟨⟨rfl, hne, by rw [hexp]; omega⟩, ?_⟩
      rintro r hr
      cases hr
    · rcases lt_or_ge exp (expLo : ℤ) with hun | hun
      · rw [hlo hun]
        refine ⟨⟨literalZero_number, Or.inl ⟨Or.inr (by rw [hexp]; omega), literalZero_numVal⟩⟩, ?_⟩
        rintro r hr
        cases hr
        exact literalZero_number.canonical_of_int rfl
      · obtain ⟨r, rfl, hnm, hi, hs, he, hm⟩ := hrest hfit hun hov
        have hval : r.numVal = signed sgn (w.val * (10 : ℚ) ^ (exp - mvXbias - 18)) := by
          rw [numVal_mant hi, hs, hm, he]
        have hnum : r.Number := by
          refine ⟨hnm, ?_⟩
          obtain ⟨⟨-, h1', h0, h0'⟩, h1⟩ := hw
          have hm1 : r.m1 = w.m1 := congrArg Mantissa.m1 hm
          have hm0 : r.m0 = w.m0 := congrArg Mantissa.m0 hm
          unfold Mval.NumValid
          rw [if_neg (by simp [hi]), hm0]
          simp only [mantLo, mantHi]
          omega
        refine ⟨⟨hnum, Or.inr ⟨by rw [hexp]; omega, hval⟩⟩, ?_⟩
        rintro r' hr'
        cases hr'
        refine ⟨hnum, fun hf => ?_⟩
        rw [hval, fitsInt_words hw] at hf
        exact absurd hf hfit

/-- The end of `op_mul` and `op_div`. -/
theorem mulStore_stored (hw : w.Normal) (sgn : Bool) (exp : ℤ) (p : Mval) :
    Stored (signed sgn (w.val * (10 : ℚ) ^ (exp - mvXbias - 18))) (mulStore sgn w exp p) ∧
      ∀ r, mulStore sgn w exp p = .ok r → r.Canonical := by
  have hpos := hw.m1_nonneg
  have hdvd : w.m1.tmod (tenPwr (expIntOverf - 1 - exp).toNat : ℤ) = 0 ↔ (tenPwr (expIntOverf - 1 - exp).toNat : ℤ) ∣ w.m1 :=
    (Int.dvd_iff_tmod_eq_zero).symm
  apply stored_mantissa hw
  · intro h2 h1 h0 hd
    have hrange : ¬ (expHi : ℤ) ≤ exp ∧ ¬ exp < (expLo : ℤ) ∧ exp ≠ 0 := by
      simp only [expIntUnderf, expIntOverf, mvXbias, expLo, expHi] at h1 h2 ⊢
      omega
    unfold mulStore
    rw [if_neg hrange.1, if_neg hrange.2.1, if_pos ⟨h2, h1, h0, hdvd.mpr hd⟩]
    refine ⟨_, rfl, rfl, rfl, ?_⟩
    simp only [demote]
    rw [if_neg hrange.2.2, Int.tdiv_neg, Int.tdiv_eq_ediv_of_nonneg hpos]
  · intro h
    unfold mulStore
    rw [if_pos h]
  · intro h
    have hhi : ¬ (expHi : ℤ) ≤ exp := by
      simp only [expLo, expHi] at h ⊢
      omega
    unfold mulStore
    rw [if_neg hhi, if_pos h]
  · intro hn hlo hhi
    unfold mulStore
    rw [← hdvd] at hn
    rw [if_neg (by omega), if_neg (by omega), if_neg hn]
    exact ⟨_, rfl, rfl, rfl, rfl, Int.toNat_of_nonneg (by omega), rfl⟩

/-- The end of `add_mvals`. -/
theorem addStore_stored (hw : w.Normal) (sgn : Bool) (exp : ℤ) (s : Mval) :
    Stored (signed sgn (w.val * (10 : ℚ) ^ (exp - mvXbias - 18))) (addStore sgn w exp s) ∧
      ∀ r, addStore sgn w exp s = .ok r → r.Canonical := by
  have hdvd : w.m1 / (tenPwr (expIntOverf - 1 - exp).toNat : ℤ) * (tenPwr (expIntOverf - 1 - exp).toNat : ℤ) = w.m1 ↔
      (tenPwr (expIntOverf - 1 - exp).toNat : ℤ) ∣ w.m1 :=
    ⟨fun h => ⟨_, by rw [mul_comm]; exact h.symm⟩, Int.ediv_mul_cancel⟩
  apply stored_mantissa hw
  · intro h2 h1 h0 hd
    unfold addStore
    rw [if_pos ⟨⟨h2, h1, h0⟩, hdvd.mpr hd⟩]
    exact ⟨_, rfl, rfl, rfl, rfl⟩
  · intro h
    unfold addStore
    have hint : ¬ exp < expIntOverf := by
      simp only [expIntOverf, expHi, mvXbias] at h ⊢
      omega
    rw [if_neg fun hc => hint hc.1.1, if_pos h]
  · intro h
    unfold addStore
    have hint : ¬ expIntUnderf < exp ∧ ¬ (expHi : ℤ) ≤ exp := by
      simp only [expIntUnderf, expLo, expHi, mvXbias] at h ⊢
      omega
    rw [if_neg fun hc => hint.1 hc.1.2.1, if_neg hint.2, if_pos h]
  · intro hn hlo hhi
    unfold addStore
    rw [if_neg (by tauto), if_neg (by omega), if_neg (by omega)]
    exact ⟨_, rfl, rfl, rfl, rfl, Int.toNat_of_nonneg (by omega), rfl⟩

end NumberStoreAux

end Gtm
