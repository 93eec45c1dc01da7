import Gtm.Theorems.IntShortcuts
import Gtm.Theorems.NumberForms
import Gtm.Theorems.SubscriptOrder

/-!
# Numbers in either form

The integer quotient on both of its paths, the comparison of two numbers and the bytes of a numeric subscript depend on the values
of the operands only, whether these are `MV_INT`s or in extended precision.
-/

namespace Gtm

open Truncation NumberRoundTripAux NumberStoreAux NumberPromoteAux NumberFormsAux SubscriptOrderAux

/-- `numcmp` puts the first number at or below the second. -/
def NumLe (u v : Mval) : Prop := ∃ c, numcmp u v = .ok c ∧ c ≤ 0

/-- An outcome with the same value is stored as well. -/
theorem Stored.congr {q : ℚ} {res res' : Except ArithErr Mval} (h : Stored q res) (heq : res'.map Mval.numVal = res.map Mval.numVal)
    (hnum : ∀ r, res' = .ok r → r.Number) : Stored q res' := by
  cases res with
  | error err =>
    cases res' with
    | error err' =>
      cases heq
      exact h
    | ok r' => cases heq
  | ok r =>
    cases res' with
    | error err' => cases heq
    | ok r' =>
      have hval : r'.numVal = r.numVal := Except.ok.inj heq
      refine ⟨hnum r' rfl, ?_⟩
      rw [hval]
      exact h.2

namespace NumberOrderAux

/-! ## The integer quotient -/

/-- `op_idiv` behind the promotion of its operands. -/
theorem idivPromoted_either {u v : Mval} (hu : u.Number) (hv : v.Number) (hne : v.numVal ≠ 0) (q : Mval) :
    Stored (truncSig 10 18 (truncTo 1 (u.numVal / v.numVal))) (idivPromoted (promoteInt u) (promoteInt v) q) := by
  have hy := promoteInt_extended hv hne
  by_cases hu0 : u.numVal = 0
  · have hui := int_of_zero hu hu0
    have hz : promoteInt u = literalZero := (promoteInt_of_int hui).trans (promote_zero ((int_eq_zero_iff hui).mp hu0))
    have hlo := hy.exp_lo
    have he : (promoteInt u).e < (promoteInt v).e := by
      rw [hz]
      exact lt_of_lt_of_le (by decide) hlo
    rw [idivPromoted_below he, hu0, zero_div, truncTo_zero, truncSig_zero]
    exact ⟨literalZero_number, Or.inl ⟨Or.inl rfl, literalZero_numVal⟩⟩
  · exact (idivPromoted_stored (promoteInt_extended hu hu0) hy q).1

/-! ## Comparison -/

/-- A number in extended precision with the smaller exponent is the smaller one. -/
theorem abs_lt_of_exp {u v : Mval} {a b : ℚ} (hu : Extended u a) (hv : Extended v b) (h : u.e < v.e) : |a| < |b| := by
  have hea : expOf 10 a = (u.e : ℤ) - mvXbias := by
    rw [← hu.value, numVal_mant hu.int]
    exact expOf_mant hu.normal _ _
  have heb : expOf 10 b = (v.e : ℤ) - mvXbias := by
    rw [← hv.value, numVal_mant hv.int]
    exact expOf_mant hv.normal _ _
  have hna : a ≠ 0 := by
    rw [← hu.value, numVal_mant hu.int]
    exact mant_ne_zero hu.normal _ _
  have hnb : b ≠ 0 := by
    rw [← hv.value, numVal_mant hv.int]
    exact mant_ne_zero hv.normal _ _
  calc |a| < (10 : ℕ) ^ expOf 10 a := (expOf_le (B := 10) (by norm_num) hna).2
    _ ≤ (10 : ℕ) ^ (expOf 10 b - 1) := zpow_le_zpow_right₀ (by norm_num) (by omega)
    _ ≤ |b| := (expOf_le (B := 10) (by norm_num) hnb).1

/-- Behind one exponent the mantissas decide. -/
theorem abs_lt_of_mant {u v : Mval} {a b : ℚ} (hu : Extended u a) (hv : Extended v b) (he : u.e = v.e) :
    |a| < |b| ↔ u.mant.val < v.mant.val := by
  have habs : ∀ {w : Mval} {q : ℚ}, Extended w q → |q| = w.mant.val * (10 : ℚ) ^ ((w.e : ℤ) - mvXbias - 18) := by
    intro w q hw
    have hlo := hw.normal.lo
    rw [← hw.value, numVal_mant hw.int, abs_signed, abs_of_pos (by positivity)]
  rw [habs hu, habs hv, he, mul_lt_mul_iff_left₀ (by positivity)]
  exact Int.cast_lt

theorem sign_of_lt {a b : ℚ} (h : a < b) : (SignType.sign (a - b) : ℤ) = -1 := by
  rw [sign_neg (by linarith)]
  rfl

theorem sign_of_gt {a b : ℚ} (h : b < a) : (SignType.sign (a - b) : ℤ) = 1 := by
  rw [sign_pos (by linarith)]
  rfl

/-- The words of two numbers of one sign compare as the magnitudes do. -/
theorem numcmpWords_spec {u v : Mval} {a b : ℚ} (hu : Extended u a) (hv : Extended v b) (sgn : ℤ) :
    numcmpWords sgn u v = sgn * (SignType.sign (|a| - |b|) : ℤ) := by
  obtain ⟨⟨-, -, hu0, hu0'⟩, hu1⟩ := hu.normal
  obtain ⟨⟨-, -, hv0, hv0'⟩, -⟩ := hv.normal
  have hmant := fun he => abs_lt_of_mant hu hv he
  have hmant' := fun he => abs_lt_of_mant hv hu he
  have habs : u.e = v.e → u.mant.val = v.mant.val → |a| = |b| := by
    intro he hm
    have h1 := mt (hmant he).mp (by omega)
    have h2 := mt (hmant' he.symm).mp (by omega)
    exact le_antisymm (not_lt.mp h2) (not_lt.mp h1)
  simp only [Mval.mant, Mantissa.val] at *
  unfold numcmpWords
  split
  · next h => rw [sign_of_lt (abs_lt_of_exp hu hv h), mul_neg_one]
  · split
    · next h => rw [sign_of_gt (abs_lt_of_exp hv hu h), mul_one]
    · have he : u.e = v.e := by omega
      split
      · rw [sign_of_lt ((hmant he).mpr (by omega)), mul_neg_one]
      · split
        · rw [sign_of_gt ((hmant' he.symm).mpr (by omega)), mul_one]
        · rw [if_neg (by omega)]
          split
          · rw [sign_of_lt ((hmant he).mpr (by omega)), mul_neg_one]
          · split
            · rw [sign_of_gt ((hmant' he.symm).mpr (by omega)), mul_one]
            · rw [habs he (by omega)]
              simp

/-- The sign of a number in extended precision. -/
theorem extended_sign {u : Mval} {a : ℚ} (hu : Extended u a) : if u.sgn then a < 0 else 0 < a := by
  have hlo := hu.normal.lo
  have hpos : (0 : ℚ) < u.mant.val * (10 : ℚ) ^ ((u.e : ℤ) - mvXbias - 18) := by
    positivity
  rw [← hu.value, numVal_mant hu.int]
  cases u.sgn
  · simpa using hpos
  · simpa using hpos

/-- `numcmp` on numbers of which one is not an `MV_INT`. -/
theorem numcmpNums_spec {u v : Mval} (hu : u.Number) (hv : v.Number) (hints : ¬ (u.mvtype.int ∧ v.mvtype.int)) :
    numcmpNums u v = (SignType.sign (u.numVal - v.numVal) : ℤ) := by
  have hrun := numcmpNums_promoted hints
  rw [hrun]
  have hzero : ∀ {w : Mval}, w.Number → w.numVal = 0 → promoteInt w = literalZero := fun hw h =>
    (promoteInt_of_int (int_of_zero hw h)).trans (promote_zero ((int_eq_zero_iff (int_of_zero hw h)).mp h))
  by_cases hu0 : u.numVal = 0
  · have hv0 : v.numVal ≠ 0 := fun h => hints ⟨int_of_zero hu hu0, int_of_zero hv h⟩
    have hy := promoteInt_extended hv hv0
    have hsgn := extended_sign hy
    have hlo := hy.exp_lo
    rw [hzero hu hu0, hu0]
    generalize promoteInt v = y at *
    have he : literalZero.e < y.e := by
      exact lt_of_lt_of_le (by decide) hlo
    cases hs : y.sgn with
    | true =>
      rw [hs] at hsgn
      rw [sign_of_gt hsgn]
      rfl
    | false =>
      rw [hs] at hsgn
      rw [sign_of_lt hsgn, numcmpWords, if_pos he]
      rfl
  · have hx := promoteInt_extended hu hu0
    have hsx := extended_sign hx
    by_cases hv0 : v.numVal = 0
    · have hlo := hx.exp_lo
      rw [hzero hv hv0, hv0]
      generalize promoteInt u = x at *
      have he : literalZero.e < x.e := by
        exact lt_of_lt_of_le (by decide) hlo
      cases hs : x.sgn with
      | true =>
        rw [hs] at hsx
        rw [sign_of_lt hsx]
        rfl
      | false =>
        rw [hs] at hsx
        rw [sign_of_gt hsx, if_neg (by decide), numcmpWords, if_pos he]
        rfl
    · have hy := promoteInt_extended hv hv0
      have hsy := extended_sign hy
      have hwords := fun sgn => numcmpWords_spec hx hy sgn
      generalize promoteInt u = x at *
      generalize promoteInt v = y at *
      cases hs : x.sgn <;> cases ht : y.sgn
      · rw [hs] at hsx
        rw [ht] at hsy
        rw [hwords, abs_of_pos hsx, abs_of_pos hsy]
        simp
      · rw [hs] at hsx
        rw [ht] at hsy
        rw [sign_of_gt (hsy.trans hsx)]
        rfl
      · rw [hs] at hsx
        rw [ht] at hsy
        rw [sign_of_lt (hsx.trans hsy)]
        rfl
      · rw [hs] at hsx
        rw [ht] at hsy
        rw [if_neg (by simp), hwords, abs_of_neg hsx, abs_of_neg hsy, show -u.numVal - -v.numVal = -(u.numVal - v.numVal) by ring,
          Left.sign_neg]
        simp

/-- `numcmp` gives the sign of the difference. -/
theorem numcmp_sign {u v : Mval} (hu : u.Number) (hv : v.Number) : numcmp u v = .ok (SignType.sign (u.numVal - v.numVal) : ℤ) := by
  have hrun : numcmp u v = .ok (numcmpNums u v) := by
    unfold numcmp
    rw [mvForceNum_of_nm hu.nm, mvForceNum_of_nm hv.nm]
    rfl
  rw [hrun]
  by_cases hints : u.mvtype.int ∧ v.mvtype.int
  · have hdiff : u.numVal - v.numVal = ((u.m1 - v.m1 : ℤ) : ℚ) / 1000 := by
      rw [numVal_int hints.1, numVal_int hints.2]
      push_cast
      ring
    unfold numcmpNums
    rw [if_pos (by simpa using hints)]
    rcases lt_trichotomy u.m1 v.m1 with h | h | h
    · have hlt : u.numVal < v.numVal := by
        rw [numVal_int hints.1, numVal_int hints.2]
        have : (u.m1 : ℚ) < v.m1 := by exact_mod_cast h
        linarith
      rw [if_neg (by omega), if_neg (by omega), sign_of_lt hlt]
    · rw [hdiff, h, if_neg (lt_irrefl _), if_pos rfl]
      simp
    · have hgt : v.numVal < u.numVal := by
        rw [numVal_int hints.1, numVal_int hints.2]
        have : (v.m1 : ℚ) < u.m1 := by exact_mod_cast h
        linarith
      rw [if_pos h, sign_of_gt hgt]
  · rw [numcmpNums_spec hu hv hints]

/-! ## Subscripts -/

/-- Two numbers of one value have the same subscript bytes. -/
theorem numSubsc_congr {u w : Mval} (hu : u.NumValid) (hw : w.NumValid) (h : w.numVal = u.numVal) : numSubsc w = numSubsc u :=
  (encodes_eq_iff (numSubsc_encodes false w hw) (numSubsc_encodes false u hu)).mpr (by rw [h])

end NumberOrderAux

open NumberOrderAux

/-- The integer quotient of two numbers in any form: the exact quotient cut to an integer and to 18 digits, in canonical form. -/
theorem opIdiv_truncates {u v : Mval} (hu : u.Number) (hv : v.Number) (hne : v.numVal ≠ 0) (q : Mval) :
    Stored (truncSig 10 18 (truncTo 1 (u.numVal / v.numVal))) (opIdiv u v q) ∧ ∀ r, opIdiv u v q = .ok r → r.Canonical := by
  have hcan : ∀ r, opIdiv u v q = .ok r → r.Canonical := fun r h => opIdiv_canonical hu hv h
  refine ⟨?_, hcan⟩
  have hpromoted := idivPromoted_either hu hv hne q
  have hdiv : ¬ (v.mvtype.int ∧ v.m1 = 0) := fun h => hne ((int_eq_zero_iff h.1).mpr h.2)
  by_cases hints : u.mvtype.int ∧ v.mvtype.int
  · have hm : v.m1 ≠ 0 := fun h => hdiv ⟨hints.2, h⟩
    rw [promoteInt_of_int hints.1, promoteInt_of_int hints.2] at hpromoted
    exact hpromoted.congr (IntShortcutsAux.idiv_same hu hints.1 hv hints.2 hm q) fun r h => (hcan r h).toNumber
  · rw [opIdiv_of_nm hu.nm hv.nm q hdiv, if_neg hints]
    exact hpromoted

theorem opIdiv_truncates_sevenths : Stored (truncSig 10 18 (truncTo 1 ((thousandths 50000).numVal / (thousandths (-7000)).numVal)))
    (opIdiv (thousandths 50000) (thousandths (-7000)) literalZero) :=
  (opIdiv_truncates ⟨rfl, by decide⟩ ⟨rfl, by decide⟩ (by rw [numVal_int rfl]; norm_num [thousandths]) literalZero).1

/-- `numcmp` on two numbers in any form is the sign of the difference of their values, and orders the numbers totally. -/
theorem numcmp_total_order {u v w : Mval} (hu : u.Number) (hv : v.Number) (hw : w.Number) :
    numcmp u v = .ok (SignType.sign (u.numVal - v.numVal) : ℤ) ∧ (NumLe u v ∨ NumLe v u) ∧
      (NumLe u v → NumLe v u → u.numVal = v.numVal) ∧ (NumLe u v → NumLe v w → NumLe u w) := by
  have hle : ∀ {a b : Mval}, a.Number → b.Number → (NumLe a b ↔ a.numVal ≤ b.numVal) := by
    intro a b ha hb
    unfold NumLe
    rw [numcmp_sign ha hb]
    constructor
    · rintro ⟨c, hc, h0⟩
      cases hc
      by_contra hlt
      rw [sign_of_gt (not_le.mp hlt)] at h0
      omega
    · intro h
      rcases lt_or_eq_of_le h with h | h
      · exact ⟨_, rfl, by rw [sign_of_lt h]; omega⟩
      · exact ⟨_, rfl, by rw [h, sub_self]; simp⟩
  rw [hle hu hv, hle hv hu, hle hv hw, hle hu hw]
  exact ⟨numcmp_sign hu hv, le_total _ _, le_antisymm, le_trans⟩

theorem numcmp_total_order_mixed : numcmp (thousandths 1500) { mvtype := { nm := true }, sgn := true, e := 70, m1 := 123456789 } =
    .ok (SignType.sign ((thousandths 1500).numVal -
      Mval.numVal { mvtype := { nm := true }, sgn := true, e := 70, m1 := 123456789 }) : ℤ) :=
  (numcmp_total_order (w := thousandths 0) ⟨rfl, by decide⟩ ⟨rfl, by decide⟩ ⟨rfl, by decide⟩).1

/-- The two branches of `mval2subsc` for numbers give the same bytes for an `MV_INT` and for the same number in extended precision,
of which `promote` makes one. -/
theorem mval2subsc_either_form {u : Mval} (hu : u.Number) (hui : u.mvtype.int = true) : numSubsc (promote u) = numSubsc u ∧
    ∀ w : Mval, w.Number → w.mvtype.int = false → w.numVal = u.numVal → numSubsc w = numSubsc u ∧
      ∀ (coll : Collation) (k : GvKey) (std : Bool), ¬ (coll.transform ∧ coll.nct) → u.mvtype.numApprox = false →
        w.mvtype.numApprox = false → mval2subsc coll w k std = mval2subsc coll u k std := by
  refine ⟨?_, fun w hw _ h => ?_⟩
  · by_cases h0 : u.m1 = 0
    · rw [promote_zero h0]
      exact numSubsc_congr hu.valid literalZero_number.valid (by rw [literalZero_numVal, (int_eq_zero_iff hui).mpr h0])
    · have hx := (promote_extended hu hui h0).1
      have hvalid : (promote u).NumValid := by
        have h1 := hx.normal.m1_lead
        have h2 := hx.normal.m1_lt
        have h3 := hx.normal.m0_nonneg
        have h4 := hx.normal.m0_lt
        unfold Mval.NumValid
        rw [if_neg (by simp [hx.int])]
        exact ⟨h1, h2, h3, h4, hx.exp_lo, hx.exp_hi⟩
      exact numSubsc_congr hu.valid hvalid hx.value
  · have hbytes := numSubsc_congr hu.valid hw.valid h
    refine ⟨hbytes, fun coll k std hcoll hua hwa => ?_⟩
    have hsame : ∀ {v : Mval}, v.Number → subscMval coll v = .ok v := by
      intro v hv
      unfold subscMval
      rw [if_neg hcoll, if_pos (Or.inl hv.nm)]
    unfold mval2subsc
    rw [hsame hu, hsame hw]
    simp only [hua, hwa, Bool.false_eq_true, if_false, hbytes]

theorem mval2subsc_either_form_hundred : numSubsc (promote (thousandths (-100000))) = numSubsc (thousandths (-100000)) :=
  (mval2subsc_either_form ⟨rfl, by decide⟩ rfl).1

end Gtm
