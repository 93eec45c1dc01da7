import Gtm.Lemmas.IntShortcut

/-!
# The shortcuts for two `MV_INT`s against the general paths

`op_mul` and `op_idiv` give the same value on both ways. `op_div` does not always: a remainder of one thousandth's share can vanish
in the `double`, and the quotient is then taken for one without a fraction.
-/

namespace Gtm

open Truncation NumberRoundTripAux NumberStoreAux NumberPromoteAux IntShortcutAux

/-- The routines on two `MV_INT`s give the value that the promoted operands give. -/
structure SameAsPromoted (u v p : Mval) : Prop where
  mul : (opMul u v p).map Mval.numVal = (mulPromoted (promote u) (promote v) p).map Mval.numVal
  idiv : v.m1 ≠ 0 → (opIdiv u v p).map Mval.numVal = (idivPromoted (promote u) (promote v) p).map Mval.numVal
  div : v.m1 ≠ 0 → (opDiv u v p).map Mval.numVal = (divPromoted (promote u) (promote v) p).map Mval.numVal

/-- A fraction of the quotient in thousandths shows in the `double`: the remainder is not one, or the divisor stays below the bound
that the places behind the point leave. -/
def FractionKept (u v : ℤ) : Prop :=
  1000 * |u| % |v| = 1 →
    (2 * (2 ^ fractionPlaces (1000 * |u| / |v|) / 1000000000) + 1) * |v| ≤ 2 ^ (fractionPlaces (1000 * |u| / |v|) + 1)

namespace IntShortcutsAux

/-! ## Thousandths within the range -/

/-- Thousandths are stored as they are. -/
theorem stored_thousandths {m : ℤ} (hm : |m| < 1000000000) {res : Except ArithErr Mval}
    (h : Stored (truncSig 10 18 ((m : ℚ) / 1000)) res) : res.map Mval.numVal = .ok ((m : ℚ) / 1000) := by
  rcases eq_or_ne m 0 with rfl | hne
  · rw [Int.cast_zero, zero_div, truncSig_zero] at h
    rw [Int.cast_zero, zero_div]
    exact stored_value h (Or.inl rfl)
  · obtain ⟨h1, h2⟩ := expOf_thousandths hm hne
    rw [truncSig_of_multiple (B := 10) (by norm_num) (N := m) (j := -3) (by norm_num [div_eq_mul_inv]) (by omega)] at h
    apply stored_value h
    right
    simp only [expLo, expHi, mvXbias]
    omega

/-- A quotient with a remainder in thousandths is above the integer quotient, and what is cut off behind 18 digits does not hide
it. -/
theorem quotient_above {a b : ℤ} (ha : 0 < a) (hap : a < 1000000000000) (hb : 0 < b) (hmod : 1 ≤ a % b) {x : ℚ}
    (hx : |x| = (a : ℚ) / b / 1000) : ((a / b : ℤ) : ℚ) / 1000 < |truncSig 10 18 x| := by
  have hbq : (0 : ℚ) < b := by exact_mod_cast hb
  have hapq : (a : ℚ) < 1000000000000 := by exact_mod_cast hap
  have hmodq : (1 : ℚ) ≤ (a % b : ℤ) := by exact_mod_cast hmod
  have hne : x ≠ 0 := by
    rintro rfl
    have : (0 : ℚ) < a / b / 1000 := by positivity
    linarith
  have hpow : ((10 : ℕ) : ℚ) ^ (1 - ((18 : ℕ) : ℤ)) = 1 / 10 ^ 17 := by norm_num
  have hcut := (truncSig_bounds (B := 10) (by norm_num) 18 hne).2
  have hsplit : (a : ℚ) = (a / b : ℤ) * b + (a % b : ℤ) := by exact_mod_cast (Int.ediv_mul_add_emod a b).symm
  have hsmall : |x| * (1 / 10 ^ 17) ≤ 1 / b / 1000 := by
    rw [hx, div_mul_eq_mul_div, div_mul_eq_mul_div]
    apply div_le_div_of_nonneg_right _ (by norm_num)
    apply div_le_div_of_nonneg_right _ hbq.le
    linarith
  have hfrac : ((a / b : ℤ) : ℚ) / 1000 + 1 / b / 1000 ≤ |x| := by
    rw [hx, ← add_div]
    apply div_le_div_of_nonneg_right _ (by norm_num)
    rw [le_div_iff₀ hbq, add_mul, one_div_mul_cancel hbq.ne']
    linarith
  rw [hpow] at hcut
  linarith

/-! ## The three routines -/

section Shortcuts

variable {u v : Mval} (hu : u.Number) (hui : u.mvtype.int = true) (hv : v.Number) (hvi : v.mvtype.int = true)
include hu hui hv hvi

/-- The product in thousandths is that of the promoted operands. -/
theorem mul_same (p : Mval) : (opMul u v p).map Mval.numVal = (mulPromoted (promote u) (promote v) p).map Mval.numVal := by
  rw [opMul_of_nm hu.nm hv.nm, if_pos ⟨hui, hvi⟩]
  unfold promoteInt
  rw [if_pos hui, if_pos hvi]
  cases hrun : ebIntMul u.m1 v.m1 with
  | none => rfl
  | some w =>
    obtain ⟨hprod, hlt⟩ := ebIntMul_some hrun
    have hres : (Except.ok (intResult w p)).map Mval.numVal = (Except.ok ((w.m1 : ℚ) / 1000) : Except ArithErr ℚ) :=
      congrArg Except.ok (numVal_int rfl)
    have hprodq : (u.m1 : ℚ) / 1000 * (v.m1 / 1000) = w.m1 / 1000 := by
      have : (u.m1 : ℚ) * v.m1 = 1000 * w.m1 := by exact_mod_cast hprod
      field_simp
      linarith
    change (Except.ok (intResult w p)).map Mval.numVal = _
    rw [hres]
    by_cases hzero : u.m1 = 0 ∨ v.m1 = 0
    · -- a zero operand: the promoted product has an exponent below the least
      have hw : w.m1 = 0 := by
        rcases hzero with h | h <;> rw [h] at hprod <;> omega
      obtain ⟨hwu, heu, hzu⟩ := promote_words hu hui
      obtain ⟨hwv, hev, hzv⟩ := promote_words hv hvi
      have hval : (promote u).mant.val * (promote v).mant.val = 0 ∧ (promote u).e + (promote v).e < expLo + mvXbias + 1 := by
        simp only [expLo, mvXbias]
        rcases hzero with h | h
        · rw [(hzu h).1]
          exact ⟨zero_mul _, by omega⟩
        · rw [(hzv h).1]
          exact ⟨mul_zero _, by omega⟩
      rw [mulPromoted_zero hwu hwv hval.1 hval.2, hw, Int.cast_zero, zero_div]
      exact (congrArg Except.ok literalZero_numVal).symm
    · rw [not_or] at hzero
      have hst := (mulPromoted_stored (promote_nonzero hu hui hzero.1).1 (promote_nonzero hv hvi hzero.2).1 p).1
      rw [hprodq] at hst
      exact (stored_thousandths hlt hst).symm

variable (hne : v.m1 ≠ 0)
include hne

/-- The integer quotient is that of the promoted operands. -/
theorem idiv_same (q : Mval) : (opIdiv u v q).map Mval.numVal = (idivPromoted (promote u) (promote v) q).map Mval.numVal := by
  rw [opIdiv_of_nm hu.nm hv.nm q fun h => hne h.2, if_pos ⟨hui, hvi⟩]
  unfold promoteInt
  rw [if_pos hui, if_pos hvi]
  cases hrun : ebIntDiv u.m1 v.m1 with
  | none => rfl
  | some w =>
    have hquot := quotient_signed v.m1 (hu.int_bound hui)
    generalize (decide (u.m1 < 0) ^^ decide (v.m1 < 0)) = neg at hquot
    obtain ⟨hlt, hm1⟩ := ebIntDiv_some hquot (hu.int_bound hui) hne hrun
    have hb : 0 < |v.m1| := abs_pos.mpr hne
    have hres : (Except.ok (intResult w q)).map Mval.numVal = (Except.ok ((w.m1 : ℚ) / 1000) : Except ArithErr ℚ) :=
      congrArg Except.ok (numVal_int rfl)
    change (Except.ok (intResult w q)).map Mval.numVal = _
    rw [hres]
    rcases eq_or_ne u.m1 0 with hzero | hzero
    · have hw : w.m1 = 0 := by
        rw [hm1, hzero]
        simp
      obtain ⟨-, -, hzu⟩ := promote_words hu hui
      obtain ⟨-, -, hev⟩ := promote_nonzero hv hvi hne
      rw [idivPromoted_below (by rw [(hzu hzero).2]; omega), hw, Int.cast_zero, zero_div]
      exact (congrArg Except.ok literalZero_numVal).symm
    · have hst := (idivPromoted_stored (promote_nonzero hu hui hzero).1 (promote_nonzero hv hvi hne).1 q).1
      have hexact : (u.m1 : ℚ) / 1000 / (v.m1 / 1000) = signed neg ((|u.m1| : ℤ) / (|v.m1| : ℤ)) := by
        rw [div_div_div_cancel_right₀ (by norm_num)]
        exact hquot.exact
      have hfloor : 1000 * |u.m1| / |v.m1| / 1000 = |u.m1| / |v.m1| := by
        rw [Int.ediv_ediv_of_nonneg hb.le, mul_comm |v.m1|, Int.mul_ediv_mul_of_pos _ _ (by norm_num)]
      have htrunc : truncTo 1 ((u.m1 : ℚ) / 1000 / (v.m1 / 1000)) = (w.m1 : ℚ) / 1000 := by
        have h1 := truncTo_quotient (abs_nonneg u.m1) hb (g := 1) one_pos neg
        rw [mul_one] at h1
        rw [hexact, h1, hm1, hfloor]
        cases neg
        · simp
        · simp [neg_div]
      rw [htrunc] at hst
      refine (stored_thousandths ?_ hst).symm
      have hnn : 0 ≤ 1000 * |u.m1| / |v.m1| := by positivity
      rw [hm1, abs_lt]
      cases neg
      · omega
      · omega

/-- The quotient in thousandths is that of the promoted operands exactly when no fraction is lost. -/
theorem div_same_iff (q : Mval) :
    (opDiv u v q).map Mval.numVal = (divPromoted (promote u) (promote v) q).map Mval.numVal ↔ FractionKept u.m1 v.m1 := by
  have hquot := quotient_signed v.m1 (hu.int_bound hui)
  generalize (decide (u.m1 < 0) ^^ decide (v.m1 < 0)) = neg at hquot
  have hb : 0 < |v.m1| := abs_pos.mpr hne
  have hbound := hu.int_bound hui
  have hbound' := hv.int_bound hvi
  have hn0 : 0 ≤ 1000 * |u.m1| := by positivity
  have hone : 1000 * |u.m1| % |v.m1| = 1 → 1 < |v.m1| ∧ |v.m1| ≤ 1000 * |u.m1| := by
    intro h1
    refine ⟨?_, ?_⟩
    · by_contra hle
      rw [show |v.m1| = 1 by omega] at h1
      omega
    · by_contra hlt
      rw [Int.emod_eq_of_lt hn0 (by omega)] at h1
      omega
  rw [opDiv_of_nm hu.nm hv.nm q fun h => hne h.2, if_pos ⟨hui, hvi⟩]
  unfold promoteInt
  rw [if_pos hui, if_pos hvi]
  cases hrun : ebMvintDiv u.m1 v.m1 with
  | none =>
    refine ⟨fun _ h1 => ?_, fun _ => rfl⟩
    obtain ⟨h2, h3⟩ := hone h1
    apply (seenFraction_of_one (by omega) h2 h3 h1).mp
    rcases ebMvintDiv_none hquot hbound hne hrun with hge | hseen
    · rw [Int.le_ediv_iff_mul_le hb] at hge
      exact seenFraction_of_small hn0 (by omega) hb (by omega) (by omega)
    · exact hseen
  | some w =>
    obtain ⟨hlt, hseen, hm1⟩ := ebMvintDiv_some hquot hbound hne hrun
    have hres : (Except.ok (intResult w q)).map Mval.numVal = (Except.ok ((w.m1 : ℚ) / 1000) : Except ArithErr ℚ) :=
      congrArg Except.ok (numVal_int rfl)
    have habs : |w.m1| = 1000 * |u.m1| / |v.m1| := by
      have hnn : 0 ≤ 1000 * |u.m1| / |v.m1| := by positivity
      rw [hm1]
      cases neg
      · exact abs_of_nonneg hnn
      · rw [if_pos rfl, abs_neg, abs_of_nonneg hnn]
    have hexact : (u.m1 : ℚ) / 1000 / (v.m1 / 1000) = signed neg ((|u.m1| : ℤ) / (|v.m1| : ℤ)) := by
      rw [div_div_div_cancel_right₀ (by norm_num)]
      exact hquot.exact
    change (Except.ok (intResult w q)).map Mval.numVal = _ ↔ _
    rw [hres]
    have hmod0 : 0 ≤ 1000 * |u.m1| % |v.m1| := Int.emod_nonneg _ hb.ne'
    rcases (by omega : 1000 * |u.m1| % |v.m1| = 0 ∨ 1 ≤ 1000 * |u.m1| % |v.m1|) with hmod | hmod
    · -- no remainder: the quotient is exact on both ways
      refine ⟨fun _ h1 => absurd h1 (by omega), fun _ => ?_⟩
      have hval : (u.m1 : ℚ) / 1000 / (v.m1 / 1000) = (w.m1 : ℚ) / 1000 := by
        have hbq : ((|v.m1| : ℤ) : ℚ) ≠ 0 := by exact_mod_cast hb.ne'
        have hmul : ((1000 * |u.m1| / |v.m1| : ℤ) : ℚ) * (|v.m1| : ℤ) = 1000 * (|u.m1| : ℤ) := by
          exact_mod_cast Int.ediv_mul_cancel (Int.dvd_of_emod_eq_zero hmod)
        have hdiv : ((|u.m1| : ℤ) : ℚ) / (|v.m1| : ℤ) = ((1000 * |u.m1| / |v.m1| : ℤ) : ℚ) / 1000 := by
          rw [div_eq_div_iff hbq (by norm_num), hmul]
          ring
        rw [hexact, hdiv, hm1]
        generalize 1000 * |u.m1| / |v.m1| = n
        cases neg
        · simp
        · simp [neg_div]
      rcases eq_or_ne u.m1 0 with hzero | hzero
      · obtain ⟨hwu, -, hzu⟩ := promote_words hu hui
        obtain ⟨hev, -, hlo⟩ := promote_nonzero hv hvi hne
        have hw : w.m1 = 0 := by
          rw [hm1, hzero]
          simp
        rw [divPromoted_zero hwu (hzu hzero).1 hev.normal (by rw [(hzu hzero).2]; simp only [mvXbias, expLo]; omega), hw,
          Int.cast_zero, zero_div]
        exact (congrArg Except.ok literalZero_numVal).symm
      · have hst := (divPromoted_stored (promote_nonzero hu hui hzero).1 (promote_nonzero hv hvi hne).1 q).1
        rw [hval] at hst
        exact (stored_thousandths (by omega) hst).symm
    · -- a remainder that is not seen can only be one, and the two quotients differ
      have hmod1 : 1000 * |u.m1| % |v.m1| = 1 := by
        by_contra h2
        exact absurd hseen (not_lt.mpr (seenFraction_of_two_le hn0 (by omega) hb (by omega) (by omega)))
      obtain ⟨h2, h3⟩ := hone hmod1
      refine ⟨fun hsame => ?_, fun hkept => ?_⟩
      · exfalso
        have hzero : u.m1 ≠ 0 := by
          intro h
          rw [h, abs_zero, mul_zero, Int.zero_emod] at hmod1
          omega
        have hst := (divPromoted_stored (promote_nonzero hu hui hzero).1 (promote_nonzero hv hvi hne).1 q).1
        have habsq : |(u.m1 : ℚ) / 1000 / (v.m1 / 1000)| = ((1000 * |u.m1| : ℤ) : ℚ) / (|v.m1| : ℤ) / 1000 := by
          rw [hexact, abs_signed, abs_of_nonneg (div_nonneg (by exact_mod_cast abs_nonneg _) (by exact_mod_cast hb.le))]
          push_cast
          ring
        have habove := quotient_above (by omega) (by omega) hb hmod habsq
        have hq1 : (1 : ℚ) ≤ (1000 * |u.m1| / |v.m1| : ℤ) := by
          exact_mod_cast (Int.le_ediv_iff_mul_le hb).mpr (by omega)
        have hsize : |truncSig 10 18 ((u.m1 : ℚ) / 1000 / (v.m1 / 1000))| ≤ 1000000000 := by
          have hbq : (1 : ℚ) ≤ (|v.m1| : ℤ) := by exact_mod_cast hb
          have hnq : ((1000 * |u.m1| : ℤ) : ℚ) ≤ 1000000000000 := by exact_mod_cast (by omega)
          refine le_trans (truncTo_bounds (by positivity) _).1 ?_
          rw [habsq, div_div, div_le_iff₀ (by positivity)]
          linarith
        generalize truncSig 10 18 ((u.m1 : ℚ) / 1000 / (v.m1 / 1000)) = y at *
        have hy : y ≠ 0 := by
          rintro rfl
          linarith [div_nonneg (le_trans zero_le_one hq1) (by norm_num : (0 : ℚ) ≤ 1000)]
        have hlo := lt_expOf_of_le (B := 10) (by norm_num) hy (e := -3) (by
          refine le_trans ?_ habove.le
          linarith)
        have hhi := expOf_le_of_lt (B := 10) (by norm_num) hy (e := 10) (by norm_num; linarith)
        have hval := stored_value hst (Or.inr (by simp only [expLo, expHi, mvXbias]; omega))
        rw [hval] at hsame
        cases hsame
        rw [abs_div, ← Int.cast_abs, habs] at habove
        exact lt_irrefl _ habove
      · exact absurd ((seenFraction_of_one (by omega) h2 h3 hmod1).mpr (hkept hmod1)) (not_le.mpr hseen)

end Shortcuts

end IntShortcutsAux

open IntShortcutsAux

/-- Two `MV_INT`s give the same values on both ways exactly when no fraction of their quotient is lost. -/
theorem sameAsPromoted_iff {u v : Mval} (hu : u.Number) (hui : u.mvtype.int = true) (hv : v.Number) (hvi : v.mvtype.int = true)
    (p : Mval) : SameAsPromoted u v p ↔ v.m1 = 0 ∨ FractionKept u.m1 v.m1 := by
  refine ⟨fun h => ?_, fun h => ⟨mul_same hu hui hv hvi p, fun hne => idiv_same hu hui hv hvi hne p, fun hne => ?_⟩⟩
  · rcases eq_or_ne v.m1 0 with hzero | hne
    · exact Or.inl hzero
    · exact Or.inr ((div_same_iff hu hui hv hvi hne p).mp (h.div hne))
  · rcases h with hzero | hkept
    · exact absurd hzero hne
    · exact (div_same_iff hu hui hv hvi hne p).mpr hkept

theorem sameAsPromoted_iff_ten_thirds :
    SameAsPromoted (thousandths 10000) (thousandths 3000) literalZero ↔
      (thousandths 3000).m1 = 0 ∨ FractionKept (thousandths 10000).m1 (thousandths 3000).m1 :=
  sameAsPromoted_iff ⟨rfl, by decide⟩ rfl ⟨rfl, by decide⟩ rfl literalZero

/-- The quotient of 666999.998 by 999999.997 has a fraction behind its thousandths, which `op_div` loses. -/
theorem opDiv_loses_fraction :
    ¬ ∀ u v p : Mval, u.Number → u.mvtype.int = true → v.Number → v.mvtype.int = true → SameAsPromoted u v p := by
  intro h
  have hsame := h (thousandths 666999998) (thousandths 999999997) literalZero ⟨rfl, by decide⟩ rfl ⟨rfl, by decide⟩ rfl
  have hkept := (div_same_iff ⟨rfl, by decide⟩ rfl ⟨rfl, by decide⟩ rfl (by decide) literalZero).mp (hsame.div (by decide))
  have hplaces : fractionPlaces (1000 * |(thousandths 666999998).m1| / |(thousandths 999999997).m1|) = 43 := by
    have hlog : Nat.log 2 667 = 9 := Nat.log_eq_of_pow_le_of_lt_pow (by norm_num) (by norm_num)
    exact congrArg (52 - ·) hlog
  have hbound := hkept (by decide)
  rw [hplaces] at hbound
  exact absurd hbound (by decide)

end Gtm
