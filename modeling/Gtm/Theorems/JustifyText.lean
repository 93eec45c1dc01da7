import Gtm.Lemmas.Justify

/-!
# Numbers rounded by `$JUSTIFY`

Rounding and the digits are right in both branches. The size is computed before anything is checked: with a number of decimals next to the end of
the range of `int` it overflows.
-/

namespace Gtm

namespace Justify

open FixedPoint ZPiece

/-- What `op_fnj3` is for: an error, or the number rounded half away from zero; and it does not matter in which form the number is. -/
def Justifies (src v : Mval) (width fract : ℤ) : Prop :=
  (∃ r, opFnj3 src width fract = some r ∧ ∀ w, r = .ok w → w.out = justifyText v.numVal width.toNat fract.toNat) ∧
    (v.mvtype.int = true → opFnj3 (promote v) width fract = opFnj3 v width fract)

theorem valid_of_number {v : Mval} (hv : v.Number) (u : Mval) (hu : mvForceNum v = .ok u) : u.Number := by
  rw [mvForceNum_of_nm hv.nm] at hu
  obtain rfl := Except.ok.inj hu
  exact hv

/-- The form of a number does not matter. -/
theorem opFnj3_promote {v : Mval} {width fract : ℤ} (hv : v.Number) (hint : v.mvtype.int = true) :
    opFnj3 (promote v) width fract = opFnj3 v width fract := by
  rw [opFnj3_eq (valid_of_number hv), mvForceNum_of_nm hv.nm]
  by_cases hzero : v.m1 = 0
  · have hval : v.numVal = 0 := by rw [NumberRoundTripAux.numVal_int hint, hzero, Int.cast_zero, zero_div]
    rw [NumberPromoteAux.promote_zero hzero, opFnj3_eq (valid_of_number NumberStoreAux.literalZero_number), mvForceNum_of_nm rfl]
    dsimp only
    rw [NumberStoreAux.literalZero_numVal, hval]
  · obtain ⟨hext, -, -⟩ := NumberPromoteAux.promote_extended hv hint hzero
    have hnum : (promote v).Number := by
      obtain ⟨hnm, hno, ⟨⟨-, h1', h0, h0'⟩, hlead⟩, hlo, hhi, -⟩ := hext
      refine ⟨hnm, ?_⟩
      rw [Mval.NumValid, if_neg (by simp [hno]), mantHi]
      exact ⟨hlead, h1', h0, h0', hlo, hhi⟩
    rw [opFnj3_eq (valid_of_number hnum), mvForceNum_of_nm hext.nm]
    dsimp only
    rw [hext.value]

/-- A number that `op_fnj3` is told to write is written rounded as it should be exactly where the size does not overflow: an argument out of
its range is an error before. -/
theorem opFnj3_justifies_iff {src v : Mval} {width fract : ℤ} (hsrc : mvForceNum src = .ok v) (hv : v.Number) :
    Justifies src v width fract ↔ (width ≤ maxStrlen → 0 ≤ fract → max width 0 + fract < 2 ^ 31 - 66) := by
  have hvalid (u : Mval) (hu : mvForceNum src = .ok u) : u.Number := by
    obtain rfl := Except.ok.inj (hsrc.symm.trans hu)
    exact hv
  rw [Justifies, opFnj3_eq hvalid, hsrc]
  constructor
  · rintro ⟨⟨r, hrun, -⟩, -⟩ hwidth hfract
    by_contra hover
    rw [if_neg (by omega), if_neg (by omega), if_pos (by omega)] at hrun
    exact nomatch hrun
  · intro hfits
    refine ⟨?_, opFnj3_promote hv⟩
    by_cases hwide : (maxStrlen : ℤ) < width
    · rw [if_pos hwide]
      exact ⟨_, rfl, fun w hw => nomatch hw⟩
    · rw [if_neg hwide]
      by_cases hneg : fract < 0
      · rw [if_pos hneg]
        exact ⟨_, rfl, fun w hw => nomatch hw⟩
      · have hsmall := hfits (by omega) (by omega)
        rw [if_neg hneg, if_neg (by omega)]
        by_cases hlong : (maxStrlen : ℤ) < max width 0 + 66 + fract
        · rw [if_pos hlong]
          exact ⟨_, rfl, fun w hw => nomatch hw⟩
        · rw [if_neg hlong]
          refine ⟨_, rfl, fun w hw => ?_⟩
          obtain rfl := Except.ok.inj hw
          rfl

/-- 1.25 with one decimal, in a field of ten characters. -/
theorem opFnj3_justifies_quarter : Justifies { literalOne with m1 := 1250 } { literalOne with m1 := 1250 } 10 1 :=
  (opFnj3_justifies_iff rfl ⟨rfl, by decide⟩).2 (by decide)

/-- The largest number of decimals is not refused. -/
theorem opFnj3_size_overflows : ¬ Justifies literalOne literalOne 0 2147483647 := by
  rintro ⟨⟨r, hrun, -⟩, -⟩
  have hnone : opFnj3 literalOne 0 2147483647 = none := rfl
  exact nomatch hnone.symm.trans hrun

end Justify

end Gtm
