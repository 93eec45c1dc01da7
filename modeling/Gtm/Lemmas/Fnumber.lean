import Gtm.Lemmas.Justify
import Gtm.Theorems.NumberPrefix

/-!
# The length of a formatted number

How long the text is that `op_fnfnumber` writes, and how long the number in it is.
-/

namespace Gtm

namespace Justify

open FixedPoint Positional ZPiece NumberPrefixAux Truncation

/-! ## The text around a number -/

theorem commaGroups_length (k : ℕ) (comma : Bool) (ch : List UInt8) :
    (commaGroups k comma ch).length = ch.length + if comma then k else k - 1 := by
  induction k generalizing comma ch with
  | zero => cases comma <;> rfl
  | succ k ih =>
    have hsplit : (ch.take 3).length + (ch.drop 3).length = ch.length := by
      rw [← List.length_append, List.take_append_drop]
    rw [commaGroups, List.length_append, List.length_append, ih]
    cases comma
    · simp only [Bool.false_eq_true, if_false, if_true, List.length_nil]
      omega
    · simp only [if_true, List.length_singleton]
      omega

theorem commaText_length (ch : List UInt8) : (commaText ch).length = ch.length + (wholeLen ch - 1) / 3 := by
  have hsplit : (ch.take (wholeLen ch % 3)).length + (ch.drop (wholeLen ch % 3)).length = ch.length := by
    rw [← List.length_append, List.take_append_drop]
  rw [commaText, List.length_append, commaGroups_length]
  by_cases hrest : 0 < wholeLen ch % 3
  · rw [if_pos (decide_eq_true hrest)]
    omega
  · rw [if_neg (by simpa using hrest)]
    omega

/-- How many bytes a format adds to a number with `k` digits before the decimal point. -/
def formatSize (code : FnCode) (neg isZero : Bool) (k : ℕ) : ℕ :=
  (if code.comma then (k - 1) / 3 else 0) +
    if code.paren then 2
    else if code.trail then 1
    else if (neg ∧ ¬ code.minus) ∨ (code.plus ∧ ¬ neg ∧ ¬ isZero) then 1 else 0

theorem fnumberText_length {code : FnCode} (hcode : ¬ (code.paren ∧ (code.plus ∨ code.minus ∨ code.trail))) (neg isZero : Bool) (ch : List UInt8) :
    (fnumberText code neg isZero ch).length = ch.length + formatSize code neg isZero (wholeLen ch) := by
  have hcomma : (if code.comma then commaText ch else ch).length = ch.length + if code.comma then (wholeLen ch - 1) / 3 else 0 := by
    split
    · exact commaText_length ch
    · rfl
  obtain ⟨plus, minus, trail, comma, paren⟩ := code
  rw [fnumberText, formatSize]
  generalize (if comma then commaText ch else ch) = body at hcomma
  cases paren <;> cases trail <;> cases plus <;> cases minus <;> cases neg <;> cases isZero <;> simp_all [ascMinus, ascPlus] <;> omega

theorem wholeLen_chars {ds : List ℕ} (hds : Digits 10 ds) {rest : List UInt8} (hrest : rest = [] ∨ rest.head? = some ascDot) :
    wholeLen (chars ds ++ rest) = ds.length := by
  induction ds with
  | nil =>
    rcases hrest with rfl | hdot
    · rfl
    · cases rest with
      | nil => rfl
      | cons c rest =>
        obtain rfl : c = ascDot := by simpa using hdot
        exact if_pos rfl
  | cons d ds ih =>
    obtain ⟨hd, hds⟩ := digits_cons.1 hds
    have hne : digitChar d ≠ ascDot := by
      intro heq
      have := DecimalTextAux.isDigit_digitChar hd
      rw [heq] at this
      exact nomatch this
    rw [chars, List.map_cons, List.cons_append, wholeLen, if_neg hne]
    exact congrArg (· + 1) (ih hds)

/-! ## The number in it -/

/-- The digits of a number in decimal. -/
def wholeDigits (N : ℕ) : List ℕ := if N = 0 then [0] else (Nat.digits 10 N).reverse

theorem wholeText_chars (N : ℕ) : wholeText N = chars (wholeDigits N) := by
  rw [wholeText, wholeDigits]
  split <;> rfl

theorem wholeDigits_digits (N : ℕ) : Digits 10 (wholeDigits N) := by
  unfold wholeDigits
  split
  · simp
  · exact fun d hd => Nat.digits_lt_base (by omega) (List.mem_reverse.1 hd)

/-- A number written without its sign. -/
def unsignedText (R fract : ℕ) : List UInt8 :=
  wholeText (R / 10 ^ fract) ++ if fract = 0 then [] else ascDot :: chars (lastDigits 10 fract R)

theorem decimalText_unsigned (neg : Bool) (R fract : ℕ) :
    decimalText neg R fract = (if neg ∧ R ≠ 0 then [ascMinus] else []) ++ unsignedText R fract := List.append_assoc _ _ _

theorem unsignedText_length (R fract : ℕ) :
    (unsignedText R fract).length = (wholeDigits (R / 10 ^ fract)).length + if fract = 0 then 0 else fract + 1 := by
  rw [unsignedText, List.length_append, wholeText_chars, chars_length]
  split
  · rfl
  · rw [List.length_cons, chars_length, lastDigits_length]

theorem wholeLen_unsigned (R fract : ℕ) : wholeLen (unsignedText R fract) = (wholeDigits (R / 10 ^ fract)).length := by
  rw [unsignedText, wholeText_chars]
  refine wholeLen_chars (wholeDigits_digits _) ?_
  split
  · exact .inl rfl
  · exact .inr rfl

/-- A number does not begin with a minus sign when it is written without one. -/
theorem unsignedText_head (R fract : ℕ) : (unsignedText R fract).head? ≠ some ascMinus := by
  have hdigits := wholeDigits_digits (R / 10 ^ fract)
  have hne : wholeDigits (R / 10 ^ fract) ≠ [] := by
    unfold wholeDigits
    split
    · exact List.cons_ne_nil _ _
    · exact fun h => absurd (Nat.digits_eq_nil_iff_eq_zero.1 (List.reverse_eq_nil_iff.1 h)) ‹_›
  rw [unsignedText, wholeText_chars]
  cases hds : wholeDigits (R / 10 ^ fract) with
  | nil => exact absurd hds hne
  | cons d ds =>
    rw [hds] at hdigits
    intro heq
    have hchar : digitChar d = ascMinus := by simpa [chars] using heq
    have hdigit := DecimalTextAux.isDigit_digitChar (digits_cons.1 hdigits).1
    rw [hchar] at hdigit
    cases hdigit

theorem whole_lastDigits (k n : ℕ) : whole 10 (lastDigits 10 k n) 0 = n % 10 ^ k := by
  induction k generalizing n with
  | zero => rw [Nat.pow_zero, Nat.mod_one]; rfl
  | succ k ih =>
    rw [lastDigits, whole_append, ih, whole_cons, whole_nil, Nat.pow_succ', Nat.mod_mul]
    omega

theorem whole_wholeDigits (N : ℕ) : whole 10 (wholeDigits N) 0 = N := by
  by_cases hN : N = 0
  · rw [wholeDigits, hN]
    rfl
  · have hlow : 10 ^ Nat.log 10 N ≤ N := Nat.pow_log_le_self 10 hN
    have hhigh : N < 10 ^ (Nat.log 10 N + 1) := Nat.lt_pow_succ_log_self (by omega) N
    rw [wholeDigits, if_neg hN, ← lastDigits_digits (by omega) hlow hhigh, whole_lastDigits, Nat.mod_eq_of_lt hhigh]

/-- The parts of the text of a number. -/
def textOf (R fract : ℕ) : NumText where
  signs := []
  int := wholeDigits (R / 10 ^ fract)
  fraction := if fract = 0 then none else some (lastDigits 10 fract R)
  exp := none
  int_digits := wholeDigits_digits _
  fraction_digits := by
    split
    · exact digits_nil 10
    · exact lastDigits_lt (by omega) fract R
  exp_digits := fun e he => nomatch he
  exp_behind := fun h => absurd rfl h

theorem textOf_text (R fract : ℕ) : (textOf R fract).text = unsignedText R fract := by
  rw [NumText.text, NumText.fractionText, NumText.expText, unsignedText, wholeText_chars]
  by_cases hf : fract = 0 <;> simp [textOf, hf]

theorem textOf_longest (R fract : ℕ) : (textOf R fract).Longest ((textOf R fract).text ++ []) := by
  rw [List.append_nil]
  exact ⟨List.prefix_refl _, fun t' ht' => ht'.length_le⟩

theorem textOf_mantissa (R fract : ℕ) : (textOf R fract).mantissa = (R : ℚ) / 10 ^ fract := by
  have hsplit : (R : ℚ) = (R / 10 ^ fract : ℕ) * 10 ^ fract + (R % 10 ^ fract : ℕ) := by
    exact_mod_cast (Nat.div_add_mod' R (10 ^ fract)).symm
  have hfrac : frac 10 (((textOf R fract).fraction).getD []) * 10 ^ fract = (R % 10 ^ fract : ℕ) := by
    by_cases hf : fract = 0
    · simp [textOf, hf, Nat.mod_one]
    · have := whole_eq (B := 10) (by omega) (lastDigits 10 fract R) 0
      rw [whole_lastDigits, lastDigits_length, Nat.cast_zero] at this
      simpa [textOf, hf] using this.symm
  have hten : (10 : ℚ) ^ fract ≠ 0 := by positivity
  rw [NumText.mantissa, eq_div_iff hten, add_mul, hfrac]
  conv_rhs => rw [hsplit]
  rw [show (textOf R fract).int = wholeDigits (R / 10 ^ fract) from rfl, whole_wholeDigits]

/-! ## Whether the number is zero -/

/-- The range of numbers. -/
theorem numVal_range {v : Mval} (hv : v.Number) (hne : v.numVal ≠ 0) : (1 : ℚ) / 10 ^ 43 ≤ |v.numVal| ∧ |v.numVal| + 1 ≤ 10 ^ 47 := by
  cases hint : v.mvtype.int with
  | true =>
    have hbound := hv.int_bound hint
    rw [NumberRoundTripAux.numVal_int hint] at hne ⊢
    have hm : v.m1 ≠ 0 := by
      intro h0
      rw [h0, Int.cast_zero, zero_div] at hne
      exact hne rfl
    have hlow : (1 : ℚ) ≤ |(v.m1 : ℚ)| := by exact_mod_cast Int.one_le_abs hm
    have hhigh : |(v.m1 : ℚ)| < 1000000000 := by exact_mod_cast hbound
    rw [abs_div, abs_of_pos (by norm_num : (0 : ℚ) < 1000)]
    constructor
    · linarith
    · linarith
  | false =>
    obtain ⟨hlo, hhi⟩ := hv.exp_bounds hint
    obtain ⟨N, hN, hN', habs⟩ := NumberRoundTripAux.abs_numVal_words hv.valid.mantValid hint
    have hNlow : (10 : ℚ) ^ 17 ≤ N := by exact_mod_cast hN
    have hNhigh : (N : ℚ) ≤ 10 ^ 18 - 1 := by
      have : (N : ℚ) + 1 ≤ 10 ^ 18 := by exact_mod_cast hN'
      linarith
    rw [expLo] at hlo
    rw [expHi] at hhi
    have hpow : (10 : ℚ) ^ (-42 : ℤ) ≤ 10 ^ ((v.e : ℤ) - mvXbias) := zpow_le_zpow_right₀ (by norm_num) (by rw [mvXbias]; omega)
    have hpow' : (10 : ℚ) ^ ((v.e : ℤ) - mvXbias) ≤ 10 ^ (47 : ℤ) := zpow_le_zpow_right₀ (by norm_num) (by rw [mvXbias]; omega)
    rw [habs]
    constructor
    · calc (1 : ℚ) / 10 ^ 43 = (10 : ℚ) ^ 17 / 10 ^ 18 * (10 : ℚ) ^ (-42 : ℤ) := by norm_num
        _ ≤ (N : ℚ) / 10 ^ 18 * (10 : ℚ) ^ ((v.e : ℤ) - mvXbias) := by gcongr
    · have hprod : (N : ℚ) / 10 ^ 18 * 10 ^ ((v.e : ℤ) - mvXbias) ≤ (10 ^ 18 - 1) / 10 ^ 18 * 10 ^ (47 : ℤ) := by gcongr
      refine le_trans (add_le_add_left hprod 1) ?_
      norm_num

theorem le_roundHalf {x : ℚ} {n : ℕ} (h : (n : ℚ) ≤ |x|) : n ≤ roundHalf x := Nat.le_floor (by linarith)

theorem roundHalf_le (x : ℚ) : (roundHalf x : ℚ) ≤ |x| + 1 / 2 := Nat.floor_le (by positivity)

/-- A rounded number is in the range of numbers, unless it is zero. -/
theorem roundHalf_range {v : Mval} (hv : v.Number) {fract R : ℕ} (hR : roundHalf (v.numVal * 10 ^ fract) = R) (hpos : R ≠ 0) :
    (1 : ℚ) / 10 ^ 43 ≤ (R : ℚ) / 10 ^ fract ∧ (R : ℚ) / 10 ^ fract < 10 ^ 47 := by
  have hne : v.numVal ≠ 0 := by
    intro h0
    rw [h0, roundHalf_eq_zero (by norm_num)] at hR
    exact hpos hR.symm
  obtain ⟨hlow, hhigh⟩ := numVal_range hv hne
  have habs : |v.numVal * 10 ^ fract| = |v.numVal| * 10 ^ fract := by rw [abs_mul, abs_of_pos (by positivity : (0 : ℚ) < 10 ^ fract)]
  have hone : (1 : ℚ) ≤ 10 ^ fract := one_le_pow₀ (by norm_num)
  constructor
  · by_cases hshort : fract ≤ 43
    · have hle : (10 : ℚ) ^ fract ≤ 10 ^ 43 := pow_le_pow_right₀ (by norm_num) hshort
      have hR1 : (1 : ℚ) ≤ R := by exact_mod_cast Nat.pos_of_ne_zero hpos
      rw [div_le_div_iff₀ (by norm_num) (by positivity)]
      calc (1 : ℚ) * 10 ^ fract ≤ 1 * 10 ^ 43 := by linarith
        _ ≤ R * 10 ^ 43 := mul_le_mul_of_nonneg_right hR1 (by norm_num)
    · have hsplit : (10 : ℚ) ^ fract = 10 ^ (fract - 43) * 10 ^ 43 := by rw [← pow_add, Nat.sub_add_cancel (by omega)]
      have hle : ((10 ^ (fract - 43) : ℕ) : ℚ) ≤ |v.numVal * 10 ^ fract| := by
        rw [habs, hsplit]
        push_cast
        calc (10 : ℚ) ^ (fract - 43) = 1 / 10 ^ 43 * (10 ^ (fract - 43) * 10 ^ 43) := by field_simp
          _ ≤ |v.numVal| * (10 ^ (fract - 43) * 10 ^ 43) := mul_le_mul_of_nonneg_right hlow (by positivity)
      have hfloor := le_roundHalf hle
      rw [hR] at hfloor
      have hcast : (10 : ℚ) ^ (fract - 43) ≤ R := by exact_mod_cast hfloor
      rw [div_le_div_iff₀ (by norm_num) (by positivity), one_mul, hsplit]
      exact mul_le_mul_of_nonneg_right hcast (by norm_num)
  · have hle := roundHalf_le (v.numVal * 10 ^ fract)
    rw [hR] at hle
    rw [div_lt_iff₀ (by positivity)]
    have hmul : (|v.numVal| + 1) * 10 ^ fract ≤ 10 ^ 47 * 10 ^ fract := mul_le_mul_of_nonneg_right hhigh (by positivity)
    linarith

/-- `MV_FORCE_NUM` on the text of a number in range tells whether it is zero. -/
theorem mvForceNum_unsigned {R fract : ℕ} (hrange : R ≠ 0 → (1 : ℚ) / 10 ^ 43 ≤ (R : ℚ) / 10 ^ fract ∧ (R : ℚ) / 10 ^ fract < 10 ^ 47) :
    ∃ u, mvForceNum (Mval.ofStr (unsignedText R fract)) = .ok u ∧ ((u.mvtype.int = true ∧ u.m1 = 0) ↔ R = 0) := by
  have hmant := textOf_mantissa R fract
  have hlong := textOf_longest R fract
  have hforce : forceNum (Mval.ofStr ((textOf R fract).text ++ [])) =
      (mvForceNum (Mval.ofStr (unsignedText R fract))).mapError fun _ => .numoflow := by
    rw [List.append_nil, textOf_text, forceNum]
    cases mvForceNum (Mval.ofStr (unsignedText R fract)) <;> rfl
  by_cases hzero : (textOf R fract).digits = []
  · obtain ⟨v, hv, hnum, hval⟩ := forceNum_zero hlong hzero
    have hR : R = 0 := by
      rw [mantissa_eq, hzero, frac_nil, zero_mul] at hmant
      have := (div_eq_zero_iff.1 hmant.symm).resolve_right (by positivity)
      exact_mod_cast this
    rw [hforce] at hv
    cases hrun : mvForceNum (Mval.ofStr (unsignedText R fract)) with
    | error err =>
      rw [hrun] at hv
      cases hv
    | ok u =>
      rw [hrun] at hv
      obtain rfl := Except.ok.inj hv
      refine ⟨u, rfl, iff_of_true ?_ hR⟩
      cases hint : u.mvtype.int with
      | true =>
        rw [NumberRoundTripAux.numVal_int hint] at hval
        exact ⟨rfl, by exact_mod_cast (div_eq_zero_iff.1 hval).resolve_right (by norm_num)⟩
      | false =>
        have hne := NumberStoreAux.mant_ne_zero (hnum.normal hint) u.sgn ((u.e : ℤ) - mvXbias - 18)
        rw [← NumberStoreAux.numVal_mant hint] at hne
        exact absurd hval hne
  · obtain ⟨hexp, hne, -⟩ := mantissa_words hzero
    rw [hmant] at hexp hne
    have hR : R ≠ 0 := by
      rintro rfl
      simp at hne
    obtain ⟨hlow, hhigh⟩ := hrange hR
    have hstored := forceNum_text hlong hzero
    have hseen : (textOf R fract).expSeen [] = 0 := by
      rw [NumText.expSeen, NumText.behind]
      split <;> rfl
    rw [hseen, zero_add, hforce] at hstored
    obtain ⟨hdigits, hlead⟩ := digits_spec hzero
    have hword := NumberStoreAux.expOf_mant (words_normal hdigits hlead) (textOf R fract).neg (textOf R fract).place
    have hnonzero := NumberStoreAux.mant_ne_zero (words_normal hdigits hlead) (textOf R fract).neg ((textOf R fract).place - 18)
    have hpos : (0 : ℚ) < (R : ℚ) / 10 ^ fract := lt_of_lt_of_le (by norm_num) hlow
    have habs : |(R : ℚ) / 10 ^ fract| = (R : ℚ) / 10 ^ fract := abs_of_pos hpos
    have hplace : -43 < (textOf R fract).place := by
      rw [← hexp]
      exact lt_expOf_of_le (by norm_num) hne (by rw [habs]; exact le_trans (by norm_num) hlow)
    have hplace' : (textOf R fract).place ≤ 47 := by
      rw [← hexp]
      exact expOf_le_of_lt (by norm_num) hne (by rw [habs]; exact_mod_cast hhigh)
    generalize signed (textOf R fract).neg _ = q at hstored hword hnonzero
    cases hrun : mvForceNum (Mval.ofStr (unsignedText R fract)) with
    | error err =>
      rw [hrun] at hstored
      obtain ⟨-, -, hbig⟩ := hstored
      rw [expHi, mvXbias] at hbig
      omega
    | ok u =>
      rw [hrun] at hstored
      obtain ⟨-, ⟨hq | hsmall, -⟩ | ⟨-, hval⟩⟩ := hstored
      · exact absurd hq hnonzero
      · rw [expLo, mvXbias] at hsmall
        omega
      · refine ⟨u, rfl, iff_of_false (fun hu => hnonzero ?_) hR⟩
        rw [← hval, NumberRoundTripAux.numVal_int hu.1, hu.2, Int.cast_zero, zero_div]

end Justify

end Gtm
