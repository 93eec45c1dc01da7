import Gtm.Lemmas.NumberPromote
import Gtm.Lib.FixedPoint
import Gtm.Str.Justify

/-!
# The digits of justified text

Statements about the loops of `op_fnj3`: what is written of a word, and what is left of it; and about the half that is added to a mantissa
before.
-/

namespace Gtm

namespace Justify

open FixedPoint ZPiece

variable {n m k : ℕ}

/-! ## The digits of an `MV_INT` -/

theorem fnj3IntDigits_eq (hn : n < 10 ^ 9) : fnj3IntDigits k n = (chars (firstDigits 10 8 k n), n * 10 ^ k % 10 ^ 9) := by
  induction k generalizing n with
  | zero => rw [Nat.pow_zero, Nat.mul_one, Nat.mod_eq_of_lt hn]; rfl
  | succ k ih =>
    have hrest : (n - n / mantLo * mantLo) * 10 = n % 10 ^ 8 * 10 := by
      have := Nat.div_add_mod n mantLo
      rw [mantLo] at this ⊢
      omega
    rw [fnj3IntDigits]
    rw [hrest, ih (by omega), rest_succ 10 8]
    rfl

theorem fnj3IntFract_eq (hn : n < 10 ^ 9) : fnj3IntFract k n = chars (firstDigits 10 8 k n) := by
  induction k generalizing n with
  | zero => rfl
  | succ k ih =>
    rw [fnj3IntFract]
    by_cases hzero : n = 0
    · rw [if_neg (not_not_intro hzero), hzero, firstDigits_zero, DecimalTextAux.chars_replicate]
    · have hrest : (n - n / mantLo * mantLo) * 10 = n % 10 ^ 8 * 10 := by
        have := Nat.div_add_mod n mantLo
        rw [mantLo] at this ⊢
        omega
      rw [if_pos hzero]
      dsimp only
      rw [hrest, ih (by omega)]
      rfl

variable {R i X : ℕ} {s : Fnj3Words} {digs : ℤ} {q : ℚ}

/-- The digits before the decimal point and those behind it. -/
theorem fnj3IntDigits_fract (digs fract : ℕ) (hn : n < 10 ^ 9) (hR : R = n * 10 ^ (digs + fract) / 10 ^ 9) :
    (fnj3IntDigits digs n).1 = chars (lastDigits 10 digs (R / 10 ^ fract)) ∧
      fnj3IntFract fract (fnj3IntDigits digs n).2 = chars (lastDigits 10 fract R) := by
  obtain ⟨hfirst, hnext⟩ := firstDigits_split (L := 8) (by omega) digs fract hn hR
  rw [fnj3IntDigits_eq hn]
  rw [fnj3IntFract_eq (Nat.mod_lt _ (by omega)), hfirst, hnext]
  exact ⟨rfl, rfl⟩

/-! ## The digits of a mantissa -/

/-- The words of a mantissa as they stand in the loops: the first one ends in a zero for each digit that has been written. -/
structure Fnj3Words.Ok (s : Fnj3Words) : Prop where
  n_lt : s.n < 10 ^ 9
  m_lt : s.m < 10 ^ 9
  low : s.digsUsed < 9 → 10 ^ s.digsUsed ∣ s.n
  done : 9 ≤ s.digsUsed → s.m = 0

/-- The digits that have not been written, at the upper end of a word of 18 digits. -/
def Fnj3Words.word (s : Fnj3Words) : ℕ := s.n * 10 ^ 9 + s.m * 10 ^ s.digsUsed

/-- The words after a digit. -/
def Fnj3Words.next (s : Fnj3Words) : Fnj3Words :=
  if s.digsUsed + 1 = 9 then ⟨s.m, 0, s.digsUsed + 1⟩ else ⟨(s.n - s.n / mantLo * mantLo) * 10, s.m, s.digsUsed + 1⟩

theorem Fnj3Words.word_lt (h : s.Ok) : s.word < 10 ^ 18 := by
  obtain ⟨hn, hm, hlow, hdone⟩ := h
  obtain ⟨n, m, used⟩ := s
  dsimp only [word] at *
  by_cases hused : used < 9
  · have hdvd := hlow hused
    interval_cases used <;> omega
  · rw [hdone (by omega)]
    omega

theorem Fnj3Words.next_ok (h : s.Ok) : s.next.Ok ∧ s.n / mantLo = s.word / 10 ^ 17 ∧ s.next.word = s.word % 10 ^ 17 * 10 := by
  obtain ⟨-, hm, hlow, hdone⟩ := h
  obtain ⟨n, m, used⟩ := s
  dsimp only [word, next] at *
  rw [mantLo]
  by_cases hused : used < 9
  · have hdvd := hlow hused
    by_cases hlast : used + 1 = 9
    · obtain rfl : used = 8 := by omega
      rw [if_pos rfl]
      exact ⟨⟨hm, by dsimp only; omega, fun h => absurd h (by dsimp only; omega), fun _ => rfl⟩, by omega, by dsimp only; omega⟩
    · rw [if_neg hlast]
      refine ⟨⟨by dsimp only; omega, hm, fun _ => ?_, fun h => ?_⟩, ?_⟩
      · dsimp only
        interval_cases used <;> omega
      · dsimp only at h
        omega
      · dsimp only
        interval_cases used <;> omega
  · obtain rfl := hdone (by omega)
    rw [if_neg (by omega)]
    refine ⟨⟨by dsimp only; omega, by dsimp only; omega, fun h => ?_, fun _ => rfl⟩, by omega, by dsimp only; omega⟩
    dsimp only at h
    omega

theorem fnj3Digits_eq (h : s.Ok) : ∃ ds left s', fnj3Digits k s = (ds, left, s') ∧
    ds ++ List.replicate left ascZero = chars (firstDigits 10 17 k s.word) ∧ s'.Ok ∧ s'.word = s.word * 10 ^ k % 10 ^ 18 := by
  induction k generalizing s with
  | zero => exact ⟨[], 0, s, rfl, rfl, h, by rw [Nat.pow_zero, Nat.mul_one, Nat.mod_eq_of_lt (Fnj3Words.word_lt h)]⟩
  | succ k ih =>
    rw [fnj3Digits]
    by_cases hmore : s.n ≠ 0 ∨ s.m ≠ 0
    · obtain ⟨hok, hdigit, hnext⟩ := Fnj3Words.next_ok h
      obtain ⟨ds, left, s', hrun, htext, hok', hword⟩ := ih hok
      rw [Fnj3Words.next] at hrun
      refine ⟨digitChar (s.n / mantLo) :: ds, left, s', ?_, ?_, hok', ?_⟩
      · rw [if_pos hmore]
        dsimp only
        rw [hrun]
      · rw [List.cons_append, htext, hnext, hdigit]
        rfl
      · rw [hword, hnext, rest_succ 10 17]
    · have hn : s.n = 0 := by omega
      have hm : s.m = 0 := by omega
      have hzero : s.word = 0 := by rw [Fnj3Words.word, hn, hm]; omega
      rw [if_neg hmore]
      refine ⟨[], k + 1, s, rfl, ?_, h, by rw [hzero, Nat.zero_mul, Nat.zero_mod]⟩
      rw [hzero, firstDigits_zero, DecimalTextAux.chars_replicate, List.nil_append]

/-! ## Rounding -/

/-- What a mantissa is after half of the last place has been added: the sum `Y`, or the sum without its last digit after a carry. -/
def Carried (Y : ℕ) (digs : ℤ) (r : ℕ × ℕ × ℤ) : Prop :=
  r.1 < 10 ^ 9 ∧ r.2.1 < 10 ^ 9 ∧
    ((r.2.2 = digs ∧ r.1 * 10 ^ 9 + r.2.1 = Y) ∨ (r.2.2 = digs + 1 ∧ r.1 * 10 ^ 9 + r.2.1 = Y / 10 ∧ 10 ^ 18 ≤ Y))

theorem fnj3Carry_carried (hn : n < 10 ^ 10) (hm : m < 10 ^ 9) : Carried (n * 10 ^ 9 + m) digs (fnj3Carry n m digs) := by
  rw [fnj3Carry, mantHi, mantLo]
  by_cases hcarry : 1000000000 ≤ n
  · rw [if_pos hcarry]
    exact ⟨by dsimp only; omega, by dsimp only; omega, .inr ⟨rfl, by dsimp only; omega, by omega⟩⟩
  · rw [if_neg hcarry]
    exact ⟨by dsimp only; omega, hm, .inl ⟨rfl, rfl⟩⟩

theorem fnj3Round_carried (digs : ℤ) (hn : n < 10 ^ 9) (hm : m < 10 ^ 9) (hi : i < 18) :
    Carried (n * 10 ^ 9 + m + 5 * 10 ^ (17 - i)) digs (fnj3Round i n m digs) := by
  rw [fnj3Round, if_pos ⟨by omega, by omega⟩]
  by_cases hfirst : i < 9
  · have hpow : 10 ^ (17 - i) = 10 ^ (8 - i) * 10 ^ 9 := by
      rw [← Nat.pow_add]
      congr 1
      omega
    have hle : 10 ^ (8 - i) ≤ 10 ^ 8 := Nat.pow_le_pow_right (by omega) (by omega)
    have hsum : n * 10 ^ 9 + m + 5 * 10 ^ (17 - i) = (n + fivesTable ((i : ℕ) : ℤ).toNat) * 10 ^ 9 + m := by
      rw [hpow, fivesTable, tenPwr, Int.toNat_natCast]
      ring
    have hfive : fivesTable ((i : ℕ) : ℤ).toNat ≤ 5 * 10 ^ 8 := Nat.mul_le_mul_left 5 hle
    rw [if_pos (by exact_mod_cast hfirst), hsum]
    exact fnj3Carry_carried (by omega) hm
  · have hfive : fivesTable (((i : ℕ) : ℤ) - 9).toNat = 5 * 10 ^ (17 - i) := by
      rw [fivesTable]
      congr 2
      omega
    have hle : 10 ^ (17 - i) ≤ 10 ^ 8 := Nat.pow_le_pow_right (by omega) (by omega)
    rw [if_neg (by exact_mod_cast hfirst)]
    rw [hfive, mantHi]
    by_cases hover : 1000000000 ≤ m + 5 * 10 ^ (17 - i)
    · rw [if_pos hover]
      have hsum : n * 10 ^ 9 + m + 5 * 10 ^ (17 - i) = (n + 1) * 10 ^ 9 + (m + 5 * 10 ^ (17 - i) - 1000000000) := by omega
      rw [hsum]
      exact fnj3Carry_carried (by omega) (by omega)
    · rw [if_neg hover]
      exact ⟨hn, by dsimp only; omega, .inl ⟨rfl, by dsimp only; omega⟩⟩

/-- What is rounded, and the number that a mantissa stands for. -/
theorem roundHalf_mantissa {fract : ℕ} (hq : |q| = (X : ℚ) * 10 ^ (digs - 18)) (hi : digs + fract = i) (hi' : i < 18) :
    roundHalf (q * 10 ^ fract) = (X + 5 * 10 ^ (17 - i)) / 10 ^ (18 - i) := by
  have hpow : 10 ^ (18 - i) = 2 * (5 * 10 ^ (17 - i)) := by
    rw [show 18 - i = 17 - i + 1 by omega]
    ring
  have habs : |q * 10 ^ fract| = (X : ℚ) / (2 * (5 * 10 ^ (17 - i)) : ℕ) := by
    rw [← hpow, abs_mul, hq, abs_of_pos (by positivity : (0 : ℚ) < 10 ^ fract), mul_assoc, ← zpow_natCast, ← zpow_add₀ (by norm_num),
      show digs - 18 + (fract : ℤ) = -((18 - i : ℕ) : ℤ) by omega, zpow_neg, zpow_natCast, div_eq_mul_inv]
    push_cast
    rfl
  rw [roundHalf_div (Nat.mul_pos (by omega) (Nat.pow_pos (by omega))) habs, ← hpow]

/-- All digits are kept. -/
theorem roundHalf_long {fract : ℕ} (hq : |q| = (X : ℚ) * 10 ^ (digs - 18)) (hi : digs + fract = i) (hi' : 18 ≤ i) :
    roundHalf (q * 10 ^ fract) = X * 10 ^ i / 10 ^ 18 := by
  have hpow : 10 ^ i = 10 ^ (i - 18) * 10 ^ 18 := by
    rw [← Nat.pow_add]
    congr 1
    omega
  have habs : |q * 10 ^ fract| = ((X * 10 ^ (i - 18) : ℕ) : ℚ) := by
    rw [abs_mul, hq, abs_of_pos (by positivity : (0 : ℚ) < 10 ^ fract), mul_assoc, ← zpow_natCast, ← zpow_add₀ (by norm_num),
      show digs - 18 + (fract : ℤ) = ((i - 18 : ℕ) : ℤ) by omega, zpow_natCast]
    push_cast
    rfl
  rw [roundHalf_natCast habs, hpow, ← Nat.mul_assoc, Nat.mul_div_cancel _ (by omega)]

/-- No digit is kept. -/
theorem roundHalf_short {fract : ℕ} (hX : X < 10 ^ 18) (hq : |q| = (X : ℚ) * 10 ^ (digs - 18)) (hw : digs + fract < 0) :
    roundHalf (q * 10 ^ fract) = 0 := by
  refine roundHalf_eq_zero ?_
  have hlt : (X : ℚ) < 10 ^ (18 : ℤ) := by exact_mod_cast hX
  have hpos : (0 : ℚ) < 10 ^ (digs - 18 + fract) := by positivity
  calc |q * 10 ^ fract| = (X : ℚ) * 10 ^ (digs - 18 + fract) := by
        rw [abs_mul, hq, abs_of_pos (by positivity : (0 : ℚ) < 10 ^ fract), mul_assoc, ← zpow_natCast, ← zpow_add₀ (by norm_num)]
    _ < 10 ^ (18 : ℤ) * 10 ^ (digs - 18 + fract) := mul_lt_mul_of_pos_right hlt hpos
    _ = 10 ^ (digs + fract) := by
        rw [← zpow_add₀ (by norm_num)]
        congr 1
        omega
    _ ≤ 10 ^ (-1 : ℤ) := zpow_le_zpow_right₀ (by norm_num) (by omega)
    _ < 1 / 2 := by norm_num

/-- What rounding gives: no digit that is kept, or a mantissa whose first digits are those of the rounded number. -/
theorem fnj3Round_spec (fract : ℕ) (hn : n < 10 ^ 9) (hlead : 10 ^ 8 ≤ n) (hm : m < 10 ^ 9)
    (hq : |q| = ((n * 10 ^ 9 + m : ℕ) : ℚ) * 10 ^ (digs - 18)) :
    ∃ n' m' digs', fnj3Round (digs + fract) n m digs = (n', m', digs') ∧ n' < 10 ^ 9 ∧ m' < 10 ^ 9 ∧ (digs' = digs ∨ digs' = digs + 1) ∧
      (digs' ≤ -(fract : ℤ) → roundHalf (q * 10 ^ fract) = 0) ∧ (-(fract : ℤ) < digs' → 10 ^ 17 ≤ n' * 10 ^ 9 + m' ∧
        roundHalf (q * 10 ^ fract) = (n' * 10 ^ 9 + m') * 10 ^ (digs' + fract).toNat / 10 ^ 18) := by
  by_cases hneg : digs + fract < 0
  · refine ⟨n, m, digs, by rw [fnj3Round, if_neg (by omega)], hn, hm, .inl rfl, fun _ => roundHalf_short (by omega) hq hneg, fun h => ?_⟩
    omega
  · obtain ⟨i, hi⟩ : ∃ i : ℕ, digs + fract = i := ⟨(digs + fract).toNat, by omega⟩
    by_cases hlong : 18 ≤ i
    · refine ⟨n, m, digs, by rw [fnj3Round, if_neg (by omega)], hn, hm, .inl rfl, fun h => ?_, fun _ => ⟨by omega, ?_⟩⟩
      · omega
      · rw [roundHalf_long hq hi hlong, hi, Int.toNat_natCast]
    · have hround := roundHalf_mantissa hq hi (by omega)
      have hcarried := fnj3Round_carried digs hn hm (by omega : i < 18)
      rw [hi]
      generalize fnj3Round i n m digs = r at hcarried
      obtain ⟨n', m', digs'⟩ := r
      obtain ⟨hn', hm', hcase⟩ := hcarried
      dsimp only at hn' hm' hcase
      refine ⟨n', m', digs', rfl, hn', hm', hcase.imp And.left And.left, fun hle => ?_, fun hlt => ?_⟩
      · -- no digit is kept, and there was no carry
        obtain ⟨rfl, hsum⟩ | ⟨rfl, -, -⟩ := hcase
        · obtain rfl : i = 0 := by omega
          omega
        · omega
      · have hpow : 10 ^ (18 - i) * 10 ^ i = 10 ^ 18 := by
          rw [← Nat.pow_add]
          congr 1
          omega
        obtain ⟨rfl, hsum⟩ | ⟨rfl, hsum, hbig⟩ := hcase
        · refine ⟨by omega, ?_⟩
          rw [hround, hsum, hi, Int.toNat_natCast, ← hpow, Nat.mul_div_mul_right _ _ (Nat.pow_pos (by omega))]
        · refine ⟨by omega, ?_⟩
          have hexp : (digs + 1 + fract).toNat = i + 1 := by omega
          have hten : 10 ^ (17 - i) * 10 ^ (i + 1) = 10 ^ 18 := by
            rw [← Nat.pow_add]
            congr 1
            omega
          have heighteen : 10 ^ (18 - i) = 10 * 10 ^ (17 - i) := by
            rw [← Nat.pow_succ']
            congr 1
            omega
          rw [hround, hsum, hexp, ← hten, Nat.mul_div_mul_right _ _ (Nat.pow_pos (by omega)), Nat.div_div_eq_div_mul, heighteen]

/-! ## The text of a rounded number -/

/-- A number in decimal. -/
def wholeText (N : ℕ) : List UInt8 := if N = 0 then [ascZero] else chars (Nat.digits 10 N).reverse

/-- `R / 10 ^ fract` with `fract` decimals, with a minus sign if it is negative. -/
def decimalText (neg : Bool) (R fract : ℕ) : List UInt8 :=
  (if neg ∧ R ≠ 0 then [ascMinus] else []) ++ wholeText (R / 10 ^ fract) ++
    if fract = 0 then [] else ascDot :: chars (lastDigits 10 fract R)

/-- A number rounded to `fract` decimals, half away from zero, with blanks on the left up to a width. -/
def justifyText (q : ℚ) (width fract : ℕ) : List UInt8 :=
  let text := decimalText (decide (q < 0)) (roundHalf (q * 10 ^ fract)) fract
  List.replicate (width - text.length) ascBlank ++ text

theorem wholeText_zero : wholeText 0 = [ascZero] := if_pos rfl

theorem wholeText_digits {d N : ℕ} (hlow : 10 ^ d ≤ N) (hhigh : N < 10 ^ (d + 1)) : wholeText N = chars (lastDigits 10 (d + 1) N) := by
  rw [wholeText, if_neg (by omega), lastDigits_digits (by omega) hlow hhigh]

theorem chars_length (ds : List ℕ) : (chars ds).length = ds.length := List.length_map _

/-- The parts of the text, put together. -/
theorem justifyText_parts {width fract : ℕ} {sign : Bool} (whole : List UInt8) (w : ℤ) (hR : roundHalf (q * 10 ^ fract) = R)
    (hsign : sign = true ↔ q < 0 ∧ R ≠ 0) (hwhole : whole = wholeText (R / 10 ^ fract))
    (hw : w = width - (if sign then 1 else 0) - (if fract ≠ 0 then 1 else 0) - fract - whole.length) :
    List.replicate w.toNat ascBlank ++ (if sign then [ascMinus] else []) ++ whole ++
      (if fract ≠ 0 then ascDot :: chars (lastDigits 10 fract R) else []) = justifyText q width fract := by
  have hneg : (if decide (q < 0) = true ∧ R ≠ 0 then [ascMinus] else []) = if sign then [ascMinus] else [] := by
    by_cases hs : sign = true
    · rw [if_pos hs, if_pos (by simpa using hsign.1 hs)]
    · rw [if_neg hs, if_neg (by simpa using fun h h' => hs (hsign.2 ⟨h, h'⟩))]
  have hlen : w.toNat = width - (decimalText (decide (q < 0)) R fract).length := by
    rw [hw, decimalText, hneg, ← hwhole, List.length_append]
    by_cases hs : sign = true <;> by_cases hf : fract = 0 <;> simp [hs, hf, chars_length, lastDigits_length] <;> omega
  rw [justifyText, hR, ← hlen, decimalText, hneg, ← hwhole, List.append_assoc, List.append_assoc, List.append_assoc]
  by_cases hf : fract = 0
  · rw [if_pos hf, if_neg (not_not_intro hf)]
  · rw [if_neg hf, if_pos hf]

/-! ## An `MV_INT` -/

theorem fnj3Norm_spec (fuel digs : ℕ) (hlow : 10 ^ (9 - digs) ≤ n) (hhigh : n < 10 ^ 9) (hpos : 1 ≤ digs) (hfuel : digs ≤ fuel) (hmax : digs ≤ 9) :
    ∃ d, fnj3Norm fuel n digs = (n * 10 ^ (digs - d), d) ∧ 1 ≤ d ∧ d ≤ digs ∧ 10 ^ 8 ≤ n * 10 ^ (digs - d) ∧ n * 10 ^ (digs - d) < 10 ^ 9 := by
  induction fuel generalizing n digs with
  | zero => omega
  | succ fuel ih =>
    rw [fnj3Norm, mantLo]
    by_cases hsmall : n < 100000000
    · have hone : digs ≠ 1 := by
        rintro rfl
        exact absurd hlow (by omega)
      have hten : 10 ^ (9 - (digs - 1)) = 10 ^ (9 - digs) * 10 := by
        rw [← Nat.pow_succ]
        congr 1
        omega
      obtain ⟨d, hrun, hd, hd', hlo, hhi⟩ := ih (n := n * 10) (digs - 1) (by omega) (by omega) (by omega) (by omega) (by omega)
      have hexp : n * 10 * 10 ^ (digs - 1 - d) = n * 10 ^ (digs - d) := by
        rw [Nat.mul_assoc, ← Nat.pow_succ']
        congr 2
        omega
      rw [if_pos hsmall, hrun]
      rw [hexp] at hlo hhi ⊢
      exact ⟨d, rfl, hd, by omega, hlo, hhi⟩
    · rw [if_neg hsmall]
      exact ⟨digs, by rw [Nat.sub_self, Nat.pow_zero, Nat.mul_one], hpos, Nat.le_refl _, by rw [Nat.sub_self]; omega, by rw [Nat.sub_self]; omega⟩

theorem thousand_pow {fract : ℕ} (h : fract ≤ 3) : 10 ^ (3 - fract) * 10 ^ fract = 1000 := by rw [← Nat.pow_add, Nat.sub_add_cancel h]

/-- Rounding a number of thousandths. -/
theorem roundHalf_thousandths {m1 : ℤ} {fract N : ℕ} (hN : (if fract < 3 then m1.natAbs + fivesTable (fract + 6) else m1.natAbs) = N) :
    roundHalf ((m1 : ℚ) / 1000 * 10 ^ fract) = N * 10 ^ fract / 1000 := by
  have hq : |(m1 : ℚ) / 1000| = (m1.natAbs : ℚ) * 10 ^ ((15 : ℤ) - 18) := by
    rw [abs_div, ← Int.cast_abs, Int.abs_eq_natAbs, Int.cast_natCast]
    ring
  by_cases hshort : fract < 3
  · have hpow := thousand_pow (Nat.le_of_lt hshort)
    rw [if_pos hshort, fivesTable, tenPwr, show 8 - (fract + 6) = 17 - (15 + fract) by omega] at hN
    rw [roundHalf_mantissa (i := 15 + fract) hq (by push_cast; rfl) (by omega), hN, show 18 - (15 + fract) = 3 - fract by omega, ← hpow,
      Nat.mul_div_mul_right _ _ (Nat.pow_pos (by omega))]
  · rw [if_neg hshort] at hN
    rw [roundHalf_long (i := 15 + fract) hq (by push_cast; rfl) (by omega), hN, Nat.pow_add, Nat.mul_comm (10 ^ 15), ← Nat.mul_assoc,
      show 10 ^ 18 = 1000 * 10 ^ 15 from rfl, Nat.mul_div_mul_right _ _ (by omega)]

/-- The text of an `MV_INT` as the code puts it together. -/
theorem fnj3Int_spec {m1 : ℤ} {width fract : ℕ} (hm : m1.natAbs < mantHi) (hsize : width + fract ≤ 2 ^ 30) :
    fnj3Int m1 width fract = some (justifyText ((m1 : ℚ) / 1000) width fract) := by
  have hneg : (m1 : ℚ) / 1000 < 0 ↔ m1 < 0 := by
    rw [div_lt_iff₀ (by norm_num), zero_mul]
    exact Int.cast_lt_zero
  have hfive : fivesTable (fract + 6) ≤ 500 := Nat.mul_le_mul_left 5 (Nat.pow_le_pow_right (n := 10) (by omega) (by omega : 8 - (fract + 6) ≤ 2))
  rw [mantHi] at hm
  obtain ⟨N, hN⟩ : ∃ N, (if fract < 3 then m1.natAbs + fivesTable (fract + 6) else m1.natAbs) = N := ⟨_, rfl⟩
  have hR := roundHalf_thousandths hN
  have hNhigh : N < 1000000500 := by split at hN <;> omega
  have hNlow : m1.natAbs ≤ N := by split at hN <;> omega
  generalize hRdef : N * 10 ^ fract / 1000 = R at hR
  have hwhole : R / 10 ^ fract = N / 1000 := by
    rw [← hRdef, Nat.div_div_eq_div_mul, Nat.mul_comm 1000, Nat.mul_comm N, Nat.mul_div_mul_left _ _ (Nat.pow_pos (by omega))]
  rw [fnj3Int]
  rw [hN]
  have hint {x : ℤ} (hlow : -2 ^ 31 ≤ x) (hhigh : x < 2 ^ 31) : int4 x = some x := if_pos ⟨by omega, by omega⟩
  by_cases hsmall : N < 1000
  · obtain ⟨n', sign, hpair, hn', hRn, hsign⟩ : ∃ n' sign, (if decide (m1 < 0) = true ∧ fract < 4 ∧ N / tenPwr (3 - fract) = 0 then (0, 0, false)
        else (N * 1000000, 0, decide (m1 < 0)) : ℕ × ℕ × Bool) = (n', 0, sign) ∧ n' < 10 ^ 9 ∧ R = n' * 10 ^ (0 + fract) / 10 ^ 9 ∧
        (sign = true ↔ m1 < 0 ∧ R ≠ 0) := by
      have hR' : R = N * 1000000 * 10 ^ (0 + fract) / 10 ^ 9 := by
        rw [← hRdef, Nat.zero_add, Nat.mul_right_comm, show 10 ^ 9 = 1000 * 1000000 from rfl, Nat.mul_div_mul_right _ _ (by omega)]
      by_cases hc : decide (m1 < 0) = true ∧ fract < 4 ∧ N / tenPwr (3 - fract) = 0
      · have hR0 : R = 0 := by
          have hpow := thousand_pow (Nat.le_of_lt_succ hc.2.1)
          rw [← hRdef, ← hpow, Nat.mul_div_mul_right _ _ (Nat.pow_pos (by omega))]
          exact hc.2.2
        exact ⟨0, false, by rw [if_pos hc], by omega, by rw [hR0, Nat.zero_mul, Nat.zero_div], by simp [hR0]⟩
      · refine ⟨N * 1000000, decide (m1 < 0), by rw [if_neg hc], by omega, hR', ?_⟩
        rw [decide_eq_true_eq]
        refine ⟨fun hm1 => ⟨hm1, fun hR0 => ?_⟩, And.left⟩
        have hzero : N * 10 ^ fract < 1000 := by
          rw [hR0] at hRdef
          exact (Nat.div_eq_zero_iff.1 hRdef).resolve_left (by omega)
        by_cases hfour : fract < 4
        · have hpow := thousand_pow (Nat.le_of_lt_succ hfour)
          refine hc ⟨decide_eq_true hm1, hfour, Nat.div_eq_of_lt ?_⟩
          rw [← hpow] at hzero
          exact lt_of_mul_lt_mul_right hzero (Nat.zero_le _)
        · have hten : 10 ^ 4 ≤ 10 ^ fract := Nat.pow_le_pow_right (by omega) (by omega)
          have hone : 1 * 10 ^ fract ≤ N * 10 ^ fract := Nat.mul_le_mul_right _ (by omega)
          omega
    obtain ⟨-, hfract⟩ := fnj3IntDigits_fract 0 fract hn' hRn
    rw [fnj3IntDigits] at hfract
    rw [if_pos hsmall, hpair]
    dsimp only
    rw [hint (by split <;> split <;> omega) (by split <;> split <;> omega), Option.bind_eq_bind]
    simp only [if_pos, Option.pure_def, hfract]
    rw [← justifyText_parts [ascZero] (width - (if sign then 1 else 0) - (if fract ≠ 0 then 1 else 0) - fract - (0 : ℕ) - 1) hR
      (hsign.trans (and_congr_left' hneg.symm)) (by rw [hwhole, Nat.div_eq_of_lt hsmall, wholeText_zero]) (by simp)]
    by_cases hf : fract = 0
    · simp [hf]
    · simp [hf]
  · have hpos : R ≠ 0 := by
      rintro rfl
      rw [Nat.zero_div] at hwhole
      omega
    have hsign : decide (m1 < 0) = true ↔ (m1 : ℚ) / 1000 < 0 ∧ R ≠ 0 := by rw [decide_eq_true_eq, hneg, and_iff_left hpos]
    rw [if_neg hsmall]
    by_cases hbig : mantHi ≤ N
    · have hbig' : 1000000000 ≤ N := hbig
      have hten (x : ℕ) : x * 10 ^ (6 + fract) / 10 ^ 9 = x * 10 ^ fract / 1000 := by
        rw [Nat.add_comm, Nat.pow_add, ← Nat.mul_assoc, show 10 ^ 9 = 1000 * 10 ^ 6 from rfl, Nat.mul_div_mul_right _ _ (by omega)]
      obtain ⟨hdigs, hfract⟩ := fnj3IntDigits_fract 6 fract (by omega) (hten (N - 1000000000)).symm
      have hsum : R = (N - 1000000000) * 10 ^ fract / 1000 + 10 ^ 6 * 10 ^ fract := by
        rw [← hRdef, ← Nat.add_mul_div_right _ _ (by omega : 0 < 1000)]
        congr 1
        rw [Nat.mul_right_comm, ← Nat.add_mul, show 10 ^ 6 * 1000 = 1000000000 from rfl, Nat.sub_add_cancel hbig']
      have hdiv : R / 10 ^ fract = (N - 1000000000) * 10 ^ fract / 1000 / 10 ^ fract + 1 * 10 ^ 6 := by
        rw [hsum, Nat.add_mul_div_right _ _ (Nat.pow_pos (by omega)), Nat.one_mul]
      have htext : wholeText (R / 10 ^ fract) = digitChar 1 :: (fnj3IntDigits 6 (N - 1000000000)).1 := by
        rw [hwhole, wholeText_digits (d := 6) (by omega) (by omega), lastDigits_succ, show N / 1000 / 10 ^ 6 % 10 = 1 by omega, ← hwhole, hdiv,
          lastDigits_add_mul (by omega), hdigs]
        rfl
      have hlow : lastDigits 10 fract R = lastDigits 10 fract ((N - 1000000000) * 10 ^ fract / 1000) := by
        rw [hsum, lastDigits_add_mul (by omega)]
      have hzero : ¬ 7 = 0 := by omega
      rw [if_pos hbig]
      dsimp only
      rw [hint (by split <;> split <;> omega) (by split <;> split <;> omega), Option.bind_eq_bind]
      rw [← justifyText_parts (digitChar 1 :: (fnj3IntDigits 6 (N - 1000000000)).1) (width - (if decide (m1 < 0) then 1 else 0) -
        (if fract ≠ 0 then 1 else 0) - fract - (7 : ℕ)) hR hsign htext.symm (by rw [hdigs, List.length_cons, chars_length, lastDigits_length]), hlow,
        ← hfract]
      by_cases hf : fract = 0
      · simp [hf, mantHi]
      · simp [hf, mantHi]
    · have hbig' : ¬ 1000000000 ≤ N := hbig
      obtain ⟨d, hrun, hd, hd', hlo, hhi⟩ := fnj3Norm_spec (n := N) 9 6 (by omega) (by omega) (by omega) (by omega) (by omega)
      obtain ⟨e, rfl⟩ : ∃ e, d = e + 1 := ⟨d - 1, by omega⟩
      have hRn : R = N * 10 ^ (6 - (e + 1)) * 10 ^ (e + 1 + fract) / 10 ^ 9 := by
        rw [← hRdef, Nat.mul_assoc, ← Nat.pow_add, show 6 - (e + 1) + (e + 1 + fract) = fract + 6 by omega, Nat.pow_add, ← Nat.mul_assoc,
          show 10 ^ 9 = 1000 * 10 ^ 6 from rfl, Nat.mul_div_mul_right _ _ (by omega)]
      obtain ⟨hdigs, hfract⟩ := fnj3IntDigits_fract (e + 1) fract hhi hRn
      have htext : wholeText (R / 10 ^ fract) = (fnj3IntDigits (e + 1) (N * 10 ^ (6 - (e + 1)))).1 := by
        have hrange : 10 ^ e ≤ N / 1000 ∧ N / 1000 < 10 ^ (e + 1) := by
          have he : e ≤ 5 := by omega
          clear hdigs hfract hRn hR hrun hwhole hRdef
          interval_cases e <;> omega
        rw [hdigs, wholeText_digits (hwhole ▸ hrange.1) (hwhole ▸ hrange.2)]
      have hzero : ¬ e + 1 = 0 := by omega
      have hseven : ¬ e + 1 = 7 := by omega
      rw [if_neg hbig, hrun]
      dsimp only
      rw [hint (by split <;> split <;> omega) (by split <;> split <;> omega), Option.bind_eq_bind]
      simp only [if_neg hzero, if_neg hseven]
      rw [← justifyText_parts (fnj3IntDigits (e + 1) (N * 10 ^ (6 - (e + 1)))).1 (width - (if decide (m1 < 0) then 1 else 0) -
        (if fract ≠ 0 then 1 else 0) - fract - (e + 1 : ℕ)) hR hsign htext.symm (by rw [hdigs, chars_length, lastDigits_length]), ← hfract]
      by_cases hf : fract = 0
      · simp [hf]
      · simp [hf]

/-! ## Any other number -/

/-- The decimals of a number below 1: zeros, then the digits of its mantissa. -/
theorem firstDigits_decimals {z fract : ℕ} (hX : X < 10 ^ 18) (hz : z ≤ fract) (hR : R = X * 10 ^ (fract - z) / 10 ^ 18) :
    List.replicate z 0 ++ firstDigits 10 17 (fract - z) X = lastDigits 10 fract R := by
  have hlt : R < 10 ^ (fract - z) := by
    rw [hR, Nat.div_lt_iff_lt_mul (by omega), Nat.mul_comm]
    exact Nat.mul_lt_mul_of_pos_left hX (Nat.pow_pos (by omega))
  have hsplit : lastDigits 10 fract R = lastDigits 10 z (R / 10 ^ (fract - z)) ++ lastDigits 10 (fract - z) R := by
    rw [← lastDigits_add, Nat.add_sub_cancel' hz]
  rw [hsplit, Nat.div_eq_of_lt hlt, lastDigits_zero, firstDigits_eq (L := 17) (by omega) _ hX, ← hR]

/-- The text of any other number as the code puts it together. -/
theorem fnj3Approx_spec {sgn : Bool} {e m1 m0 width fract : ℕ} (hlead : mantLo ≤ m1) (h1 : m1 < mantHi) (h0 : m0 < mantHi) (he : e < expHi)
    (hq : |q| = ((m1 * 10 ^ 9 + m0 : ℕ) : ℚ) * 10 ^ ((e : ℤ) - mvXbias - 18)) (hsgn : sgn = true ↔ q < 0) (hsize : width + fract ≤ 2 ^ 30) :
    fnj3Approx sgn e m1 m0 width fract = some (justifyText q width fract) := by
  have hint {x : ℤ} (hlow : -2 ^ 31 ≤ x) (hhigh : x < 2 ^ 31) : int4 x = some x := if_pos ⟨by omega, by omega⟩
  rw [expHi] at he
  obtain ⟨n, m, digs, hround, hn, hm, hdigs, hzero, hmore⟩ := fnj3Round_spec fract h1 hlead h0 hq
  generalize hR : roundHalf (q * 10 ^ fract) = R at hzero hmore
  rw [mvXbias] at hround hdigs
  rw [fnj3Approx, mvXbias]
  rw [hint (by omega) (by omega), Option.bind_eq_bind, Option.bind_some, hround]
  dsimp only
  obtain ⟨sign, n', m', hpair, hn', hm', hsign, hkept⟩ : ∃ sign n' m', (if digs ≤ -(fract : ℤ) then (false, 0, 0) else (sgn, n, m)) =
      (sign, n', m') ∧ n' < 10 ^ 9 ∧ m' < 10 ^ 9 ∧ (sign = true ↔ q < 0 ∧ R ≠ 0) ∧
      ((digs ≤ -(fract : ℤ) ∧ n' * 10 ^ 9 + m' = 0 ∧ R = 0) ∨ (-(fract : ℤ) < digs ∧ 10 ^ 17 ≤ n' * 10 ^ 9 + m' ∧
        R = (n' * 10 ^ 9 + m') * 10 ^ (digs + fract).toNat / 10 ^ 18)) := by
    by_cases hnone : digs ≤ -(fract : ℤ)
    · have hR0 := hzero hnone
      exact ⟨false, 0, 0, if_pos hnone, by omega, by omega, by simp [hR0], .inl ⟨hnone, rfl, hR0⟩⟩
    · obtain ⟨hbig, hRX⟩ := hmore (by omega)
      have hpos : R ≠ 0 := by
        have hten : 10 ^ 1 ≤ 10 ^ (digs + fract).toNat := Nat.pow_le_pow_right (by omega) (by omega)
        have hprod : 10 ^ 17 * 10 ^ 1 ≤ (n * 10 ^ 9 + m) * 10 ^ (digs + fract).toNat := Nat.mul_le_mul hbig hten
        rw [hRX]
        exact Nat.pos_iff_ne_zero.1 (Nat.div_pos hprod (by omega))
      exact ⟨sgn, n, m, if_neg hnone, hn, hm, by rw [hsgn, and_iff_left hpos], .inr ⟨by omega, hbig, hRX⟩⟩
  have hok : (⟨n', m', 0⟩ : Fnj3Words).Ok := ⟨hn', hm', fun _ => Nat.one_dvd _, fun h => absurd h (by dsimp only; omega)⟩
  have hword : (⟨n', m', 0⟩ : Fnj3Words).word = n' * 10 ^ 9 + m' := by rw [Fnj3Words.word, Nat.pow_zero, Nat.mul_one]
  have hlt := Fnj3Words.word_lt hok
  rw [hword] at hlt
  rw [hpair]
  rw [hint (by split <;> split <;> split <;> omega) (by split <;> split <;> split <;> omega)]
  by_cases hbelow : digs < 1
  · -- nothing in front of the decimal point but a zero
    obtain ⟨z, hz⟩ : ∃ z, (if digs < 0 then min digs.natAbs fract else 0) = z := ⟨_, rfl⟩
    have hzle : z ≤ fract := by
      rw [← hz]
      split
      · exact Nat.min_le_right _ _
      · exact Nat.zero_le _
    have hRz : R = (n' * 10 ^ 9 + m') * 10 ^ (fract - z) / 10 ^ 18 := by
      obtain ⟨-, hX, hR0⟩ | ⟨-, -, hRX⟩ := hkept
      · rw [hX, hR0, Nat.zero_mul, Nat.zero_div]
      · have hexp : (digs + fract).toNat = fract - z := by
          rw [← hz]
          split <;> omega
        rw [hRX, hexp]
    obtain ⟨ds, left, s', hrun, htext, -, -⟩ := fnj3Digits_eq (k := fract - z) hok
    have hdecimals := firstDigits_decimals hlt hzle hRz
    have hfract : List.replicate z ascZero ++ ds ++ List.replicate left ascZero = chars (lastDigits 10 fract R) := by
      rw [List.append_assoc, htext, hword, ← DecimalTextAux.chars_replicate, ← DecimalTextAux.chars_append, hdecimals]
    have hwhole : [ascZero] = wholeText (R / 10 ^ fract) := by
      have hRlt : R < 10 ^ fract := by
        have hle : 10 ^ (fract - z) ≤ 10 ^ fract := Nat.pow_le_pow_right (by omega) (by omega)
        refine Nat.lt_of_lt_of_le ?_ hle
        rw [hRz, Nat.div_lt_iff_lt_mul (by omega), Nat.mul_comm]
        exact Nat.mul_lt_mul_of_pos_left hlt (Nat.pow_pos (by omega))
      rw [Nat.div_eq_of_lt hRlt, wholeText_zero]
    rw [← justifyText_parts [ascZero] (width - fract - (if fract ≠ 0 then 1 else 0) - (if sign then 1 else 0) - 1) hR hsign hwhole
      (by rw [List.length_singleton]; omega)]
    simp only [if_pos hbelow, hz, hrun, hfract, Option.pure_def]
    by_cases hf : fract = 0
    · simp [hf]
    · simp [hf]
  · obtain ⟨d, rfl⟩ : ∃ d : ℕ, digs = (d + 1 : ℕ) := ⟨(digs - 1).toNat, by omega⟩
    obtain ⟨-, hX, hRX⟩ := hkept.resolve_left fun h => by omega
    have hexp : (((d + 1 : ℕ) : ℤ) + fract).toNat = d + 1 + fract := by omega
    rw [hexp] at hRX
    obtain ⟨hfirst, hnext⟩ := firstDigits_split (L := 17) (by omega) (d + 1) fract hlt hRX
    obtain ⟨ds, left, s', hrun, htext, hok', hword'⟩ := fnj3Digits_eq (k := d + 1) hok
    obtain ⟨ds', left', s'', hrun', htext', -, -⟩ := fnj3Digits_eq (k := fract) hok'
    rw [hword, hfirst] at htext
    rw [hword', hword, hnext] at htext'
    have hdiv : R / 10 ^ fract = (n' * 10 ^ 9 + m') * 10 ^ (d + 1) / 10 ^ 18 := by
      rw [hRX, Nat.div_div_eq_div_mul, Nat.mul_comm (10 ^ 18), Nat.pow_add, ← Nat.mul_assoc, Nat.mul_comm _ (10 ^ fract),
        Nat.mul_div_mul_left _ _ (Nat.pow_pos (by omega))]
    have hlow : 10 ^ d ≤ R / 10 ^ fract := by
      rw [hdiv, Nat.le_div_iff_mul_le (by omega)]
      calc 10 ^ d * 10 ^ 18 = 10 ^ 17 * 10 ^ (d + 1) := by ring
        _ ≤ (n' * 10 ^ 9 + m') * 10 ^ (d + 1) := Nat.mul_le_mul_right _ hX
    have hhigh : R / 10 ^ fract < 10 ^ (d + 1) := by
      rw [hdiv, Nat.div_lt_iff_lt_mul (by omega), Nat.mul_comm]
      exact Nat.mul_lt_mul_of_pos_left hlt (Nat.pow_pos (by omega))
    have hwhole : ds ++ List.replicate left ascZero = wholeText (R / 10 ^ fract) := by rw [htext, wholeText_digits hlow hhigh]
    have hleft : ¬ (left : ℤ) < 0 := by omega
    rw [← justifyText_parts (ds ++ List.replicate left ascZero) (width - fract - (if fract ≠ 0 then 1 else 0) - (if sign then 1 else 0) - (d + 1 : ℕ))
      hR hsign hwhole (by rw [htext, chars_length, lastDigits_length]; omega), ← htext']
    simp only [if_neg hbelow, Int.toNat_natCast, hrun, if_neg hleft, Nat.sub_zero, hrun', Option.pure_def]
    by_cases hf : fract = 0
    · simp [hf]
    · simp [hf]

/-! ## The function -/

/-- Both branches write the same text. -/
theorem fnj3_text (width fract : ℕ) {v : Mval} (hv : v.Number) (hsize : width + fract ≤ 2 ^ 30) :
    (if v.mvtype.int then fnj3Int v.m1 width fract else fnj3Approx v.sgn v.e v.m1.toNat v.m0.toNat width fract) =
      some (justifyText v.numVal width fract) := by
  by_cases hint : v.mvtype.int = true
  · have hbound := hv.int_bound hint
    rw [if_pos hint, NumberRoundTripAux.numVal_int hint]
    rw [Int.abs_eq_natAbs] at hbound
    exact fnj3Int_spec (by rw [mantHi]; omega) hsize
  · have hint' : v.mvtype.int = false := by simpa using hint
    obtain ⟨⟨h1, h1', h0, h0'⟩, hlead⟩ := hv.normal hint'
    have hexp := hv.exp_bounds hint'
    have hval := NumberStoreAux.numVal_mant hint'
    have hnat : v.mant.val = ((v.m1.toNat * 10 ^ 9 + v.m0.toNat : ℕ) : ℤ) := by
      simp only [Mantissa.val, Mval.mant] at *
      omega
    have hmant : (v.mant.val : ℚ) = ((v.m1.toNat * 10 ^ 9 + v.m0.toNat : ℕ) : ℚ) := by exact_mod_cast hnat
    have hpos : 0 < ((v.m1.toNat * 10 ^ 9 + v.m0.toNat : ℕ) : ℚ) * 10 ^ ((v.e : ℤ) - mvXbias - 18) := by
      have : 0 < v.m1.toNat * 10 ^ 9 + v.m0.toNat := by
        simp only [Mval.mant] at *
        omega
      exact mul_pos (by exact_mod_cast this) (by positivity)
    rw [hmant] at hval
    rw [if_neg hint]
    simp only [Mval.mant] at h1 h1' h0 h0' hlead
    refine fnj3Approx_spec (by rw [mantLo]; omega) (by rw [mantHi]; omega) (by rw [mantHi]; omega) hexp.2 ?_ ?_ hsize
    · rw [hval, Truncation.abs_signed, abs_of_pos hpos]
    · rw [hval]
      cases v.sgn with
      | true => simpa using hpos
      | false => simpa using le_of_lt hpos

/-- What the function does with an argument that is a number in valid representation when it is forced to be one. -/
theorem opFnj3_eq {src : Mval} {width fract : ℤ} (hsrc : ∀ v, mvForceNum src = .ok v → v.Number) :
    opFnj3 src width fract = if (maxStrlen : ℤ) < width then some (.error .maxstrlen)
      else if fract < 0 then some (.error .justfract)
      else if 2 ^ 31 ≤ max width 0 + 66 + fract then none
      else if (maxStrlen : ℤ) < max width 0 + 66 + fract then some (.error .maxstrlen)
      else match mvForceNum src with
        | .error _ => some (.error .numoflow)
        | .ok v => some (.ok ⟨max width 0 + 66 + fract, justifyText v.numVal width.toNat fract.toNat⟩) := by
  have hwidth : (if width < 0 then 0 else width) = max width 0 := by split <;> omega
  have hsum : max width 0 + (maxNumSize : ℤ) + 2 + fract = max width 0 + 66 + fract := by
    rw [maxNumSize]
    omega
  rw [opFnj3, hwidth]
  rw [hsum, maxStrlen]
  by_cases hwide : ((1048576 : ℕ) : ℤ) < width
  · rw [if_pos (by omega), if_pos hwide]
  · rw [if_neg (by omega), if_neg hwide]
    by_cases hneg : fract < 0
    · rw [if_pos hneg, if_pos hneg]
    · by_cases hover : 2 ^ 31 ≤ max width 0 + 66 + fract
      · have hnone : int4 (max width 0 + 66 + fract) = none := if_neg (by omega)
        rw [if_pos hover, hnone]
        rfl
      · have hsome : int4 (max width 0 + 66 + fract) = some (max width 0 + 66 + fract) := if_pos ⟨by omega, by omega⟩
        rw [if_neg hover, hsome, Option.bind_eq_bind, Option.bind_some]
        by_cases hlong : ((1048576 : ℕ) : ℤ) < max width 0 + 66 + fract
        · rw [if_pos hlong, if_pos hlong]
          rfl
        · cases hforce : mvForceNum src with
          | error err => rfl
          | ok v =>
            have htext := fnj3_text (max width 0).toNat fract.toNat (hsrc v hforce) (by omega)
            have hnat : (max width 0).toNat = width.toNat := by omega
            dsimp only
            rw [hnat] at htext ⊢
            by_cases hint : v.mvtype.int = true
            · rw [if_pos hint] at htext ⊢
              rw [htext]
              rfl
            · rw [if_neg hint] at htext ⊢
              rw [htext]
              rfl

end Justify

end Gtm
