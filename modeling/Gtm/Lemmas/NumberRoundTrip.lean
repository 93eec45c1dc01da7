import Gtm.Lemmas.StringToNumber
import Gtm.Lemmas.NumberToString

/-!
# Numbers through their text and back

`n2s` followed by `s2n` gives the number back, and `s2n` followed by `n2s` gives the string back when `s2n` did not mark it as an
approximation. In between stands the text `decStr` of a sign, an exponent and digits: `n2s` writes it, and a string that `s2n`
reads as exact is one.
-/

namespace Gtm

open Positional DecimalTextAux StringToNumberAux

namespace NumberRoundTripAux

/-! ## The text of a number in range -/

variable {ds : List ℕ} {e : ℤ} {q : ℚ} {v : Mval}

/-- Digits without trailing zeros are no more than the places the number has. -/
theorem length_le_of_frac (hd : Digits 10 ds) (ht : Trimmed ds) {k N : ℕ} (h : frac 10 ds * 10 ^ k = N) : ds.length ≤ k := by
  by_contra hlt
  obtain ⟨n, hn⟩ : ∃ n, ds.length = k + (n + 1) := ⟨ds.length - k - 1, by omega⟩
  obtain ⟨ds, d, rfl⟩ : ∃ es d, ds = es ++ [d] := by
    rcases List.eq_nil_or_concat ds with rfl | ⟨es, d, rfl⟩
    · simp at hn
    · exact ⟨es, d, by simp⟩
  have hwhole : whole 10 (ds ++ [d]) 0 = N * 10 ^ (n + 1) := by
    have hw := whole_eq (B := 10) (by norm_num) (ds ++ [d]) 0
    rw [hn, pow_add, Nat.cast_zero, zero_add, ← mul_assoc, Nat.cast_ofNat, h] at hw
    exact_mod_cast hw
  have hd10 : d < 10 := hd d (by simp)
  have hd0 : d ≠ 0 := by
    rintro rfl
    exact ht (by simp)
  rw [whole_append, whole_cons, whole_nil, pow_succ, ← mul_assoc] at hwhole
  omega

/-- A normal form lies between two powers of ten. -/
theorem normal_bounds (h : Normal 10 e ds q) : (10 : ℚ) ^ (e - 1) ≤ q ∧ q < 10 ^ e := by
  have hlt := frac_lt_one (by norm_num) h.digits
  have hpos : (0 : ℚ) < 10 ^ e := by positivity
  rw [h.value, zpow_sub_one₀ (by norm_num)]
  constructor
  · calc (10 : ℚ) ^ e * 10⁻¹ = 1 / 10 * 10 ^ e := by ring
      _ ≤ frac 10 ds * 10 ^ e := mul_le_mul_of_nonneg_right h.lead hpos.le
  · calc frac 10 ds * 10 ^ e < 1 * 10 ^ e := mul_lt_mul_of_pos_right hlt hpos
      _ = 10 ^ e := one_mul _

/-- The exponent of a number is determined by the powers of ten it lies between. -/
theorem exp_le {a b : ℤ} (ha : (10 : ℚ) ^ (a - 1) ≤ q) (hb : q < 10 ^ b) : a ≤ b := by
  have h : (10 : ℚ) ^ (a - 1) < 10 ^ b := lt_of_le_of_lt ha hb
  have := (zpow_lt_zpow_iff_right₀ (by norm_num : (1 : ℚ) < 10)).mp h
  omega

/-- The digits of a number that is a whole number of thousandths. -/
theorem thousandths_normal {m : ℕ} (hm : m < mantHi) (hn : Normal 10 e ds (m / 1000)) :
    ∃ k : ℕ, e + 3 = k ∧ 0 < k ∧ k ≤ 9 ∧ frac 10 ds * 10 ^ k = m ∧ ds.length ≤ k := by
  obtain ⟨hlo, hhi⟩ := normal_bounds hn
  have hm0 : 0 < m := by
    rcases Nat.eq_zero_or_pos m with rfl | h
    · have := hn.pos
      simp at this
    · exact h
  have hmq : (1 : ℚ) ≤ m := by exact_mod_cast hm0
  have hmlt : (m : ℚ) < 10 ^ 9 := by exact_mod_cast hm
  have he : e ≤ 6 := by
    apply exp_le hlo
    rw [show (10 : ℚ) ^ (6 : ℤ) = 10 ^ 9 / 1000 by norm_num]
    exact div_lt_div_of_pos_right hmlt (by norm_num)
  have he' : -2 ≤ e := by
    apply exp_le _ hhi
    rw [show (10 : ℚ) ^ (-2 - 1 : ℤ) = 1 / 1000 by norm_num]
    exact div_le_div_of_nonneg_right hmq (by norm_num)
  obtain ⟨k, hk⟩ : ∃ k : ℕ, e + 3 = k := ⟨(e + 3).toNat, by omega⟩
  have hval : frac 10 ds * 10 ^ k = m := by
    have h1 := hn.value
    rw [show e = (k : ℤ) - 3 by omega, zpow_sub₀ (by norm_num), zpow_natCast] at h1
    linarith
  exact ⟨k, hk, by omega, by omega, hval, length_le_of_frac hn.digits hn.trimmed hval⟩

theorem normal_lead (hn : Normal 10 e ds q) : ∃ d t, ds = d :: t ∧ d ≠ 0 := by
  obtain ⟨d, t, rfl⟩ := List.exists_cons_of_ne_nil hn.ne_nil
  refine ⟨d, t, rfl, ?_⟩
  rintro rfl
  have h1 := hn.lead
  have h2 := frac_lt_one (by norm_num) (digits_cons.mp hn.digits).2
  norm_num at h1 h2
  linarith

theorem numVal_int (h : v.mvtype.int = true) : v.numVal = v.m1 / 1000 := by rw [Mval.numVal, if_pos h]

theorem abs_numVal_int (h : v.mvtype.int = true) : |v.numVal| = (v.m1.natAbs : ℚ) / 1000 := by
  rw [numVal_int h, abs_div, abs_of_pos (by norm_num : (0 : ℚ) < 1000), Nat.cast_natAbs, Int.cast_abs]

/-- The magnitude of a number that is not stored in thousandths. -/
theorem abs_numVal_words (hv : v.MantValid) (h : v.mvtype.int = false) :
    ∃ N : ℕ, 10 ^ 17 ≤ N ∧ N < 10 ^ 18 ∧ |v.numVal| = N / 10 ^ 18 * 10 ^ ((v.e : ℤ) - mvXbias) := by
  unfold Mval.MantValid at hv
  rw [if_neg (by simp [h])] at hv
  refine ⟨(v.m1 * 10 ^ 9 + v.m0).toNat, by simp only [mantLo, mantHi] at *; omega, by simp only [mantLo, mantHi] at *; omega, ?_⟩
  have hN : ((v.m1 * 10 ^ 9 + v.m0).toNat : ℚ) = v.m1 * 10 ^ 9 + v.m0 := by
    have : ((v.m1 * 10 ^ 9 + v.m0).toNat : ℤ) = v.m1 * 10 ^ 9 + v.m0 := Int.toNat_of_nonneg (by simp only [mantLo] at *; omega)
    exact_mod_cast this
  have hnn : (0 : ℚ) ≤ v.m1 * 10 ^ 9 + v.m0 := by
    rw [← hN]
    positivity
  have hpos : (0 : ℚ) ≤ (v.m1 * 10 ^ 9 + v.m0) / 10 ^ 18 * 10 ^ ((v.e : ℤ) - mvXbias) := by positivity
  rw [hN, Mval.numVal, if_neg (by simp [h])]
  cases v.sgn
  · rw [if_neg (by simp), one_mul, abs_of_nonneg hpos]
  · rw [if_pos rfl, neg_one_mul, neg_mul, abs_neg, abs_of_nonneg hpos]

/-- A number in range, other than zero, has a canonic exponent and digits. -/
theorem canonic_of_numValid (hv : v.NumValid) (hn : Normal 10 e ds |v.numVal|) : Canonic e ds := by
  cases hint : v.mvtype.int with
  | true =>
    have hm : v.m1.natAbs < mantHi := by simpa [Mval.NumValid, hint] using hv
    rw [abs_numVal_int hint] at hn
    obtain ⟨k, hk, hpos, hk9, -, hlen⟩ := thousandths_normal hm hn
    refine ⟨hn.digits, hn.trimmed, normal_lead hn, ?_, ?_, ?_⟩
    · simp only [numDecDg2l]
      omega
    · simp only [expLo, mvXbias]
      omega
    · simp only [expHi, mvXbias]
      omega
  | false =>
    obtain ⟨N, hlo, hhi, hN⟩ := abs_numVal_words hv.mantValid hint
    have hrange : expLo ≤ v.e ∧ v.e < expHi := by
      unfold Mval.NumValid at hv
      rw [if_neg (by simp [hint])] at hv
      exact hv.2.2.2.2
    rw [hN] at hn
    obtain ⟨hn1, hn2⟩ := normal_bounds hn
    have hNlo : (10 : ℚ) ^ 17 ≤ N := by exact_mod_cast hlo
    have hNhi : (N : ℚ) < 10 ^ 18 := by exact_mod_cast hhi
    have hpos : (0 : ℚ) < 10 ^ ((v.e : ℤ) - mvXbias) := by positivity
    have he : e = (v.e : ℤ) - mvXbias := by
      apply le_antisymm
      · apply exp_le hn1
        rw [mul_lt_iff_lt_one_left hpos, div_lt_one (by norm_num)]
        exact hNhi
      · apply exp_le _ hn2
        rw [zpow_sub_one₀ (by norm_num), mul_comm]
        apply mul_le_mul_of_nonneg_right _ hpos.le
        linarith
    have hval : frac 10 ds * 10 ^ 18 = N := by
      have h1 := hn.value
      rw [he] at h1
      have h2 := mul_right_cancel₀ hpos.ne' h1
      rw [← h2]
      field_simp
    refine ⟨hn.digits, hn.trimmed, normal_lead hn, length_le_of_frac hn.digits hn.trimmed hval, by omega, by omega⟩

/-- `n2s` writes the text of a number in range, other than zero. -/
theorem n2sStr_decStr (hv : v.MantValid) (hne : v.numVal ≠ 0) :
    ∃ e ds, n2sStr v = decStr (decide (v.numVal < 0)) e ds ∧ Normal 10 e ds |v.numVal| := by
  obtain ⟨is, fs, hs, ht⟩ := n2sStr_text v hv hne
  obtain ⟨e, ds, hbody, hn⟩ := decText_canonical ht.int_digits ht.frac_digits ht.lead ht.trimmed ht.ne_nil
  rw [ht.value] at hn
  refine ⟨e, ds, ?_, hn⟩
  rw [hs, hbody, decStr]
  simp

end NumberRoundTripAux

open NumberRoundTripAux

/-- The text of zero. -/
theorem n2sStr_of_zero {v : Mval} (hv : v.NumValid) (h0 : v.numVal = 0) : n2sStr v = [ascZero] := by
  cases hint : v.mvtype.int with
  | true =>
    have hm : v.m1 = 0 := by
      rw [numVal_int hint] at h0
      simpa using h0
    simp [n2sStr, hm]
  | false =>
    obtain ⟨N, hlo, -, hN⟩ := abs_numVal_words hv.mantValid hint
    rw [h0] at hN
    have : (0 : ℚ) < N / 10 ^ 18 * 10 ^ ((v.e : ℤ) - mvXbias) := by positivity
    linarith

/-- The text of a number in range depends on its value only. -/
theorem n2sStr_congr {v w : Mval} (hv : v.NumValid) (hw : w.NumValid) (h : v.numVal = w.numVal) : n2sStr v = n2sStr w := by
  by_cases h0 : v.numVal = 0
  · rw [n2sStr_of_zero hv h0, n2sStr_of_zero hw (h ▸ h0)]
  · obtain ⟨e, ds, hs, hn⟩ := n2sStr_decStr hv.mantValid h0
    obtain ⟨e', ds', hs', hn'⟩ := n2sStr_decStr hw.mantValid (h ▸ h0)
    rw [← h] at hn' hs'
    obtain ⟨rfl, rfl⟩ := hn.unique (by norm_num) hn'
    rw [hs, hs']

namespace NumberRoundTripAux

/-! ## What `s2n` stores for any string -/

variable {r' : List UInt8} {k : ℕ}

/-- Reading digits refines the number a word starts with: the places still open are the digits read. -/
theorem s2nDigits_bounds (b : ℕ) (r : List UInt8) (m i z : ℕ) {b' m' i' z' : ℕ}
    (h : s2nDigits b r m i z = (r', b', m', i', z')) : m * 10 ^ b ≤ m' * 10 ^ b' ∧ (m' + 1) * 10 ^ b' ≤ (m + 1) * 10 ^ b := by
  induction b generalizing r m i z with
  | zero =>
    obtain ⟨-, rfl, rfl, -, -⟩ := by simpa using h
    exact ⟨le_rfl, le_rfl⟩
  | succ b ih =>
    cases r with
    | nil =>
      obtain ⟨-, rfl, rfl, -, -⟩ := by simpa using h
      exact ⟨le_rfl, le_rfl⟩
    | cons c r =>
      unfold s2nDigits at h
      split at h
      · next hc =>
        have hd := digitVal_lt hc
        obtain ⟨h1, h2⟩ := ih r _ _ _ h
        constructor
        · calc m * 10 ^ (b + 1) = m * 10 * 10 ^ b := by ring
            _ ≤ (m * 10 + digitVal c) * 10 ^ b := Nat.mul_le_mul_right _ (by omega)
            _ ≤ m' * 10 ^ b' := h1
        · calc (m' + 1) * 10 ^ b' ≤ (m * 10 + digitVal c + 1) * 10 ^ b := h2
            _ ≤ ((m + 1) * 10) * 10 ^ b := Nat.mul_le_mul_right _ (by omega)
            _ = (m + 1) * 10 ^ (b + 1) := by ring
      · obtain ⟨-, rfl, rfl, -, -⟩ := by simpa using h
        exact ⟨le_rfl, le_rfl⟩

/-- A mantissa word, filled up with zeros, has nine digits. -/
theorem s2nWord_lt (r : List UInt8) (i z : ℕ) (y : ℤ) (dot : Bool) : (s2nWord r i z y dot).m * 10 ^ (s2nWord r i z y dot).room < mantHi := by
  unfold s2nWord
  rcases h1 : s2nDigits 9 r 0 i z with ⟨r1, b1, m1, i1, z1⟩
  simp only
  generalize (if b1 > 0 ∧ r1.head? = some ascDot ∧ dot = false then (r1.tail, (z1 : ℤ), true) else (r1, y, dot)) = p
  rcases h2 : s2nDigits b1 p.1 m1 i1 0 with ⟨r2, b2, m2, i2, z2⟩
  have hb1 := (s2nDigits_bounds _ _ _ _ _ h1).2
  have hb2 := (s2nDigits_bounds _ _ _ _ _ h2).2
  simp only [mantHi]
  nlinarith

/-- A word that does not start with a zero is zero or starts with its leading digit. -/
theorem s2nWord_lead (r : List UInt8) (y : ℤ) (dot : Bool) (h0 : r.head? ≠ some ascZero) (hdot : dot = false → r.head? ≠ some ascDot) :
    (s2nWord r 0 0 y dot).m = 0 ∨ mantLo ≤ (s2nWord r 0 0 y dot).m * 10 ^ (s2nWord r 0 0 y dot).room := by
  unfold s2nWord
  rcases h1 : s2nDigits 9 r 0 0 0 with ⟨r1, b1, m1, i1, z1⟩
  simp only
  generalize hp : (if b1 > 0 ∧ r1.head? = some ascDot ∧ dot = false then (r1.tail, (z1 : ℤ), true) else (r1, y, dot)) = p
  rcases h2 : s2nDigits b1 p.1 m1 i1 0 with ⟨r2, b2, m2, i2, z2⟩
  by_cases hdig : ∃ c t, r = c :: t ∧ isDigit c = true
  · -- the first digit is not a zero, and the rest of the word only adds to it
    right
    obtain ⟨c, t, rfl, hc⟩ := hdig
    have hc0 : c ≠ ascZero := by simpa using h0
    have hval : 1 ≤ digitVal c := by
      rw [Nat.one_le_iff_ne_zero, ne_eq, ← digitChar_eq_zero_iff (digitVal_lt hc), digitChar_digitVal hc]
      exact hc0
    rw [s2nDigits, if_pos hc] at h1
    have hb1 := (s2nDigits_bounds _ _ _ _ _ h1).1
    have hb2 := (s2nDigits_bounds _ _ _ _ _ h2).1
    simp only [mantLo]
    omega
  · left
    have hstop : s2nDigits 9 r 0 0 0 = (r, 9, 0, 0, 0) := by
      cases r with
      | nil => rfl
      | cons c t =>
        have hc : ¬ isDigit c = true := fun hc => hdig ⟨c, t, rfl, hc⟩
        simp [s2nDigits, hc]
    rw [hstop] at h1
    obtain ⟨rfl, rfl, rfl, rfl, rfl⟩ := by simpa using h1
    have hnodot : ¬ (9 > 0 ∧ r.head? = some ascDot ∧ dot = false) := fun h => hdot h.2.2 h.2.1
    rw [if_neg hnodot] at hp
    subst hp
    rw [hstop] at h2
    obtain ⟨-, -, rfl, -, -⟩ := by simpa using h2
    rfl

/-- The zeros counted at the end of a run of digits are all the zeros there. -/
theorem s2nDigits_zeros (b : ℕ) (r : List UInt8) (m i z : ℕ) {b' m' i' z' : ℕ}
    (h : s2nDigits b r m i z = (r', b', m', i', z')) (hm : m ≠ 0 → ¬ 10 ^ (i + 1) ∣ m) : m' ≠ 0 → ¬ 10 ^ (i' + 1) ∣ m' := by
  induction b generalizing r m i z with
  | zero =>
    obtain ⟨-, rfl, rfl, rfl, -⟩ := by simpa using h
    exact hm
  | succ b ih =>
    cases r with
    | nil =>
      obtain ⟨-, rfl, rfl, rfl, -⟩ := by simpa using h
      exact hm
    | cons c r =>
      unfold s2nDigits at h
      split at h
      · next hc =>
        refine ih r _ _ _ h fun hne hdvd => ?_
        have hd := digitVal_lt hc
        have hzero : c = ascZero ↔ digitVal c = 0 := by
          rw [← digitChar_eq_zero_iff hd, digitChar_digitVal hc]
        by_cases h0 : c = ascZero
        · rw [if_pos h0, hzero.mp h0, pow_succ] at hdvd
          exact hm (by rw [hzero.mp h0] at hne; omega) (Nat.dvd_of_mul_dvd_mul_right (by norm_num) hdvd)
        · rw [if_neg h0, pow_one] at hdvd
          have : digitVal c ≠ 0 := fun h => h0 (hzero.mpr h)
          omega
      · obtain ⟨-, rfl, rfl, rfl, -⟩ := by simpa using h
        exact hm

theorem s2nWord_zeros (r : List UInt8) (i z : ℕ) (y : ℤ) (dot : Bool) :
    (s2nWord r i z y dot).m ≠ 0 → ¬ 10 ^ ((s2nWord r i z y dot).i + 1) ∣ (s2nWord r i z y dot).m := by
  unfold s2nWord
  rcases h1 : s2nDigits 9 r 0 i z with ⟨r1, b1, m1, i1, z1⟩
  simp only
  generalize (if b1 > 0 ∧ r1.head? = some ascDot ∧ dot = false then (r1.tail, (z1 : ℤ), true) else (r1, y, dot)) = p
  rcases h2 : s2nDigits b1 p.1 m1 i1 0 with ⟨r2, b2, m2, i2, z2⟩
  exact s2nDigits_zeros _ _ _ _ _ h2 (s2nDigits_zeros _ _ _ _ _ h1 fun h => absurd rfl h)

/-- The words `s2nMantissa` reads. -/
theorem s2nMantissa_range (r : List UInt8) (y : ℤ) (dot : Bool) (h0 : r.head? ≠ some ascZero) (hdot : dot = false → r.head? ≠ some ascDot) :
    (s2nMantissa r y dot).m1 * tenPwr (s2nMantissa r y dot).k < mantHi ∧ (s2nMantissa r y dot).m0 < mantHi ∧
      ((s2nMantissa r y dot).m1 = 0 ∨ mantLo ≤ (s2nMantissa r y dot).m1 * tenPwr (s2nMantissa r y dot).k) ∧
      ((s2nMantissa r y dot).m1 ≠ 0 → ¬ 10 ^ ((s2nMantissa r y dot).i + 1) ∣ (s2nMantissa r y dot).m1) := by
  have h1 := s2nWord_lt r 0 0 y dot
  have hl := s2nWord_lead r y dot h0 hdot
  have hz := s2nWord_zeros r 0 0 y dot
  unfold s2nMantissa
  simp only
  split
  · exact ⟨h1, by simp [mantHi], hl, hz⟩
  · exact ⟨h1, s2nWord_lt _ _ _ _ _, hl, hz⟩

/-- What `s2nStore` leaves alone, and that storing again changes nothing. -/
theorem s2nStore_again {u v : Mval} {m1 m0 i sign : ℕ} {x : ℤ} {approx : Bool} (h : s2nStore u m1 m0 k i sign x approx = .ok v) :
    v.str = u.str ∧ v.mvtype.str = u.mvtype.str ∧ v.mvtype.nm = true ∧ s2nStore v m1 m0 k i sign x approx = .ok v := by
  unfold s2nStore at h ⊢
  simp only at h ⊢
  split at h
  · next hint =>
    cases h
    refine ⟨rfl, rfl, rfl, ?_⟩
    simp [hint]
  · next hint =>
    rw [if_neg hint]
    split at h
    · next hlo =>
      cases h
      refine ⟨rfl, rfl, rfl, ?_⟩
      rw [if_pos hlo]
    · next hlo =>
      rw [if_neg hlo]
      split at h
      · cases h
      · next hhi =>
        cases h
        refine ⟨rfl, rfl, rfl, ?_⟩
        rw [if_neg hhi]
        simp

/-- `s2nStore` of words in range leaves a number in range. -/
theorem s2nStore_valid {u v : Mval} {m1 m0 i sign : ℕ} {x : ℤ} {approx : Bool}
    (h : s2nStore u m1 m0 k i sign x approx = .ok v) (hu : u.mvtype.int = false) (h1 : m1 * tenPwr k < mantHi) (h0 : m0 < mantHi)
    (hl : m1 = 0 ∨ mantLo ≤ m1 * tenPwr k) : v.NumValid := by
  unfold s2nStore at h
  simp only at h
  split at h
  · next hint =>
    cases h
    have hm : s2nThousandths m1 (x + k - 6) < mantHi := by
      refine lt_of_le_of_lt ?_ h1
      unfold s2nThousandths tenPwr
      split
      · exact le_trans (Nat.div_le_self _ _) (Nat.le_mul_of_pos_right _ (by positivity))
      · exact Nat.mul_le_mul_left _ (Nat.pow_le_pow_right (by norm_num) (by omega))
    have habs : ∀ b : Bool, (if b = true then -(s2nThousandths m1 (x + k - 6) : ℤ) else s2nThousandths m1 (x + k - 6)).natAbs < mantHi := by
      intro b
      cases b <;> simpa using hm
    simpa [Mval.NumValid] using habs (decide (sign % 2 = 1))
  · split at h
    · cases h
      simp [Mval.NumValid, mantHi]
    · next hlo =>
      split at h
      · cases h
      · next hhi =>
        cases h
        push Not at hlo
        have hl' : mantLo ≤ m1 * tenPwr k := by
          rcases hl with rfl | hl
          · exact absurd (Nat.zero_mul _) hlo.2
          · exact hl
        simp only [Mval.NumValid, hu, Bool.false_eq_true, if_false]
        generalize m1 * tenPwr k = w at *
        omega

/-- `skipZeros` splits off all the zeros in front. -/
theorem skipZeros_split {r : List UInt8} (h : skipZeros r 0 = (r', k)) : r = List.replicate k ascZero ++ r' ∧ r'.head? ≠ some ascZero := by
  rw [skipZeros_eq, zero_add] at h
  cases h
  refine ⟨?_, ?_⟩
  · rw [← takeWhile_zero, List.takeWhile_append_dropWhile]
  · intro h0
    have := List.head?_dropWhile_not (fun c => decide (c = ascZero)) r
    rw [h0] at this
    simp at this

/-- `s2n` on a string: what is stored depends on the mval only through the string, and its words are in range. -/
theorem s2n_shape {s : List UInt8} (hs : s ≠ []) : (∃ (m1 m0 k i sign : ℕ) (x : ℤ) (approx : Bool) (rest : List UInt8) (intlit : Bool),
      (∀ u : Mval, u.str = s → s2n u = (s2nStore u m1 m0 k i sign x approx).map fun v => ⟨v, rest, intlit⟩) ∧
      m1 * tenPwr k < mantHi ∧ m0 < mantHi ∧ (m1 = 0 ∨ mantLo ≤ m1 * tenPwr k) ∧ (m1 ≠ 0 → ¬ 10 ^ (i + 1) ∣ m1)) ∨
    ∃ (m0 : ℕ) (rest : List UInt8) (intlit : Bool), ∀ u : Mval, u.str = s → s2n u = .ok
      ⟨{ u with mvtype := { u.mvtype with nm := true, int := true, numApprox := true }, m1 := 0, m0 := m0 }, rest, intlit⟩ := by
  rcases hsg : s2nSigns s 0 with ⟨r1, sign⟩
  rcases hz : skipZeros r1 0 with ⟨r2, nzero⟩
  rcases hl : skipZeros (if decide (r2.head? = some ascDot) = true then r2.tail else r2) 0 with ⟨r4, lead⟩
  have hdot : decide (r2.head? = some ascDot) = false → r4.head? ≠ some ascDot := by
    intro hd
    rw [hd, if_neg (by simp), skipZeros_of_head (skipZeros_split hz).2] at hl
    cases hl
    simpa using hd
  have hrange := s2nMantissa_range r4 (-lead) _ (skipZeros_split hl).2 hdot
  generalize hm : s2nMantissa r4 (-lead) (decide (r2.head? = some ascDot)) = mant at hrange
  rcases hx : s2nExcess mant.dot mant.rest mant.dot mant.z with ⟨r5, z⟩
  rcases he : s2nExp r5 (decide (z ≠ 0) || decide (mant.y ≠ 0) || decide (nzero ≠ 0)) with ⟨x, r6, exp⟩
  cases hdig : (decide (z ≠ 0) || decide (mant.y ≠ 0) || decide (nzero ≠ 0)) with
  | true =>
    left
    rw [hdig] at he
    refine ⟨mant.m1, mant.m0, mant.k, mant.i, sign, x + if mant.dot then mant.y else z,
      decide (mant.rest ≠ []) || (mant.dot && (decide (s.getLast? = some ascZero) || decide (s.getLast? = some ascDot))) ||
        decide (1 < sign) || (decide (nzero ≠ 0) && decide (s.length ≠ 1)), r6, decide (sign ≠ 0) || mant.dot || exp, ?_, hrange⟩
    intro u hu
    subst hu
    unfold s2n
    simp only [if_neg hs, hsg, hz, hl, hm, hx, hdig, he, if_true]
  | false =>
    right
    rw [hdig] at he
    refine ⟨mant.m0, r6, decide (sign ≠ 0) || mant.dot || exp, ?_⟩
    intro u hu
    subst hu
    unfold s2n
    simp only [if_neg hs, hsg, hz, hl, hm, hx, hdig, he, Bool.false_eq_true, if_false]

end NumberRoundTripAux

variable {u : Mval}

/-- `s2n` keeps the string, gives a number, and gives the same one when it is run again. -/
theorem s2n_again {r : S2nResult} (h : s2n u = .ok r) :
    r.mval.str = u.str ∧ (u.mvtype.str = true → r.mval.mvtype.str = true) ∧ r.mval.mvtype.nm = true ∧ s2n r.mval = .ok r := by
  by_cases hs : u.str = []
  · have hnull : s2n u = .ok
        { mval := { mvtype := { nm := true, int := true, str := true, numApprox := true } }, rest := [], intlit := true } := by
      rw [s2n, if_pos hs]
    rw [hnull] at h
    cases h
    exact ⟨hs.symm, fun _ => rfl, rfl, by rw [s2n, if_pos rfl]⟩
  · rcases s2n_shape hs with ⟨m1, m0, k, i, sign, x, approx, rest, intlit, hrun, -⟩ | ⟨m0, rest, intlit, hrun⟩
    · rw [hrun u rfl] at h
      rcases hst : s2nStore u m1 m0 k i sign x approx with err | v
      · rw [hst] at h
        cases h
      · rw [hst] at h
        cases h
        obtain ⟨hstr, hflag, hnm, hag⟩ := s2nStore_again hst
        refine ⟨hstr, fun hu => hflag.trans hu, hnm, ?_⟩
        rw [hrun v hstr, hag]
        rfl
    · rw [hrun u rfl] at h
      cases h
      exact ⟨rfl, fun hu => hu, rfl, hrun _ rfl⟩

/-- What `s2n` gives is stored from the words of the mantissa, or is zero. -/
theorem s2n_stored {r : S2nResult} (h : s2n u = .ok r) :
    (∃ (m1 m0 k i sign : ℕ) (x : ℤ) (approx : Bool), s2nStore u m1 m0 k i sign x approx = .ok r.mval ∧ m1 * tenPwr k < mantHi ∧
      m0 < mantHi ∧ (m1 = 0 ∨ mantLo ≤ m1 * tenPwr k) ∧ (m1 ≠ 0 → ¬ 10 ^ (i + 1) ∣ m1)) ∨
    r.mval.mvtype.int = true ∧ r.mval.mvtype.nm = true ∧ r.mval.m1 = 0 := by
  by_cases hs : u.str = []
  · rw [s2n, if_pos hs] at h
    cases h
    exact .inr ⟨rfl, rfl, rfl⟩
  · rcases s2n_shape hs with ⟨m1, m0, k, i, sign, x, approx, rest, intlit, hrun, hb⟩ | ⟨m0, rest, intlit, hrun⟩
    · rw [hrun u rfl] at h
      rcases hst : s2nStore u m1 m0 k i sign x approx with err | v
      · rw [hst] at h
        cases h
      · rw [hst] at h
        cases h
        exact .inl ⟨m1, m0, k, i, sign, x, approx, hst, hb⟩
    · rw [hrun u rfl] at h
      cases h
      exact .inr ⟨rfl, rfl, rfl⟩

/-- The number `s2n` gives is in range. -/
theorem s2n_numValid {r : S2nResult} (h : s2n u = .ok r) (hu : u.mvtype.int = false) : r.mval.NumValid := by
  rcases s2n_stored h with ⟨m1, m0, k, i, sign, x, approx, hst, h1, h0, hl, -⟩ | ⟨hint, -, hm⟩
  · exact s2nStore_valid hst hu h1 h0 hl
  · simp [Mval.NumValid, mantHi, hint, hm]

/-- Whether `s2n` overflows depends on the string only. -/
theorem s2n_error_congr {v : Mval} (h : u.str = v.str) {err : NumErr} (he : s2n u = .error err) : s2n v = .error err := by
  by_cases hs : u.str = []
  · rw [s2n, if_pos hs] at he
    cases he
  · rcases s2n_shape hs with ⟨m1, m0, k, i, sign, x, approx, rest, intlit, hrun, -⟩ | ⟨m0, rest, intlit, hrun⟩
    · rw [hrun u rfl] at he
      rw [hrun v h.symm]
      unfold s2nStore at he ⊢
      simp only at he ⊢
      split at he
      · cases he
      · next hint =>
        rw [if_neg hint]
        split at he
        · cases he
        · next hlo =>
          rw [if_neg hlo]
          split at he
          · next hhi =>
            rw [if_pos hhi]
            exact he
          · cases he
    · rw [hrun u rfl] at he
      cases he

namespace NumberRoundTripAux

/-! ## `n2s` and then `s2n` -/

/-- The zeros a digit string ends in are the largest power of ten that divides its number. -/
theorem le_zeroRun {ds : List ℕ} (hd : Digits 10 ds) {k : ℕ} (h : 10 ^ k ∣ whole 10 ds 0) (hne : whole 10 ds 0 ≠ 0) : k ≤ zeroRun ds 0 := by
  induction ds using List.reverseRecOn generalizing k with
  | nil => exact absurd (whole_nil 10 0) hne
  | append_singleton ds d ih =>
    obtain ⟨hds, hd⟩ := digits_append.mp hd
    rw [whole_append, whole_cons, whole_nil] at h hne
    cases k with
    | zero => exact Nat.zero_le _
    | succ k =>
      have hd10 : d < 10 := hd d (by simp)
      have h10 : 10 ∣ whole 10 ds 0 * 10 + d := (Dvd.intro_left _ (pow_succ 10 k).symm).trans h
      obtain rfl : d = 0 := by omega
      have hk := ih hds (Nat.dvd_of_mul_dvd_mul_right (by norm_num) h) (by omega)
      simpa [zeroRun] using hk

/-- A number that is a whole number of thousandths is stored in thousandths. -/
theorem thousandths_hint {m : ℕ} (hm : m < mantHi) {e : ℤ} {ds : List ℕ} (hn : Normal 10 e ds (m / 1000)) {D : List ℕ}
    (hD : Digits 10 D) (hfrac : frac 10 D = frac 10 ds) (h18 : frac 10 (D.drop 18) = 0) :
    word2 D = 0 ∧ e ≤ 6 ∧ 0 ≤ (zeroRun (D.take 9) 0 : ℤ) + (e + (9 - D.length : ℕ) - 6) := by
  obtain ⟨k, hk, -, hk9, hval, -⟩ := thousandths_normal hm hn
  have hw2 : word2 D < mantHi := word1_lt fun d hd => hD d (List.mem_of_mem_drop hd)
  have hwords : word1 D * 10 ^ 9 + word2 D = m * 10 ^ (9 - k) * 10 ^ 9 := by
    have h1 := words_eq h18
    rw [hfrac, eq_div_iff (by norm_num)] at h1
    have h2 : (10 : ℚ) ^ 18 = 10 ^ k * (10 ^ (9 - k) * 10 ^ 9) := by
      rw [← pow_add, ← pow_add]
      congr 1
      omega
    rw [h2, ← mul_assoc, hval, ← mul_assoc] at h1
    exact_mod_cast h1.symm
  have hm0 : m ≠ 0 := by
    rintro rfl
    have := hn.pos
    simp at this
  simp only [mantHi] at hw2
  have hw20 : word2 D = 0 := by omega
  have hw1 : whole 10 (D.take 9) 0 * 10 ^ (9 - D.length) = m * 10 ^ (9 - k) := by
    have : word1 D = m * 10 ^ (9 - k) := by omega
    exact this
  refine ⟨hw20, by omega, ?_⟩
  by_cases hle : 9 - k ≤ 9 - D.length
  · omega
  · have hsplit : 9 - k = (9 - k - (9 - D.length)) + (9 - D.length) := by omega
    have hdvd : 10 ^ (9 - k - (9 - D.length)) ∣ whole 10 (D.take 9) 0 := by
      rw [hsplit, pow_add, ← mul_assoc] at hw1
      exact Dvd.intro_left m (Nat.eq_of_mul_eq_mul_right (by positivity) hw1).symm
    have hne : whole 10 (D.take 9) 0 ≠ 0 := by
      intro h0
      rw [h0] at hw1
      exact hm0 (by simpa using hw1.symm)
    have := le_zeroRun (fun d hd => hD d (List.mem_of_mem_take hd)) hdvd hne
    omega

/-- A number stored in thousandths does not depend on what the mval held before. -/
theorem s2nStore_int {u : Mval} {m1 m0 k i sign : ℕ} {x : ℤ} {approx : Bool} (h : m0 = 0 ∧ x ≤ 6 ∧ 0 ≤ (i : ℤ) + (x + k - 6)) :
    s2nStore u m1 m0 k i sign x approx = .ok { u with
      mvtype := { u.mvtype with nm := true, int := true, numApprox := u.mvtype.numApprox || approx },
      m1 := if decide (sign % 2 = 1) = true then -(s2nThousandths m1 (x + k - 6) : ℤ) else s2nThousandths m1 (x + k - 6), m0 := m0 } := by
  unfold s2nStore
  rw [if_pos h]

end NumberRoundTripAux

/-- `s2n` gives back the number that `n2s` wrote, and reads it as exact. -/
theorem s2n_n2s {v : Mval} (hv : v.NumValid) :
    ∃ r, s2n (n2s v) = .ok r ∧ r.mval.mvtype.numApprox = false ∧ r.mval.NumValid ∧ r.mval.numVal = v.numVal := by
  by_cases h0 : v.numVal = 0
  · rw [h0]
    exact s2n_zero (n2s v) (n2sStr_of_zero hv h0) rfl
  · obtain ⟨e, ds, hs, hn⟩ := n2sStr_decStr hv.mantValid h0
    have hcan := canonic_of_numValid hv hn
    have hsign : v.numVal = (if v.numVal < 0 then -1 else 1) * (frac 10 ds * 10 ^ e) := by
      rw [← hn.value]
      split
      · next hlt => rw [abs_of_neg hlt]; ring
      · next hge => rw [abs_of_nonneg (not_lt.mp hge), one_mul]
    cases hint : v.mvtype.int with
    | false =>
      obtain ⟨r, hr, hra, hrn, hrv⟩ := s2n_decStr hcan (decide (v.numVal < 0)) (n2s v) hs hint rfl
      refine ⟨r, hr, hra, hrn, ?_⟩
      rw [hrv]
      simpa using hsign.symm
    | true =>
      -- the mark of an integer is still there, and is set again
      have hm : v.m1.natAbs < mantHi := by simpa [Mval.NumValid, hint] using hv
      rw [abs_numVal_int hint] at hn
      obtain ⟨D, intlit, hD, hfrac, h18, hstore⟩ := s2n_decStr_store hcan.decimal (decide (v.numVal < 0)) (n2s v) hs
      have hhint := thousandths_hint hm hn hD hfrac h18
      obtain ⟨w, hw, -, hwn, hwv⟩ := s2nStore_spec hcan hD hfrac h18 { n2s v with mvtype := { (n2s v).mvtype with int := false } } rfl
        rfl (if decide (v.numVal < 0) = true then 1 else 0)
      rw [s2nStore_int hhint] at hw hstore
      cases hw
      refine ⟨_, hstore, rfl, ?_, ?_⟩
      · simpa [Mval.NumValid] using hwn
      · have hsgn : (if (if decide (v.numVal < 0) = true then 1 else 0) % 2 = 1 then (-1 : ℚ) else 1) =
            if v.numVal < 0 then -1 else 1 := by
          by_cases hlt : v.numVal < 0 <;> simp [hlt]
        rw [hsgn, ← hsign] at hwv
        exact (numVal_int rfl).trans ((numVal_int rfl).symm.trans hwv)

namespace NumberRoundTripAux

/-! ## `s2n` and then `n2s` -/

/-- Reading a word splits off the digits there is room for. -/
theorem s2nDigits_split (b : ℕ) (r : List UInt8) (m i z : ℕ) {r' : List UInt8} {b' m' i' z' : ℕ}
    (h : s2nDigits b r m i z = (r', b', m', i', z')) :
    ∃ p, r = p ++ r' ∧ (∀ c ∈ p, isDigit c = true) ∧ p.length + b' = b ∧ z' = z + p.length ∧
      (b' = 0 ∨ r' = [] ∨ ∃ c t, r' = c :: t ∧ isDigit c = false) := by
  induction b generalizing r m i z with
  | zero =>
    obtain ⟨rfl, rfl, rfl, rfl, rfl⟩ := by simpa using h
    exact ⟨[], by simp⟩
  | succ b ih =>
    cases r with
    | nil =>
      obtain ⟨rfl, rfl, rfl, rfl, rfl⟩ := by simpa using h
      exact ⟨[], by simp⟩
    | cons c r =>
      unfold s2nDigits at h
      split at h
      · next hc =>
        obtain ⟨p, rfl, hp, hb, hz, hstop⟩ := ih r _ _ _ h
        refine ⟨c :: p, rfl, ?_, by simp only [List.length_cons]; omega, by simp only [List.length_cons]; omega, hstop⟩
        intro x hx
        rcases List.mem_cons.mp hx with rfl | hx
        · exact hc
        · exact hp x hx
      · next hc =>
        obtain ⟨rfl, rfl, rfl, rfl, rfl⟩ := by simpa using h
        exact ⟨[], rfl, by simp, by simp, by simp, Or.inr (Or.inr ⟨c, r, rfl, by simpa using hc⟩)⟩

/-- The part of the string a mantissa word was read from: digits, with the decimal point among them if the word read it. -/
theorem s2nWord_split (r : List UInt8) (i z : ℕ) (y : ℤ) (dot : Bool) :
    ∃ p q, (∀ c ∈ p ++ q, isDigit c = true) ∧ (p ++ q).length ≤ 9 ∧ (s2nWord r i z y dot).z = z + p.length ∧
      ((r = p ++ ascDot :: q ++ (s2nWord r i z y dot).rest ∧ dot = false ∧ (s2nWord r i z y dot).dot = true) ∨
        (q = [] ∧ r = p ++ (s2nWord r i z y dot).rest ∧ (s2nWord r i z y dot).dot = dot ∧ (s2nWord r i z y dot).y = y)) := by
  unfold s2nWord
  rcases h1 : s2nDigits 9 r 0 i z with ⟨r1, b1, m1, i1, z1⟩
  simp only
  obtain ⟨p, rfl, hp, hb, hz, hstop⟩ := s2nDigits_split _ _ _ _ _ h1
  by_cases hd : b1 > 0 ∧ r1.head? = some ascDot ∧ dot = false
  · rw [if_pos hd]
    rcases h2 : s2nDigits b1 r1.tail m1 i1 0 with ⟨r2, b2, m2, i2, z2⟩
    simp only
    obtain ⟨q, hr, hq, hb', -, -⟩ := s2nDigits_split _ _ _ _ _ h2
    have hcons : r1 = ascDot :: r1.tail := by
      cases r1 with
      | nil => simp at hd
      | cons c t => simpa using hd.2.1
    refine ⟨p, q, ?_, by rw [List.length_append]; omega, hz, Or.inl ⟨?_, hd.2.2, trivial⟩⟩
    · intro c hc
      rcases List.mem_append.mp hc with hc | hc
      · exact hp c hc
      · exact hq c hc
    · conv_lhs => rw [hcons, hr]
      simp
  · rw [if_neg hd]
    have hagain : s2nDigits b1 r1 m1 i1 0 = (r1, b1, m1, i1, 0) := by
      rcases hstop with rfl | rfl | ⟨c, t, rfl, hc⟩
      · exact s2nDigits_stop _ _ _ _ _ (Or.inl rfl)
      · exact s2nDigits_stop _ _ _ _ _ (Or.inr rfl)
      · cases b1 with
        | zero => exact s2nDigits_stop _ _ _ _ _ (Or.inl rfl)
        | succ b => simp [s2nDigits, hc]
    rw [hagain]
    exact ⟨p, [], by simpa using hp, by simp only [List.append_nil]; omega, hz, Or.inr ⟨rfl, rfl, rfl, rfl⟩⟩

/-- The string both mantissa words were read from, when nothing is left of it: at most 18 digits, a decimal point among them if
one was read, and zeros. -/
theorem s2nMantissa_split (r : List UInt8) (y : ℤ) (dot : Bool) (hrest : (s2nMantissa r y dot).rest = []) :
    ∃ p q n, (∀ c ∈ p ++ q, isDigit c = true) ∧ (p ++ q).length ≤ 18 ∧
      ((r = p ++ ascDot :: q ++ List.replicate n ascZero ∧ dot = false ∧ (s2nMantissa r y dot).dot = true) ∨
        (q = [] ∧ r = p ++ List.replicate n ascZero ∧ (s2nMantissa r y dot).dot = dot ∧ (s2nMantissa r y dot).y = y ∧
          (r = [] → (s2nMantissa r y dot).z = 0))) := by
  unfold s2nMantissa at hrest ⊢
  simp only at hrest ⊢
  obtain ⟨p, q, hpq, hlen, hz, hcase⟩ := s2nWord_split r 0 0 y dot
  generalize s2nWord r 0 0 y dot = w1 at *
  by_cases hw1 : w1.rest = []
  · rw [if_pos hw1]
    refine ⟨p, q, 0, hpq, by omega, ?_⟩
    rw [hw1] at hcase
    rcases hcase with ⟨hr, hd, hd'⟩ | ⟨hq, hr, hd, hy⟩
    · exact Or.inl ⟨by simpa using hr, hd, hd'⟩
    · refine Or.inr ⟨hq, by simpa using hr, hd, hy, ?_⟩
      intro hnil
      have hp : p = [] := by simpa [hnil] using hr
      simp [hz, hp]
  · rw [if_neg hw1] at hrest ⊢
    obtain ⟨p', q', hpq', hlen', -, hcase'⟩ := s2nWord_split w1.rest 0 w1.z w1.y w1.dot
    generalize s2nWord w1.rest 0 w1.z w1.y w1.dot = w2 at *
    rcases hs : skipZeros w2.rest 0 with ⟨rest, trail⟩
    rw [hs] at hrest
    simp only at hrest ⊢
    obtain ⟨hzeros, -⟩ := skipZeros_split hs
    rw [hrest] at hzeros
    rw [hzeros] at hcase'
    have hall : ∀ c ∈ (p ++ q) ++ (p' ++ q'), isDigit c = true := by
      intro c hc
      rcases List.mem_append.mp hc with hc | hc
      · exact hpq c hc
      · exact hpq' c hc
    simp only [List.length_append] at hlen hlen'
    rcases hcase with ⟨hr, hd, hd'⟩ | ⟨hq, hr, hd, hy⟩
    · -- the point was in the first word, so the second word is digits
      rcases hcase' with ⟨-, hdw, -⟩ | ⟨hq', hr', hdw, -⟩
      · rw [hd'] at hdw
        cases hdw
      · refine ⟨p, q ++ p', trail, ?_, by simp only [List.length_append]; omega, Or.inl ⟨?_, hd, by rw [hdw, hd']⟩⟩
        · intro c hc
          exact hall c (by simpa [hq'] using hc)
        · rw [hr, hr']
          simp
    · subst hq
      rcases hcase' with ⟨hr', hdw, hdw'⟩ | ⟨hq', hr', hdw, hyw⟩
      · refine ⟨p ++ p', q', trail, ?_, by simp only [List.length_append]; omega, Or.inl ⟨?_, by rw [← hd, hdw], hdw'⟩⟩
        · intro c hc
          exact hall c (by simpa using hc)
        · rw [hr, hr']
          simp
      · subst hq'
        refine ⟨p ++ p', [], trail, ?_, by simp only [List.length_append]; omega, Or.inr ⟨rfl, ?_, by rw [hdw, hd], by rw [hyw, hy], ?_⟩⟩
        · intro c hc
          exact hall c (by simpa using hc)
        · rw [hr, hr']
          simp
        · intro hnil
          rw [hnil] at hr
          exact absurd (List.append_eq_nil_iff.mp hr.symm).2 hw1

variable {s p : List UInt8}

/-- At most one sign, which is a minus. -/
theorem s2nSigns_le_one {r : List UInt8} {n : ℕ} (h : s2nSigns s 0 = (r, n)) (hn : n ≤ 1) :
    ∃ neg : Bool, s = (if neg then [ascMinus] else []) ++ r := by
  have hmono : ∀ (s r : List UInt8) (a n : ℕ), s2nSigns s a = (r, n) → (n = a ∧ r = s) ∨ a < n := by
    intro s
    induction s with
    | nil =>
      intro r a n h
      cases h
      exact Or.inl ⟨rfl, rfl⟩
    | cons c s ih =>
      intro r a n h
      unfold s2nSigns at h
      split at h
      · rcases ih _ _ _ h with ⟨rfl, -⟩ | h
        · exact Or.inr (by omega)
        · exact Or.inr (by omega)
      · split at h
        · rcases ih _ _ _ h with ⟨rfl, -⟩ | h
          · exact Or.inr (by omega)
          · exact Or.inr (by omega)
        · cases h
          exact Or.inl ⟨rfl, rfl⟩
  cases s with
  | nil =>
    cases h
    exact ⟨false, rfl⟩
  | cons c s =>
    unfold s2nSigns at h
    split at h
    · next hc =>
      rcases hmono _ _ _ _ h with ⟨-, hr⟩ | h
      · exact ⟨true, by simp [hc, hr]⟩
      · omega
    · split at h
      · rcases hmono _ _ _ _ h with ⟨rfl, -⟩ | h <;> omega
      · cases h
        exact ⟨false, rfl⟩

/-- Digits of a string that does not end in a zero. -/
theorem trimmed_digitVal (hd : ∀ c ∈ s, isDigit c = true) (h : s.getLast? ≠ some ascZero) : Trimmed (s.map digitVal) := by
  unfold Trimmed
  rw [List.getLast?_map]
  intro h0
  rcases hl : s.getLast? with _ | c
  · simp [hl] at h0
  · rw [hl] at h0 h
    have hc := hd c (List.mem_of_getLast? hl)
    have hv : digitVal c = 0 := by simpa using h0
    apply h
    rw [← digitChar_digitVal hc, hv]
    rfl

theorem lead_digitVal (hd : ∀ c ∈ s, isDigit c = true) (hne : s ≠ []) (h : s.head? ≠ some ascZero) :
    ∃ d t, s.map digitVal = d :: t ∧ d ≠ 0 := by
  obtain ⟨c, t, rfl⟩ := List.exists_cons_of_ne_nil hne
  refine ⟨digitVal c, t.map digitVal, rfl, ?_⟩
  have hc := hd c (by simp)
  rw [ne_eq, ← digitChar_eq_zero_iff (digitVal_lt hc), digitChar_digitVal hc]
  simpa using h

/-- A digit string that starts with another digit than zero, possibly followed by zeros, is the text of an integer. -/
theorem integer_text (hd : ∀ c ∈ p, isDigit c = true) (hlen : p.length ≤ 18) (hne : p ≠ [])
    (h : p.head? ≠ some ascZero) (n : ℕ) : ∃ e ds, Decimal ds ∧ p ++ List.replicate n ascZero = decBody e ds := by
  obtain ⟨d, t, hdt, hd0⟩ := lead_digitVal hd hne h
  obtain ⟨k, hk⟩ := exists_trim_append (p.map digitVal)
  have hcons : trim (p.map digitVal) = d :: trim t := by
    rw [hdt]
    exact trim_cons_of_ne fun h => hd0 (h d (by simp))
  have hlen' : (p.map digitVal).length = (trim (p.map digitVal)).length + k := by
    conv_lhs => rw [hk]
    simp
  rw [List.length_map] at hlen'
  have hdec : Decimal (trim (p.map digitVal)) := by
    refine ⟨(digits_digitVal hd).trim, trim_trimmed _, ⟨d, trim t, hcons, hd0⟩, ?_⟩
    simp only [numDecDg2l]
    omega
  refine ⟨((p.length + n : ℕ) : ℤ), _, hdec, ?_⟩
  have hpos : 0 < p.length := List.length_pos_iff.mpr hne
  rw [decBody_integer (by omega) (by omega)]
  have hp : p = chars (trim (p.map digitVal)) ++ List.replicate k ascZero := by
    conv_lhs => rw [← chars_digitVal hd, hk, chars_append, chars_replicate]
  have hexp : p.length + n - (trim (p.map digitVal)).length = k + n := by omega
  rw [hexp, List.replicate_add, ← List.append_assoc, ← hp]

/-- Digits around a decimal point are the text of a number, if no zero ends them. -/
theorem mixed_text {q : List UInt8} (hd : ∀ c ∈ p ++ q, isDigit c = true) (hlen : (p ++ q).length ≤ 18) (hp : p ≠ [])
    (hq : q ≠ []) (h : p.head? ≠ some ascZero) (hlast : q.getLast? ≠ some ascZero) :
    ∃ e ds, Decimal ds ∧ p ++ ascDot :: q = decBody e ds := by
  have hhead : (p ++ q).head? ≠ some ascZero := by
    obtain ⟨c, t, rfl⟩ := List.exists_cons_of_ne_nil hp
    simpa using h
  have hdec : Decimal ((p ++ q).map digitVal) := by
    refine ⟨digits_digitVal hd, trimmed_digitVal hd ?_, lead_digitVal hd (by simp [hp]) hhead, by simpa [numDecDg2l] using hlen⟩
    rw [List.getLast?_append_of_ne_nil _ hq]
    exact hlast
  refine ⟨(p.length : ℤ), _, hdec, ?_⟩
  have hppos : 0 < p.length := List.length_pos_iff.mpr hp
  have hqpos : 0 < q.length := List.length_pos_iff.mpr hq
  rw [decBody_mixed hppos (by simp only [List.length_map, List.length_append]; omega), List.map_append]
  rw [List.take_left' (by simp), List.drop_left' (by simp), chars_digitVal fun c hc => hd c (by simp [hc]),
    chars_digitVal fun c hc => hd c (by simp [hc])]

/-- Digits behind a leading decimal point and zeros are the text of a number, if no zero ends them. -/
theorem fraction_text (hd : ∀ c ∈ p, isDigit c = true) (hlen : p.length ≤ 18) (hne : p ≠ [])
    (h : p.head? ≠ some ascZero) (hlast : p.getLast? ≠ some ascZero) (k : ℕ) :
    ∃ e ds, Decimal ds ∧ ascDot :: (List.replicate k ascZero ++ p) = decBody e ds := by
  have hdec : Decimal (p.map digitVal) :=
    ⟨digits_digitVal hd, trimmed_digitVal hd hlast, lead_digitVal hd hne h, by simpa [numDecDg2l] using hlen⟩
  refine ⟨-k, _, hdec, ?_⟩
  rw [decBody_fraction, chars_digitVal hd]

/-- The mark of an approximation is kept. -/
theorem s2nStore_exact {u v : Mval} {m1 m0 k i sign : ℕ} {x : ℤ} {approx : Bool}
    (h : s2nStore u m1 m0 k i sign x approx = .ok v) (hv : v.mvtype.numApprox = false) : approx = false := by
  unfold s2nStore at h
  simp only at h
  split at h
  · cases h
    simp only [Bool.or_eq_false_iff] at hv
    exact hv.2
  · split at h
    · cases h
      cases hv
    · split at h
      · cases h
      · cases h
        simp only [Bool.or_eq_false_iff] at hv
        exact hv.2

end NumberRoundTripAux

/-- A string that `s2n` reads as exact is zero or the text of a number. -/
theorem s2n_exact_text {u : Mval} {r : S2nResult} (h : s2n u = .ok r) (hr : r.mval.mvtype.numApprox = false) :
    u.str = [ascZero] ∨ ∃ neg e ds, Decimal ds ∧ u.str = decStr neg e ds := by
  by_cases hs : u.str = []
  · rw [s2n, if_pos hs] at h
    cases h
    cases hr
  unfold s2n at h
  rw [if_neg hs] at h
  rcases hsg : s2nSigns u.str 0 with ⟨r1, sign⟩
  rcases hz : skipZeros r1 0 with ⟨r2, nzero⟩
  rcases hl : skipZeros (if decide (r2.head? = some ascDot) = true then r2.tail else r2) 0 with ⟨r4, lead⟩
  generalize hm : s2nMantissa r4 (-lead) (decide (r2.head? = some ascDot)) = mant
  rcases hx : s2nExcess mant.dot mant.rest mant.dot mant.z with ⟨r5, z⟩
  simp only [hsg, hz, hl, hm, hx] at h
  cases hdig : (decide (z ≠ 0) || decide (mant.y ≠ 0) || decide (nzero ≠ 0)) with
  | false =>
    rw [hdig] at h
    cases h
    cases hr
  | true =>
    rw [hdig] at h
    rcases hst : s2nStore u mant.m1 mant.m0 mant.k mant.i sign
      ((s2nExp r5 true).1 + if mant.dot = true then mant.y else (z : ℤ))
      (decide (mant.rest ≠ []) || (mant.dot && (decide (u.str.getLast? = some ascZero) || decide (u.str.getLast? = some ascDot))) ||
        decide (1 < sign) || (decide (nzero ≠ 0) && decide (u.str.length ≠ 1))) with err | v
    · rw [hst] at h
      cases h
    · rw [hst] at h
      cases h
      have hexact := s2nStore_exact hst hr
      simp only [Bool.or_eq_false_iff, Bool.and_eq_false_iff, decide_eq_false_iff_not, not_not, ne_eq] at hexact
      obtain ⟨⟨⟨hrest, hlast⟩, hsign⟩, hzero⟩ := hexact
      obtain ⟨neg, hstr⟩ := s2nSigns_le_one hsg (by omega)
      obtain ⟨hr1, hhead⟩ := skipZeros_split hz
      by_cases hnz : nzero = 0
      · right
        subst hnz
        obtain rfl : r1 = r2 := by simpa using hr1
        -- it is enough to know the text behind the sign
        suffices hbody : ∃ e ds, Decimal ds ∧ r1 = decBody e ds by
          obtain ⟨e, ds, hdec, hb⟩ := hbody
          exact ⟨neg, e, ds, hdec, by rw [hstr, hb, decStr]⟩
        have hlast' : ∀ c, mant.dot = true → r1.getLast? = some c → c ≠ ascZero ∧ c ≠ ascDot := by
          intro c hd hc
          have hne : r1 ≠ [] := by
            rintro rfl
            simp at hc
          have hlast := hlast.resolve_left (by simp [hd])
          rw [hstr, List.getLast?_append_of_ne_nil _ hne, hc] at hlast
          simpa using hlast
        obtain ⟨p, q, n, hpq, hlen, hcase⟩ := s2nMantissa_split r4 (-lead) (decide (r1.head? = some ascDot)) (by rw [hm]; exact hrest)
        rw [hm] at hcase
        cases hd : decide (r1.head? = some ascDot) with
        | true =>
          -- a leading point
          rw [hd] at hcase hl
          obtain ⟨hr1', hhead4⟩ := skipZeros_split hl
          rcases hcase with ⟨-, hc, -⟩ | ⟨hq, hr4, hdot, -, -⟩
          · cases hc
          · subst hq
            have hcons : r1 = ascDot :: (List.replicate lead ascZero ++ r4) := by
              cases r1 with
              | nil => simp at hd
              | cons c t =>
                obtain rfl : c = ascDot := by simpa using hd
                simpa using hr1'
            have hlast4 : r4 ≠ [] ∧ r4.getLast? ≠ some ascZero := by
              rcases hr4nil : r4.getLast? with _ | c
              · obtain rfl : r4 = [] := by simpa using hr4nil
                rcases Nat.eq_zero_or_pos lead with rfl | hpos
                · exact absurd rfl (hlast' ascDot hdot (by simp [hcons])).2
                · refine absurd rfl (hlast' ascZero hdot ?_).1
                  rw [hcons, List.append_nil, List.getLast?_cons, List.getLast?_replicate, if_neg (by omega)]
                  rfl
              · have hne : r4 ≠ [] := by
                  rintro rfl
                  simp at hr4nil
                refine ⟨hne, ?_⟩
                have := hlast' c hdot (by rw [hcons, List.getLast?_cons, List.getLast?_append_of_ne_nil _ hne, hr4nil]; rfl)
                simpa using this.1
            have hn : n = 0 := by
              by_contra hn
              apply hlast4.2
              rw [hr4, List.getLast?_append_of_ne_nil _ (by simp [hn]), List.getLast?_replicate, if_neg hn]
            subst hn
            subst hr4
            rw [hcons]
            exact fraction_text (by simpa using hpq) (by simpa using hlen) hlast4.1 hhead4 hlast4.2 lead
        | false =>
          rw [hd, if_neg (by simp), skipZeros_of_head hhead] at hl
          cases hl
          have hnodot : r1.head? ≠ some ascDot := by simpa using hd
          rcases hcase with ⟨hr4, -, hdot⟩ | ⟨hq, hr4, -, hy, hznil⟩
          · -- a point among the digits: no zero may end the string
            have hn : n = 0 := by
              by_contra hn
              refine absurd rfl (hlast' ascZero hdot ?_).1
              rw [hr4, List.getLast?_append_of_ne_nil _ (by simp [hn]), List.getLast?_replicate, if_neg hn]
            subst hn
            rw [List.replicate_zero, List.append_nil] at hr4
            have hp : p ≠ [] := by
              rintro rfl
              exact hnodot (by simp [hr4])
            have hq : q ≠ [] := by
              rintro rfl
              exact absurd rfl (hlast' ascDot hdot (by simp [hr4])).2
            have hphead : p.head? ≠ some ascZero := by
              obtain ⟨c, t, rfl⟩ := List.exists_cons_of_ne_nil hp
              simpa [hr4] using hhead
            have hqlast : q.getLast? ≠ some ascZero := by
              intro hc
              refine absurd rfl (hlast' ascZero hdot ?_).1
              rw [hr4, List.getLast?_append_of_ne_nil _ (by simp), List.getLast?_cons, hc]
              rfl
            rw [hr4]
            exact mixed_text hpq hlen hp hq hphead hqlast
          · subst hq
            have hne : r1 ≠ [] := by
              rintro rfl
              have hz0 : mant.z = 0 := hznil rfl
              rw [hrest] at hx
              cases hx
              simp [hz0, hy] at hdig
            have hp : p ≠ [] := by
              rintro rfl
              cases n with
              | zero => exact hne hr4
              | succ n => exact hhead (by simp [hr4, List.replicate_succ])
            have hphead : p.head? ≠ some ascZero := by
              obtain ⟨c, t, rfl⟩ := List.exists_cons_of_ne_nil hp
              simpa [hr4] using hhead
            rw [hr4]
            exact integer_text (by simpa using hpq) (by simpa using hlen) hp hphead n
      · -- a leading zero is exact only alone
        left
        have hone : u.str.length = 1 := hzero.resolve_left hnz
        obtain ⟨k, rfl⟩ := Nat.exists_eq_succ_of_ne_zero hnz
        rw [hr1] at hstr
        cases neg with
        | true =>
          rw [hstr] at hone
          simp [List.replicate_succ] at hone
        | false =>
          rw [hstr] at hone ⊢
          simp only [List.replicate_succ, Bool.false_eq_true, if_false, List.nil_append, List.cons_append, List.length_cons,
            Nat.add_eq_right, List.length_eq_zero_iff] at hone ⊢
          rw [hone]

namespace NumberRoundTripAux

theorem zeroRun_le (ds : List ℕ) : zeroRun ds 0 ≤ ds.length := by
  induction ds using List.reverseRecOn with
  | nil => simp [zeroRun]
  | append_singleton ds d ih =>
    by_cases hd : d = 0
    · simpa [zeroRun, hd] using ih
    · simp [zeroRun, hd]

/-- The text of a number that `s2n` reads as exact has an exponent in range. -/
theorem canonic_of_exact {u v : Mval} {e : ℤ} {ds D : List ℕ} (h : Decimal ds) (sign : ℕ)
    (hst : s2nStore u (whole 10 (D.take 9) 0) (word2 D) (9 - D.length) (zeroRun (D.take 9) 0) sign e false = .ok v)
    (hv : v.mvtype.numApprox = false) : Canonic e ds := by
  have hrun := zeroRun_le (D.take 9)
  rw [List.length_take] at hrun
  unfold s2nStore at hst
  simp only at hst
  split at hst
  · next hint => exact ⟨h.digits, h.trimmed, h.lead, h.length_le, by simp only [expLo, mvXbias]; omega, by simp only [expHi, mvXbias]; omega⟩
  · split at hst
    · cases hst
      cases hv
    · next hlo =>
      split at hst
      · cases hst
      · next hhi => exact ⟨h.digits, h.trimmed, h.lead, h.length_le, by omega, by omega⟩

end NumberRoundTripAux

/-- A string that `s2n` reads as exact is the text `n2s` writes. -/
theorem n2sStr_of_exact {u : Mval} {r : S2nResult} (h : s2n u = .ok r) (hint : u.mvtype.int = false)
    (happ : u.mvtype.numApprox = false) (hr : r.mval.mvtype.numApprox = false) : n2sStr r.mval = u.str := by
  rcases s2n_exact_text h hr with hz | ⟨neg, e, ds, hdec, hs⟩
  · obtain ⟨r', hr', -, hn, h0⟩ := s2n_zero u hz happ
    rw [h] at hr'
    cases hr'
    rw [n2sStr_of_zero hn h0, hz]
  · have hcan : Canonic e ds := by
      obtain ⟨D, intlit, -, -, -, hst⟩ := s2n_decStr_store hdec neg u hs
      rw [h] at hst
      rcases hv : s2nStore u (whole 10 (D.take 9) 0) (word2 D) (9 - D.length) (zeroRun (D.take 9) 0) (if neg then 1 else 0) e false
        with err | v
      · rw [hv] at hst
        cases hst
      · rw [hv] at hst
        cases hst
        exact canonic_of_exact hdec _ hv hr
    obtain ⟨r', hr', -, hn, hval⟩ := s2n_decStr hcan neg u hs hint happ
    rw [h] at hr'
    cases hr'
    have hpos := (hdec.normal e).pos
    have habs : |r.mval.numVal| = frac 10 ds * 10 ^ e := by
      rw [hval]
      cases neg <;> simp [abs_of_pos hpos]
    have hneg : decide (r.mval.numVal < 0) = neg := by
      rw [hval]
      cases neg
      · simpa using hpos.le
      · simpa using hpos
    have hne : r.mval.numVal ≠ 0 := by
      rw [← abs_pos, habs]
      exact hpos
    obtain ⟨e', ds', hs', hn'⟩ := n2sStr_decStr hn.mantValid hne
    rw [habs] at hn'
    obtain ⟨rfl, rfl⟩ := hn'.unique (by norm_num) (hdec.normal e)
    rw [hs', hneg, hs]

end Gtm
