import Gtm.Lemmas.DecimalText

/-!
# Reading canonical text

`decVal` and `s2n` on canonical text: the value of the string is the number it is the canonical string of, and `s2n` stores a
number in range with that value and without the mark of an approximation.
-/

namespace Gtm

open Positional DecimalTextAux

namespace StringToNumberAux

/-! ## The value of canonical text -/

variable {ds : List ℕ}

theorem takeWhile_chars (h : Digits 10 ds) (r : List UInt8) (hr : ∀ c, r.head? = some c → isDigit c = false) :
    (chars ds ++ r).takeWhile isDigit = chars ds := by
  rw [List.takeWhile_append_of_pos fun c hc => isDigit_of_mem_chars h hc]
  cases r with
  | nil => simp
  | cons c r => rw [List.takeWhile_cons_of_neg (by simp [hr c rfl]), List.append_nil]

theorem digits_replicate (n : ℕ) : Digits 10 (List.replicate n 0) := by
  intro d hd
  rw [List.eq_of_mem_replicate hd]
  norm_num

/-- The value of digits around a decimal point. -/
theorem decAbs_point {es : List ℕ} (hd : Digits 10 ds) (he : Digits 10 es) :
    decAbs (chars ds ++ ascDot :: chars es) = frac 10 (ds ++ es) * 10 ^ ds.length := by
  have h1 := takeWhile_chars hd (ascDot :: chars es) (by rintro c ⟨⟩; decide)
  have h2 := takeWhile_chars he [] (by simp)
  rw [List.append_nil] at h2
  have hdrop : (chars ds ++ ascDot :: chars es).drop ((chars ds).length + 1) = chars es := by
    simp
  unfold decAbs
  simp only [h1, hdrop, h2, List.map_append, map_digitVal_chars hd, map_digitVal_chars he]
  simp [chars]

/-- The value of digits without a decimal point. -/
theorem decAbs_integer (hd : Digits 10 ds) : decAbs (chars ds) = frac 10 ds * 10 ^ ds.length := by
  have h1 := takeWhile_chars hd [] (by simp)
  rw [List.append_nil] at h1
  unfold decAbs
  simp only [h1]
  rw [List.drop_eq_nil_of_le (by simp [chars])]
  simp only [List.takeWhile_nil, List.append_nil, map_digitVal_chars hd]
  simp [chars]

end StringToNumberAux

open StringToNumberAux

/-- How a canonical exponent places the decimal point: before the digits, behind them or among them. -/
theorem decBody_cases (e : ℤ) (ds : List ℕ) : (∃ k : ℕ, e = -k ∧ decBody e ds = ascDot :: chars (List.replicate k 0 ++ ds)) ∨
    (∃ k : ℕ, 0 < k ∧ e = k ∧ ds.length ≤ k ∧ decBody e ds = chars (ds ++ List.replicate (k - ds.length) 0)) ∨
    (∃ k : ℕ, 0 < k ∧ e = k ∧ k < ds.length ∧ decBody e ds = chars (ds.take k) ++ ascDot :: chars (ds.drop k)) := by
  rcases le_or_gt e 0 with he | he
  · refine Or.inl ⟨e.natAbs, by omega, ?_⟩
    obtain ⟨k, rfl⟩ : ∃ k : ℕ, e = -k := ⟨e.natAbs, by omega⟩
    rw [decBody_fraction, Int.natAbs_neg, Int.natAbs_natCast, chars_append, chars_replicate]
  · obtain ⟨k, rfl⟩ : ∃ k : ℕ, e = k := ⟨e.toNat, by omega⟩
    have hk : 0 < k := by omega
    rcases le_or_gt ds.length k with hlen | hlen
    · exact Or.inr (Or.inl ⟨k, hk, rfl, hlen, by rw [decBody_integer hk hlen, chars_append, chars_replicate]⟩)
    · exact Or.inr (Or.inr ⟨k, hk, rfl, hlen, decBody_mixed hk hlen⟩)

variable {ds : List ℕ}

/-- The text behind the sign starts with a digit other than zero or with the decimal point. -/
theorem Decimal.body_head (h : Decimal ds) (e : ℤ) : ∃ c t, decBody e ds = c :: t ∧ c ≠ ascZero ∧ c ≠ ascMinus ∧ c ≠ ascPlus := by
  obtain ⟨d, t, hds, hd⟩ := h.lead
  have hlt : d < 10 := h.digits d (by simp [hds])
  have hdig : digitChar d ≠ ascZero ∧ digitChar d ≠ ascMinus ∧ digitChar d ≠ ascPlus := by
    simp only [ne_eq, ← UInt8.toNat_inj, digitChar_toNat hlt, ascZero, ascMinus, ascPlus, UInt8.reduceToNat]
    omega
  rcases decBody_cases e ds with ⟨k, -, hb⟩ | ⟨k, -, -, -, hb⟩ | ⟨k, hk, -, -, hb⟩
  · exact ⟨_, _, hb, by decide, by decide, by decide⟩
  · exact ⟨digitChar d, _, by rw [hb, hds]; rfl, hdig⟩
  · obtain ⟨j, rfl⟩ := Nat.exists_eq_succ_of_ne_zero hk.ne'
    exact ⟨digitChar d, _, by rw [hb, hds]; rfl, hdig⟩

/-- The value of canonical text behind the sign. -/
theorem Canonic.decAbs_body {e : ℤ} (h : Canonic e ds) : decAbs (decBody e ds) = frac 10 ds * 10 ^ e := by
  rcases decBody_cases e ds with ⟨k, rfl, hb⟩ | ⟨k, -, rfl, hlen, hb⟩ | ⟨k, -, rfl, hlen, hb⟩
  · have := decAbs_point (digits_nil 10) (digits_append.mpr ⟨digits_replicate k, h.digits⟩)
    rw [hb]
    refine this.trans ?_
    rw [List.nil_append, List.length_nil, pow_zero, mul_one, frac_append, frac_replicate_zero, zero_add, List.length_replicate,
      zpow_neg, zpow_natCast, div_eq_mul_inv]
    norm_num
  · rw [hb, decAbs_integer (digits_append.mpr ⟨h.digits, digits_replicate _⟩), frac_append, frac_replicate_zero, zero_div,
      add_zero, zpow_natCast, List.length_append, List.length_replicate, Nat.add_sub_cancel' hlen]
  · have hsplit := digits_append.mp ((List.take_append_drop k ds).symm ▸ h.digits)
    rw [hb, decAbs_point hsplit.1 hsplit.2, List.take_append_drop, zpow_natCast, List.length_take, Nat.min_eq_left hlen.le]

/-- The value of canonical text. -/
theorem Canonic.decVal_decStr {e : ℤ} (h : Canonic e ds) (neg : Bool) :
    decVal (decStr neg e ds) = (if neg then -1 else 1) * (frac 10 ds * 10 ^ e) := by
  cases neg with
  | true => simp [decVal, decStr, h.decAbs_body]
  | false =>
    obtain ⟨c, t, hb, -, hm, -⟩ := h.decimal.body_head e
    have hhead : (decBody e ds).head? ≠ some ascMinus := by simpa [hb] using hm
    simp [decVal, decStr, hhead, h.decAbs_body]

namespace StringToNumberAux

/-! ## Mantissa words -/

/-- The zeros a digit string ends in, with `i` before it. -/
def zeroRun (ds : List ℕ) (i : ℕ) : ℕ := ds.foldl (fun i d => if d = 0 then i + 1 else 0) i

theorem zeroRun_append (ds es : List ℕ) (i : ℕ) : zeroRun (ds ++ es) i = zeroRun es (zeroRun ds i) := by
  simp [zeroRun]

/-- A whole number is a multiple of the power of ten its trailing zeros make. -/
theorem pow_zeroRun_dvd (ds : List ℕ) : 10 ^ zeroRun ds 0 ∣ whole 10 ds 0 := by
  induction ds using List.reverseRecOn with
  | nil => simp
  | append_singleton ds d ih =>
    rw [zeroRun_append, whole_append, whole_cons]
    by_cases hd : d = 0
    · simp only [zeroRun, List.foldl_cons, List.foldl_nil, hd, if_true, add_zero, pow_succ]
      exact Nat.mul_dvd_mul_right ih 10
    · simp [zeroRun, hd]

variable {ds : List ℕ} {r : List UInt8}

/-- A run of digits in front of something that is no digit. -/
theorem s2nDigits_chars (hds : Digits 10 ds) (r : List UInt8) (hr : ∀ c, r.head? = some c → isDigit c = false) (b m i z : ℕ) :
    s2nDigits b (chars ds ++ r) m i z =
      (chars (ds.drop b) ++ r, b - ds.length, whole 10 (ds.take b) m, zeroRun (ds.take b) i, z + min b ds.length) := by
  induction ds generalizing b m i z with
  | nil =>
    cases b with
    | zero => cases r <;> simp [s2nDigits, chars, zeroRun]
    | succ b =>
      cases r with
      | nil => simp [s2nDigits, chars, zeroRun]
      | cons c r => simp [s2nDigits, chars, zeroRun, hr c rfl]
  | cons d ds ih =>
    obtain ⟨hd, hds⟩ := digits_cons.mp hds
    cases b with
    | zero => simp [s2nDigits, zeroRun]
    | succ b =>
      have hchars : chars (d :: ds) ++ r = digitChar d :: (chars ds ++ r) := rfl
      rw [hchars, s2nDigits, if_pos (isDigit_digitChar hd), ih hds, digitVal_digitChar hd]
      simp only [digitChar_eq_zero_iff hd, List.drop_succ_cons, List.take_succ_cons, whole_cons, List.length_cons, Nat.add_sub_add_right]
      refine Prod.ext rfl (Prod.ext rfl (Prod.ext rfl (Prod.ext rfl ?_)))
      simp only
      omega

theorem s2nDigits_stop (b : ℕ) (r : List UInt8) (m i z : ℕ) (h : b = 0 ∨ r = []) : s2nDigits b r m i z = (r, b, m, i, z) := by
  rcases h with rfl | rfl
  · cases r <;> simp [s2nDigits]
  · cases b <;> simp [s2nDigits]

/-- A word read from digits, which ends with them or with its room, or at a decimal point that is not the first. -/
theorem s2nWord_run (hds : Digits 10 ds) (r : List UInt8) (hr : ∀ c, r.head? = some c → isDigit c = false) (i z : ℕ)
    (y : ℤ) (dot : Bool) (hdot : dot = true ∨ r.head? ≠ some ascDot ∨ 9 ≤ ds.length) : s2nWord (chars ds ++ r) i z y dot =
      ⟨chars (ds.drop 9) ++ r, 9 - ds.length, whole 10 (ds.take 9) 0, zeroRun (ds.take 9) i, z + min 9 ds.length, y, dot⟩ := by
  have hread := s2nDigits_chars hds r hr 9 0 i z
  have hnodot : ¬ (9 - ds.length > 0 ∧ (chars (ds.drop 9) ++ r).head? = some ascDot ∧ dot = false) := by
    rintro ⟨hb, hhead, hd⟩
    rw [List.drop_eq_nil_of_le (by omega)] at hhead
    rcases hdot with rfl | h | h
    · cases hd
    · exact h hhead
    · omega
  unfold s2nWord
  simp only [hread, if_neg hnodot]
  by_cases hlen : 9 ≤ ds.length
  · rw [Nat.sub_eq_zero_of_le hlen, s2nDigits_stop _ _ _ _ _ (Or.inl rfl)]
  · have hstop := s2nDigits_chars (digits_nil 10) r hr (9 - ds.length) (whole 10 (ds.take 9) 0) (zeroRun (ds.take 9) i) 0
    rw [List.drop_eq_nil_of_le (by omega)]
    change s2nDigits (9 - ds.length) (chars [] ++ r) _ _ _ = _ at hstop
    rw [hstop]
    simp [zeroRun, chars]

/-- A word that contains the decimal point. -/
theorem s2nWord_point {es : List ℕ} (hds : Digits 10 ds) (hes : Digits 10 es) (hlen : ds.length < 9) (r : List UInt8)
    (hr : ∀ c, r.head? = some c → isDigit c = false) (i z : ℕ) (y : ℤ) : s2nWord (chars ds ++ ascDot :: (chars es ++ r)) i z y false =
      ⟨chars ((ds ++ es).drop 9) ++ r, 9 - (ds ++ es).length, whole 10 ((ds ++ es).take 9) 0, zeroRun ((ds ++ es).take 9) i,
        z + ds.length, ((z + ds.length : ℕ) : ℤ), true⟩ := by
  have hread := s2nDigits_chars hds (ascDot :: (chars es ++ r)) (by rintro c ⟨⟩; decide) 9 0 i z
  rw [List.drop_eq_nil_of_le (by omega), List.take_of_length_le (by omega)] at hread
  have hread2 := s2nDigits_chars hes r hr (9 - ds.length) (whole 10 ds 0) (zeroRun ds i) 0
  have hroom : 9 - ds.length > 0 := by omega
  have hhead : (chars [] ++ ascDot :: (chars es ++ r)).head? = some ascDot := rfl
  have htail : (chars [] ++ ascDot :: (chars es ++ r)).tail = chars es ++ r := rfl
  unfold s2nWord
  simp only [hread, hroom, hhead, and_self, if_true, htail, hread2]
  have htake : (ds ++ es).take 9 = ds ++ es.take (9 - ds.length) := by
    rw [List.take_append, List.take_of_length_le (by omega)]
  have hdrop : (ds ++ es).drop 9 = es.drop (9 - ds.length) := by
    rw [List.drop_append, List.drop_eq_nil_of_le (by omega), List.nil_append]
  simp only [htake, hdrop, whole_append, zeroRun_append, List.length_append, S2nWord.mk.injEq, true_and, and_true]
  omega

/-! ## Storing the number -/

/-- The first word of a digit string, filled up with zeros. -/
def word1 (ds : List ℕ) : ℕ := whole 10 (ds.take 9) 0 * 10 ^ (9 - ds.length)

/-- The second word of a digit string, filled up with zeros. -/
def word2 (ds : List ℕ) : ℕ := word1 (ds.drop 9)

theorem word1_eq (ds : List ℕ) : (word1 ds : ℚ) = frac 10 (ds.take 9) * 10 ^ 9 := by
  unfold word1
  have hlen : min 9 ds.length + (9 - ds.length) = 9 := by omega
  rw [Nat.cast_mul, whole_eq (by norm_num), Nat.cast_zero, zero_add, mul_assoc, List.length_take, Nat.cast_pow, ← pow_add, hlen,
    Nat.cast_ofNat]

theorem word1_lt (h : Digits 10 ds) : word1 ds < mantHi := by
  have htake : Digits 10 (ds.take 9) := fun d hd => h d (List.mem_of_mem_take hd)
  have hlt := frac_lt_one (by norm_num) htake
  have : (word1 ds : ℚ) < (mantHi : ℕ) := by
    rw [word1_eq]
    norm_num [mantHi] at hlt ⊢
    linarith
  exact_mod_cast this

/-- The two words hold all of a digit string whose digits behind the 18th are zeros. -/
theorem words_eq (h : frac 10 (ds.drop 18) = 0) : frac 10 ds = ((word1 ds * 10 ^ 9 + word2 ds : ℕ) : ℚ) / 10 ^ 18 := by
  have h1 : frac 10 ds = frac 10 (ds.take 9) + frac 10 (ds.drop 9) / 10 ^ 9 := by
    rcases le_or_gt 9 ds.length with hlen | hlen
    · conv_lhs => rw [← List.take_append_drop 9 ds, frac_append, List.length_take, Nat.min_eq_left hlen]
      norm_num
    · rw [List.take_of_length_le hlen.le, List.drop_eq_nil_of_le hlen.le]
      simp
  have h2 : frac 10 (ds.drop 9) = frac 10 ((ds.drop 9).take 9) := by
    conv_lhs => rw [← List.take_append_drop 9 (ds.drop 9), frac_append, List.drop_drop, h]
    simp
  push_cast
  rw [word2, word1_eq, word1_eq, h1, h2]
  ring

/-- The first word starts with the leading digit. -/
theorem mantLo_le_word1 {D : List ℕ} (hD : Digits 10 D) (hlead : 1 / 10 ≤ frac 10 D) (h18 : frac 10 (D.drop 18) = 0) : mantLo ≤ word1 D := by
  have hw2 : (word2 D : ℚ) < (mantHi : ℕ) := by
    exact_mod_cast (word1_lt fun d hd => hD d (List.mem_of_mem_drop hd) : word2 D < mantHi)
  by_contra hcon
  have h3 : (word1 D : ℚ) + 1 ≤ (mantLo : ℕ) := by exact_mod_cast Nat.lt_of_not_le hcon
  rw [words_eq h18] at hlead
  push_cast [mantLo, mantHi] at hlead h3 hw2
  linarith

/-- Thousandths are the digits shifted by the exponent: only zeros are dropped. -/
theorem s2nThousandths_eq {m1 i : ℕ} {j : ℤ} (hdvd : 10 ^ i ∣ m1) (hi : 0 ≤ (i : ℤ) + j) : (s2nThousandths m1 j : ℚ) = m1 * 10 ^ j := by
  unfold s2nThousandths
  split
  · have hdvd' : tenPwr j.natAbs ∣ m1 := dvd_trans (pow_dvd_pow 10 (by omega)) hdvd
    have hne : ((tenPwr j.natAbs : ℕ) : ℚ) ≠ 0 := by simp [tenPwr]
    have hexp : j = -(j.natAbs : ℤ) := by omega
    rw [Nat.cast_div hdvd' hne, div_eq_mul_inv]
    conv_rhs => rw [hexp, zpow_neg, zpow_natCast]
    simp [tenPwr]
  · have hexp : j = (j.toNat : ℤ) := by omega
    conv_rhs => rw [hexp, zpow_natCast]
    simp [tenPwr]

/-- Both forms `s2n` stores a number in have its value and are in range. -/
theorem s2nStore_spec {e : ℤ} (h : Canonic e ds) {D : List ℕ} (hD : Digits 10 D) (hfrac : frac 10 D = frac 10 ds)
    (h18 : frac 10 (D.drop 18) = 0) (u : Mval) (hu : u.mvtype.int = false) (happ : u.mvtype.numApprox = false) (sign : ℕ) :
    ∃ v, s2nStore u (whole 10 (D.take 9) 0) (word2 D) (9 - D.length) (zeroRun (D.take 9) 0) sign e false = .ok v ∧
      v.mvtype.numApprox = false ∧ v.NumValid ∧ v.numVal = (if sign % 2 = 1 then -1 else 1) * (frac 10 ds * 10 ^ e) := by
  have hwords := words_eq h18
  have hlo := h.exp_lo
  have hhi := h.exp_hi
  have hw1 := word1_lt hD
  have hw2 : word2 D < mantHi := word1_lt fun d hd => hD d (List.mem_of_mem_drop hd)
  have hlead := mantLo_le_word1 hD (hfrac ▸ h.normal.lead) h18
  have hword : whole 10 (D.take 9) 0 * tenPwr (9 - D.length) = word1 D := rfl
  rw [hfrac] at hwords
  unfold s2nStore
  simp only [happ, Bool.or_false, hword]
  by_cases hint : word2 D = 0 ∧ e ≤ 6 ∧ 0 ≤ (zeroRun (D.take 9) 0 : ℤ) + (e + (9 - D.length : ℕ) - 6)
  · rw [if_pos hint]
    obtain ⟨hm0, hx, hi⟩ := hint
    have hval := s2nThousandths_eq (pow_zeroRun_dvd (D.take 9)) hi
    generalize s2nThousandths (whole 10 (D.take 9) 0) (e + (9 - D.length : ℕ) - 6) = m at *
    have hm : (m : ℚ) = word1 D * 10 ^ (e - 6) := by
      rw [hval, ← hword, tenPwr, Nat.cast_mul, Nat.cast_pow, Nat.cast_ofNat, mul_assoc, ← zpow_natCast, ← zpow_add₀ (by norm_num)]
      congr 2
      omega
    have hmlt : m < mantHi := by
      have hpow : (10 : ℚ) ^ (e - 6) ≤ 1 := zpow_le_one_of_nonpos₀ (by norm_num) (by omega)
      have h1 : (m : ℚ) ≤ word1 D := by
        rw [hm]
        exact mul_le_of_le_one_right (Nat.cast_nonneg _) hpow
      exact lt_of_le_of_lt (by exact_mod_cast h1) hw1
    have hq : frac 10 ds * 10 ^ e = m / 1000 := by
      rw [hwords, hm0, hm, zpow_sub₀ (by norm_num)]
      push_cast
      ring
    refine ⟨_, rfl, rfl, ?_, ?_⟩
    · by_cases hs : sign % 2 = 1 <;> simpa [Mval.NumValid, hs] using hmlt
    · rw [hq]
      by_cases hs : sign % 2 = 1
      · simp [Mval.numVal, hs]
        ring
      · simp [Mval.numVal, hs]
  · have hrange : ¬ (e + mvXbias < expLo ∨ word1 D = 0) := by
      have hpos : 0 < mantLo := by decide
      omega
    rw [if_neg hint, if_neg hrange, if_neg (by omega)]
    refine ⟨_, rfl, rfl, ?_, ?_⟩
    · simp only [Mval.NumValid, hu, Bool.false_eq_true, if_false]
      omega
    · have hexp : ((e + mvXbias).toNat : ℤ) - mvXbias = e := by omega
      simp only [Mval.numVal, hu, Bool.false_eq_true, if_false, hwords, decide_eq_true_eq, hexp]
      push_cast
      ring

/-! ## The whole string -/

theorem s2nSigns_decStr (h : Decimal ds) (neg : Bool) (e : ℤ) :
    s2nSigns (decStr neg e ds) 0 = (decBody e ds, if neg then 1 else 0) := by
  obtain ⟨c, t, hb, -, hm, hp⟩ := h.body_head e
  cases neg <;> simp [decStr, hb, s2nSigns, hm, hp]

theorem skipZeros_of_head (h : r.head? ≠ some ascZero) : skipZeros r 0 = (r, 0) := by
  cases r with
  | nil => simp [skipZeros]
  | cons c r =>
    have hc : c ≠ ascZero := by simpa using h
    simp [skipZeros, hc]

theorem skipZeros_replicate (k : ℕ) (r : List UInt8) (h : r.head? ≠ some ascZero) (n : ℕ) :
    skipZeros (List.replicate k ascZero ++ r) n = (r, n + k) := by
  induction k generalizing n with
  | zero =>
    cases r with
    | nil => simp [skipZeros]
    | cons c r =>
      have hc : c ≠ ascZero := by simpa using h
      simp [skipZeros, hc]
  | succ k ih =>
    rw [List.replicate_succ, List.cons_append, skipZeros, if_pos rfl, ih]
    refine Prod.ext rfl ?_
    omega

@[simp] theorem chars_nil : chars [] = [] := rfl

theorem chars_eq_nil : chars ds = [] ↔ ds = [] := by simp [chars]

theorem frac_drop18 (h : ds.length ≤ 18) (n : ℕ) : frac 10 ((ds ++ List.replicate n 0).drop 18) = 0 := by
  rw [List.drop_append, List.drop_eq_nil_of_le h, List.nil_append, List.drop_replicate, frac_replicate_zero]

/-- The digits that neither word has room for, without the zeros in front. -/
def excess (ds : List ℕ) : List ℕ := (ds.drop 18).dropWhile fun d => d = 0

theorem excess_digits (h : Digits 10 ds) : Digits 10 (excess ds) := fun d hd =>
  h d (List.mem_of_mem_drop ((List.dropWhile_sublist _).subset hd))

theorem length_excess_le (ds : List ℕ) : (excess ds).length ≤ ds.length - 18 := by
  have := (List.dropWhile_sublist (l := ds.drop 18) fun d => decide (d = 0)).length_le
  rwa [List.length_drop] at this

/-- Nothing is left of 18 digits and zeros behind them. -/
theorem excess_zeros (h : ds.length ≤ 18) (n : ℕ) : excess (ds ++ List.replicate n 0) = [] := by
  unfold excess
  rw [List.drop_append, List.drop_eq_nil_of_le h, List.nil_append, List.drop_replicate]
  simp

theorem skipZeros_chars (hd : Digits 10 ds) (hr : ∀ c, r.head? = some c → isDigit c = false) (n : ℕ) : skipZeros (chars ds ++ r) n =
      (chars (ds.dropWhile fun d => d = 0) ++ r, n + (ds.length - (ds.dropWhile fun d => d = 0).length)) := by
  induction ds generalizing n with
  | nil =>
    cases r with
    | nil => simp [chars, skipZeros]
    | cons c r =>
      have hc : c ≠ ascZero := by
        rintro rfl
        exact absurd (hr ascZero rfl) (by decide)
      simp [chars, skipZeros, hc]
  | cons d ds ih =>
    obtain ⟨hlt, hd⟩ := digits_cons.mp hd
    have hlen := (List.dropWhile_sublist (l := ds) fun d => decide (d = 0)).length_le
    have hcons : chars (d :: ds) ++ r = digitChar d :: (chars ds ++ r) := rfl
    rw [hcons, skipZeros]
    by_cases h0 : d = 0
    · rw [if_pos ((digitChar_eq_zero_iff hlt).mpr h0), ih hd, List.dropWhile_cons_of_pos (by simpa using h0), List.length_cons]
      refine Prod.ext rfl ?_
      omega
    · rw [if_neg (mt (digitChar_eq_zero_iff hlt).mp h0), List.dropWhile_cons_of_neg (by simpa using h0)]
      simp [chars]

/-- The mantissa words of digits; behind the 18th only zeros are read. -/
theorem s2nMantissa_run (hd : Digits 10 ds) (hr : ∀ c, r.head? = some c → isDigit c = false) (y : ℤ)
    (dot : Bool) (hdot : dot = true ∨ r.head? ≠ some ascDot ∨ 18 ≤ ds.length) : s2nMantissa (chars ds ++ r) y dot =
      ⟨whole 10 (ds.take 9) 0, word2 ds, 9 - ds.length, zeroRun (ds.take 9) 0, ds.length - (excess ds).length, y, dot,
        chars (excess ds) ++ r⟩ := by
  have hd9 : Digits 10 (ds.drop 9) := fun d h => hd d (List.mem_of_mem_drop h)
  have hd18 : Digits 10 (ds.drop 18) := fun d h => hd d (List.mem_of_mem_drop h)
  have hw1 := s2nWord_run hd r hr 0 0 y dot (hdot.imp_right (Or.imp_right fun h => by omega))
  have hw2 := s2nWord_run hd9 r hr 0 (0 + min 9 ds.length) y dot
    (hdot.imp_right (Or.imp_right fun h => by rw [List.length_drop]; omega))
  rw [List.drop_drop] at hw2
  have hskip := skipZeros_chars hd18 hr 0
  have hle := length_excess_le ds
  unfold s2nMantissa
  simp only [hw1, hw2, List.append_eq_nil_iff, chars_eq_nil]
  split
  · rename_i hnil
    obtain ⟨hnil, rfl⟩ := hnil
    have hlen : ds.length ≤ 9 := List.drop_eq_nil_iff.mp hnil
    have hex : excess ds = [] := List.length_eq_zero_iff.mp (by omega)
    rw [word2, hnil, hex]
    simp [word1, chars, hlen]
  · rw [hskip]
    simp only [S2nMantissa.mk.injEq, true_and]
    refine ⟨rfl, ?_, rfl⟩
    change _ + (0 + ((ds.drop 18).length - (excess ds).length)) = _
    simp only [List.length_drop]
    omega

/-- The mantissa words of digits with the decimal point among them. -/
theorem s2nMantissa_point {es : List ℕ} (hd : Digits 10 ds) (he : Digits 10 es) (hlen : ds.length < 18)
    (hr : ∀ c, r.head? = some c → isDigit c = false) (y : ℤ) :
    ∃ z, ds.length ≤ z ∧ s2nMantissa (chars ds ++ ascDot :: (chars es ++ r)) y false =
      ⟨whole 10 ((ds ++ es).take 9) 0, word2 (ds ++ es), 9 - (ds ++ es).length, zeroRun ((ds ++ es).take 9) 0, z, ds.length, true,
        chars (excess (ds ++ es)) ++ r⟩ := by
  have hD : Digits 10 (ds ++ es) := digits_append.mpr ⟨hd, he⟩
  have hD18 : Digits 10 ((ds ++ es).drop 18) := fun d h => hD d (List.mem_of_mem_drop h)
  have hskip := skipZeros_chars hD18 hr 0
  have hle := length_excess_le (ds ++ es)
  unfold s2nMantissa
  rcases lt_or_ge ds.length 9 with h9 | h9
  · have hd9 : Digits 10 ((ds ++ es).drop 9) := fun d h => hD d (List.mem_of_mem_drop h)
    have hw2 := s2nWord_run hd9 r hr 0 (0 + ds.length) ((0 + ds.length : ℕ) : ℤ) true (Or.inl rfl)
    rw [List.drop_drop] at hw2
    simp only [s2nWord_point hd he h9 r hr, hw2, List.append_eq_nil_iff, chars_eq_nil]
    split
    · rename_i hnil
      obtain ⟨hnil, rfl⟩ := hnil
      have hlen := List.drop_eq_nil_iff.mp hnil
      have hex : excess (ds ++ es) = [] := List.length_eq_zero_iff.mp (by omega)
      refine ⟨0 + ds.length, by omega, ?_⟩
      rw [word2, hnil, hex]
      simp [word1, chars]
    · rw [hskip, zero_add ds.length]
      exact ⟨_, by omega, rfl⟩
  · have hd9 : Digits 10 (ds.drop 9) := fun d h => hd d (List.mem_of_mem_drop h)
    have hl9 : (ds.drop 9).length < 9 := by
      rw [List.length_drop]
      omega
    have hw1 := s2nWord_run hd (ascDot :: (chars es ++ r)) (by rintro c ⟨⟩; decide) 0 0 y false (Or.inr (Or.inr h9))
    have hw2 := s2nWord_point hd9 he hl9 r hr 0 (0 + min 9 ds.length) y
    have htake : (ds ++ es).take 9 = ds.take 9 := List.take_append_of_le_length h9
    have hdrop : ds.drop 9 ++ es = (ds ++ es).drop 9 := (List.drop_append_of_le_length h9).symm
    have hroom : 9 - ds.length = 9 - (ds ++ es).length := by
      rw [List.length_append]
      omega
    have hlen9 : 0 + min 9 ds.length + (ds.drop 9).length = ds.length := by
      rw [List.length_drop]
      omega
    have hne : chars (ds.drop 9) ++ ascDot :: (chars es ++ r) ≠ [] := by simp
    rw [hdrop, List.drop_drop, hlen9] at hw2
    simp only [hw1, hw2, if_neg hne]
    rw [hskip, htake, ← hroom]
    exact ⟨_, by omega, rfl⟩
/-- Canonical text leaves nothing unread, and a point in it is not last and not followed by a last zero. -/
theorem decStr_getLast? {e : ℤ} (h : Decimal ds) (neg : Bool) (hpoint : e < ds.length) :
    (decStr neg e ds).getLast? ≠ some ascZero ∧ (decStr neg e ds).getLast? ≠ some ascDot := by
  have hsuffix : ∀ es, es ≠ [] → (∃ p, decStr neg e ds = p ++ chars es) → (∃ q, ds = q ++ es) →
      (decStr neg e ds).getLast? ≠ some ascZero ∧ (decStr neg e ds).getLast? ≠ some ascDot := by
    rintro es hne ⟨p, hp⟩ ⟨q, rfl⟩
    have ht := h.trimmed
    unfold Trimmed at ht
    obtain ⟨t, d, rfl⟩ := List.eq_nil_or_concat es |>.resolve_left hne
    have hd : d < 10 := h.digits d (by simp)
    rw [hp, List.concat_eq_append, chars_append] at *
    simp only [List.getLast?_append, List.getLast?_singleton, Option.some_or, ne_eq, Option.some.injEq] at ht
    simp only [chars, List.map_cons, List.map_nil, List.getLast?_append, List.getLast?_singleton, Option.some_or, ne_eq,
      Option.some.injEq, digitChar_eq_zero_iff hd, ht, not_false_eq_true, true_and]
    rw [← UInt8.toNat_inj, digitChar_toNat hd]
    simp only [ascDot, UInt8.reduceToNat]
    omega
  rcases decBody_cases e ds with ⟨k, rfl, hb⟩ | ⟨k, -, rfl, hlen, hb⟩ | ⟨k, -, rfl, hlen, hb⟩
  · refine hsuffix ds h.ne_nil ⟨(if neg then [ascMinus] else []) ++ ascDot :: chars (List.replicate k 0), ?_⟩ ⟨[], rfl⟩
    rw [decStr, hb, chars_append]
    simp
  · omega
  · refine hsuffix (ds.drop k) (by simp; omega) ⟨(if neg then [ascMinus] else []) ++ chars (ds.take k) ++ [ascDot], ?_⟩
      ⟨ds.take k, (List.take_append_drop k ds).symm⟩
    rw [decStr, hb]
    simp

end StringToNumberAux

/-- `s2n` on the text of a number: both mantissa words are read, nothing is left and nothing marks an approximation. -/
theorem s2n_decStr_store {e : ℤ} {ds : List ℕ} (h : Decimal ds) (neg : Bool) (u : Mval) (hstr : u.str = decStr neg e ds) :
    ∃ D intlit, Digits 10 D ∧ frac 10 D = frac 10 ds ∧ frac 10 (D.drop 18) = 0 ∧
      s2n u = (s2nStore u (whole 10 (D.take 9) 0) (word2 D) (9 - D.length) (zeroRun (D.take 9) 0) (if neg then 1 else 0) e false).map
        fun v => { mval := v, rest := [], intlit := intlit } := by
  obtain ⟨c, t, hbody, hc0, -, -⟩ := h.body_head e
  have hne : u.str ≠ [] := by
    rw [hstr, decStr, hbody]
    simp
  have hsigns := s2nSigns_decStr h neg e
  have hzero := skipZeros_of_head (r := decBody e ds) (by simpa [hbody] using hc0)
  -- it remains to say what the mantissa words are and that nothing follows them
  have hmain : ∀ (D : List ℕ) (r : List UInt8) (lead z : ℕ) (y : ℤ) (dot dot' : Bool), Digits 10 D → frac 10 D = frac 10 ds →
      frac 10 (D.drop 18) = 0 → decide ((decBody e ds).head? = some ascDot) = dot →
      skipZeros (if dot then (decBody e ds).tail else decBody e ds) 0 = (r, lead) → z ≠ 0 → (if dot' then y else (z : ℤ)) = e →
      s2nMantissa r (-lead) dot = ⟨whole 10 (D.take 9) 0, word2 D, 9 - D.length, zeroRun (D.take 9) 0, z, y, dot', []⟩ →
      (dot' = true → e < ds.length) → ∃ D intlit, Digits 10 D ∧ frac 10 D = frac 10 ds ∧ frac 10 (D.drop 18) = 0 ∧
        s2n u = (s2nStore u (whole 10 (D.take 9) 0) (word2 D) (9 - D.length) (zeroRun (D.take 9) 0) (if neg then 1 else 0) e
          false).map fun v => { mval := v, rest := [], intlit := intlit } := by
    intro D r lead z y dot dot' hD hfrac h18 hdot hskip hz hx hmant hpoint
    have htail : (dot' && (decide (u.str.getLast? = some ascZero) || decide (u.str.getLast? = some ascDot))) = false := by
      cases hd : dot' with
      | false => rfl
      | true =>
        obtain ⟨h1, h2⟩ := decStr_getLast? h neg (hpoint hd)
        rw [hstr]
        simp [h1, h2]
    have hsign : ¬ 1 < (if neg then 1 else 0 : ℕ) := by cases neg <;> simp
    refine ⟨D, decide ((if neg then 1 else 0 : ℕ) ≠ 0) || dot' || false, hD, hfrac, h18, ?_⟩
    unfold s2n
    rw [if_neg hne, hstr, hsigns]
    simp only [hzero, hdot, hskip, hmant, s2nExcess, s2nExp, hz, ne_eq, not_true_eq_false, decide_false, decide_true,
      not_false_eq_true, Bool.true_or, Bool.false_or, if_true, hsign, Bool.or_false, Bool.false_and, zero_add, hx]
    rw [hstr] at htail
    rw [htail]
  have hex := excess_zeros h.length_le 0
  rw [List.replicate_zero, List.append_nil] at hex
  rcases decBody_cases e ds with ⟨k, he, hb⟩ | ⟨k, hk, he, hlen, hb⟩ | ⟨k, hk, he, hlen, hb⟩
  · have hpos := List.length_pos_iff.mpr h.ne_nil
    have hmant := s2nMantissa_run h.digits (r := []) (by simp) (-(k : ℤ)) true (Or.inl rfl)
    rw [hex, chars_nil, List.append_nil, List.length_nil, Nat.sub_zero] at hmant
    have hskip : skipZeros (decBody e ds).tail 0 = (chars ds, k) := by
      obtain ⟨d, t, hds, hd⟩ := h.lead
      have hd0 : digitChar d ≠ ascZero := (digitChar_eq_zero_iff (h.digits d (by simp [hds]))).not.mpr hd
      have hskip := skipZeros_replicate k (chars ds) (by rw [hds]; simpa [chars] using hd0) 0
      rw [zero_add, ← chars_replicate, ← chars_append] at hskip
      rw [hb]
      exact hskip
    have hlt : e < ds.length := by omega
    refine hmain ds (chars ds) k _ (-k) true true h.digits rfl ?_ (by simp [hb]) hskip hpos.ne' (by simp [he]) hmant fun _ => hlt
    simpa using frac_drop18 h.length_le 0
  · have hmant := s2nMantissa_run (digits_append.mpr ⟨h.digits, digits_replicate (k - ds.length)⟩) (r := []) (by simp) (-(0 : ℕ))
      false (Or.inr (Or.inl (by simp)))
    rw [excess_zeros h.length_le, List.append_nil, chars_nil, List.append_nil, List.length_nil, Nat.sub_zero] at hmant
    obtain ⟨d, t, hds, hd⟩ := h.lead
    have hdlt : d < 10 := h.digits d (by simp [hds])
    have hhead : (decBody e ds).head? = some (digitChar d) := by
      rw [hb, hds]
      rfl
    have hnodot : decide ((decBody e ds).head? = some ascDot) = false := by
      rw [hhead, decide_eq_false_iff_not, Option.some.injEq, ← UInt8.toNat_inj, digitChar_toNat hdlt]
      simp only [ascDot, UInt8.reduceToNat]
      omega
    have hlen' : (ds ++ List.replicate (k - ds.length) 0).length = k := by
      rw [List.length_append, List.length_replicate]
      omega
    refine hmain (ds ++ List.replicate (k - ds.length) 0) (chars (ds ++ List.replicate (k - ds.length) 0)) 0 k (-(0 : ℕ)) false false
      (digits_append.mpr ⟨h.digits, digits_replicate _⟩) ?_ (frac_drop18 h.length_le _) hnodot ?_ hk.ne' (by simp [he]) ?_ (by simp)
    · rw [frac_append]
      simp
    · rw [← hb]
      exact hzero
    · rw [hmant, hlen']
  · have hsplit := digits_append.mp ((List.take_append_drop k ds).symm ▸ h.digits)
    have htake : (ds.take k).length = k := by
      rw [List.length_take]
      omega
    have hshort : ds.length ≤ 18 := h.length_le
    obtain ⟨z, hz, hmant⟩ := s2nMantissa_point hsplit.1 hsplit.2 (by omega) (r := []) (by simp) (-(0 : ℕ))
    rw [List.take_append_drop, htake, hex, chars_nil, List.append_nil] at hmant
    have hnodot : decide ((decBody e ds).head? = some ascDot) = false := by
      obtain ⟨d, t, hds, -⟩ := h.lead
      obtain ⟨j, rfl⟩ := Nat.exists_eq_succ_of_ne_zero hk.ne'
      have hdlt : d < 10 := h.digits d (by simp [hds])
      have hhead : (decBody e ds).head? = some (digitChar d) := by
        rw [hb, hds]
        rfl
      rw [hhead, decide_eq_false_iff_not, Option.some.injEq, ← UInt8.toNat_inj, digitChar_toNat hdlt]
      simp only [ascDot, UInt8.reduceToNat]
      omega
    refine hmain ds _ 0 z k false true h.digits rfl ?_ hnodot ?_ (by omega) (by simp [he]) hmant fun _ => by omega
    · simpa using frac_drop18 h.length_le 0
    · rw [← hb]
      exact hzero

/-- `s2n` on canonical text stores the number the text denotes, in range and not marked as an approximation. -/
theorem s2n_decStr {e : ℤ} {ds : List ℕ} (h : Canonic e ds) (neg : Bool) (u : Mval) (hstr : u.str = decStr neg e ds)
    (hint : u.mvtype.int = false) (happ : u.mvtype.numApprox = false) :
    ∃ r, s2n u = .ok r ∧ r.mval.mvtype.numApprox = false ∧ r.mval.NumValid ∧
      r.mval.numVal = (if neg then -1 else 1) * (frac 10 ds * 10 ^ e) := by
  obtain ⟨D, intlit, hD, hfrac, h18, hs⟩ := s2n_decStr_store h.decimal neg u hstr
  obtain ⟨v, hv, hva, hvn, hvv⟩ := s2nStore_spec h hD hfrac h18 u hint happ (if neg then 1 else 0)
  refine ⟨_, by rw [hs, hv]; rfl, hva, hvn, ?_⟩
  rw [hvv]
  cases neg <;> simp

/-- `s2n` on the text of zero. -/
theorem s2n_zero (u : Mval) (hstr : u.str = [ascZero]) (happ : u.mvtype.numApprox = false) :
    ∃ r, s2n u = .ok r ∧ r.mval.mvtype.numApprox = false ∧ r.mval.NumValid ∧ r.mval.numVal = 0 := by
  have hrun : s2n u = .ok ⟨{ u with mvtype := { u.mvtype with nm := true, int := true }, m1 := 0, m0 := 0 }, [], false⟩ := by
    unfold s2n
    rw [hstr]
    simp [s2nSigns, skipZeros, s2nMantissa, s2nWord, s2nDigits, s2nExcess, s2nExp, s2nStore, s2nThousandths, ascZero, ascDot,
      ascMinus, ascPlus, happ, Except.map]
    exact hstr
  exact ⟨_, hrun, happ, by simp [Mval.NumValid, mantHi], by simp [Mval.numVal]⟩

end Gtm
