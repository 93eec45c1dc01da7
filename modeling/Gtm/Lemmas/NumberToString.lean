import Gtm.Lemmas.DecimalText
import Gtm.Lemmas.NumberForm

/-!
# The string of a number

Statements about the digit loops of `n2s`: in both branches the string is canonical text of the number.
-/

namespace Gtm

open Positional DecimalTextAux

namespace NumberToStringAux

/-! ## The `MV_INT` branch -/

theorem n2sIntPart_chars (fuel m : ℕ) (out : List UInt8) (h : m < 10 ^ fuel) :
    ∃ is, n2sIntPart fuel m out = chars is ++ out ∧ Digits 10 is ∧ is.head? ≠ some 0 ∧ whole 10 is 0 = m := by
  induction fuel generalizing m out with
  | zero =>
    have hm : m = 0 := by simpa using h
    exact ⟨[], by simp [n2sIntPart, chars], by simp, by simp, by simp [hm]⟩
  | succ fuel ih =>
    unfold n2sIntPart
    by_cases hm : m > 0
    · rw [if_pos hm]
      obtain ⟨is, hs, hd, hlead, hval⟩ := ih (m / 10) (digitChar (m % 10) :: out)
        (by rw [Nat.div_lt_iff_lt_mul (by norm_num), ← pow_succ]; exact h)
      refine ⟨is ++ [m % 10], by rw [hs, chars_append]; simp [chars], ?_, ?_, ?_⟩
      · exact digits_append.mpr ⟨hd, by simpa using Nat.mod_lt _ (by norm_num)⟩
      · cases is with
        | nil =>
          rw [whole_nil] at hval
          simp only [List.nil_append, List.head?_cons, ne_eq, Option.some.injEq]
          omega
        | cons i is => simpa using hlead
      · rw [whole_append, whole_cons, whole_nil]
        omega
    · rw [if_neg hm]
      have hm0 : m = 0 := by omega
      exact ⟨[], by simp [chars], by simp, by simp, by simp [hm0]⟩

theorem n2sFracRest_chars (n m : ℕ) (out : List UInt8) (h : m < 10 ^ n) :
    ∃ ds, n2sFracRest n m out = chars ds ++ out ∧ Digits 10 ds ∧ ds.length = n ∧ whole 10 ds 0 = m := by
  induction n generalizing m out with
  | zero =>
    have hm : m = 0 := by simpa using h
    exact ⟨[], by simp [n2sFracRest, chars], by simp, rfl, by simp [hm]⟩
  | succ n ih =>
    obtain ⟨ds, hs, hd, hlen, hval⟩ := ih (m / 10) (digitChar (m % 10) :: out)
      (by rw [Nat.div_lt_iff_lt_mul (by norm_num), ← pow_succ]; exact h)
    refine ⟨ds ++ [m % 10], by rw [n2sFracRest, hs, chars_append]; simp [chars], ?_, by simp [hlen], ?_⟩
    · exact digits_append.mpr ⟨hd, by simpa using Nat.mod_lt _ (by norm_num)⟩
    · rw [whole_append, whole_cons, whole_nil]
      omega

theorem n2sFracPart_chars (n f : ℕ) (hpos : 0 < f) (h : f < 10 ^ n) :
    ∃ fs, n2sFracPart n f = chars fs ∧ Digits 10 fs ∧ Trimmed fs ∧ fs ≠ [] ∧ frac 10 fs = f / 10 ^ n := by
  induction n generalizing f with
  | zero => simp at h; omega
  | succ n ih =>
    have hlt : f / 10 < 10 ^ n := by rw [Nat.div_lt_iff_lt_mul (by norm_num), ← pow_succ]; exact h
    have hsplit : (f : ℚ) = 10 * (f / 10 : ℕ) + (f % 10 : ℕ) := by exact_mod_cast (Nat.div_add_mod f 10).symm
    unfold n2sFracPart
    split
    · rename_i hf
      obtain ⟨ds, hs, hd, hlen, hval⟩ := n2sFracRest_chars n (f / 10) [digitChar (f % 10)] hlt
      refine ⟨ds ++ [f % 10], by rw [hs, chars_append]; simp [chars], ?_, ?_, by simp, ?_⟩
      · exact digits_append.mpr ⟨hd, by simpa using Nat.mod_lt _ (by norm_num)⟩
      · exact (trimmed_singleton.mpr hf).append (by simp) ds
      · have hw := whole_eq (by norm_num : 0 < 10) ds 0
        rw [hval, hlen, Nat.cast_zero] at hw
        rw [frac_append, hlen, hsplit, hw, frac_cons, frac_nil]
        field_simp
        ring
    · rename_i hf
      have hf0 : f % 10 = 0 := by omega
      obtain ⟨fs, hs, hd, ht, hne, hval⟩ := ih (f / 10) (by omega) hlt
      refine ⟨fs, hs, hd, ht, hne, ?_⟩
      rw [hval, hsplit, hf0]
      field_simp
      ring

/-- The string of an `MV_INT` magnitude is canonical text of it. -/
theorem n2sInt_text (m : ℕ) (hpos : 0 < m) (h : m < mantHi) : ∃ is fs, n2sInt m = decText is fs ∧ TextOf ((m : ℚ) / 1000) is fs := by
  unfold mantHi at h
  have hm : m - m / 1000 * 1000 = m % 1000 := by omega
  have hsplit : (m : ℚ) = 1000 * (m / 1000 : ℕ) + (m % 1000 : ℕ) := by exact_mod_cast (Nat.div_add_mod m 1000).symm
  unfold n2sInt
  simp only [mvBias, mvBiasPwr, maxDigitsInInt, hm]
  by_cases hf : m % 1000 > 0
  · rw [if_pos hf]
    obtain ⟨fs, hfs, hfd, hft, hfne, hfval⟩ := n2sFracPart_chars 3 (m % 1000) hf (by omega)
    obtain ⟨is, his, hid, hlead, hival⟩ := n2sIntPart_chars 10 (m / 1000) (ascDot :: n2sFracPart 3 (m % 1000)) (by omega)
    refine ⟨is, fs, by rw [his, hfs, decText, if_neg hfne], hid, hfd, hlead, hft, Or.inr hfne, ?_⟩
    have hw := whole_eq (by norm_num : 0 < 10) is 0
    rw [hival, Nat.cast_zero, zero_add, Nat.cast_ofNat] at hw
    rw [frac_append, Nat.cast_ofNat, add_mul, ← hw, div_mul_cancel₀ _ (by positivity), hfval, hsplit]
    ring
  · rw [if_neg hf]
    have hf0 : m % 1000 = 0 := by omega
    obtain ⟨is, his, hid, hlead, hival⟩ := n2sIntPart_chars 10 (m / 1000) [] (by omega)
    have hne : is ≠ [] := by
      rintro rfl
      simp at hival
      omega
    refine ⟨is, [], by rw [his]; simp [decText], hid, by simp, hlead, by simp, Or.inl hne, ?_⟩
    have hw := whole_eq (by norm_num : 0 < 10) is 0
    rw [hival, Nat.cast_zero, zero_add, Nat.cast_ofNat] at hw
    rw [List.append_nil, ← hw, hsplit, hf0]
    ring

/-! ## The other branch -/

/-- The first `n` decimal digits of a word. -/
def wordDigits : ℕ → ℕ → List ℕ
  | 0, _ => []
  | n + 1, w => w / mantLo :: wordDigits n ((w - w / mantLo * mantLo) * 10)

theorem wordDigits_step {w n : ℕ} (hlt : w < mantHi) (h : mantHi ∣ w * 10 ^ (n + 1)) :
    w / mantLo < 10 ∧ (w - w / mantLo * mantLo) * 10 < mantHi ∧ mantHi ∣ (w - w / mantLo * mantLo) * 10 * 10 ^ n ∧
      (w : ℚ) / mantHi = ((w / mantLo : ℕ) + (((w - w / mantLo * mantLo) * 10 : ℕ) : ℚ) / mantHi) / 10 := by
  have hstep : w * 10 = w / mantLo * mantHi + (w - w / mantLo * mantLo) * 10 := by
    simp only [mantHi, mantLo]
    omega
  refine ⟨by simp only [mantHi, mantLo] at *; omega, by simp only [mantHi, mantLo] at *; omega, ?_, ?_⟩
  · have heq : w * 10 ^ (n + 1) = mantHi * (w / mantLo * 10 ^ n) + (w - w / mantLo * mantLo) * 10 * 10 ^ n := by
      calc w * 10 ^ (n + 1) = w * 10 * 10 ^ n := by ring
        _ = (w / mantLo * mantHi + (w - w / mantLo * mantLo) * 10) * 10 ^ n := by rw [← hstep]
        _ = _ := by ring
    rw [heq] at h
    exact (Nat.dvd_add_right (Dvd.intro _ rfl)).mp h
  · have hq : (w : ℚ) * 10 = (w / mantLo : ℕ) * mantHi + ((w - w / mantLo * mantLo) * 10 : ℕ) := by exact_mod_cast hstep
    have hm : (mantHi : ℚ) ≠ 0 := by norm_num [mantHi]
    field_simp
    linarith

/-- The digits of a word that `n` of them exhaust. -/
theorem wordDigits_form (n w : ℕ) (hlt : w < mantHi) (h : mantHi ∣ w * 10 ^ n) :
    Digits 10 (wordDigits n w) ∧ (wordDigits n w).length = n ∧ frac 10 (wordDigits n w) = w / mantHi := by
  induction n generalizing w with
  | zero =>
    have hw : w = 0 := Nat.eq_zero_of_dvd_of_lt (by simpa using h) hlt
    simp [wordDigits, hw]
  | succ n ih =>
    obtain ⟨h1, h2, h3, h4⟩ := wordDigits_step hlt h
    obtain ⟨hd, hl, hf⟩ := ih _ h2 h3
    refine ⟨digits_cons.mpr ⟨h1, hd⟩, by simp [wordDigits, hl], ?_⟩
    rw [wordDigits, frac_cons, hf, h4]
    norm_num

/-- The characters `n2s` writes for digits `R` when `e` of them belong in front of the decimal point. -/
def emit : ℤ → List ℕ → List UInt8
  | e, [] => List.replicate e.toNat ascZero
  | e, d :: R =>
    if e = 0 then if ∀ x ∈ d :: R, x = 0 then [] else ascDot :: digitChar d :: emit (e - 1) R
    else if e - 1 < 0 ∧ ∀ x ∈ d :: R, x = 0 then [] else digitChar d :: emit (e - 1) R

theorem emit_zeros {e : ℤ} (he : e < 0) {R : List ℕ} (h : ∀ x ∈ R, x = 0) : emit e R = [] := by
  cases R with
  | nil => simp [emit, he.le]
  | cons d R => rw [emit, if_neg (by omega), if_pos ⟨by omega, h⟩]

theorem word_zero_iff {n w : ℕ} (hlt : w < mantHi) (h : mantHi ∣ w * 10 ^ n) : w = 0 ↔ ∀ x ∈ wordDigits n w, x = 0 := by
  obtain ⟨-, -, hf⟩ := wordDigits_form n w hlt h
  have hm : (mantHi : ℚ) ≠ 0 := by norm_num [mantHi]
  rw [← frac_eq_zero_iff (B := 10) (by norm_num), hf]
  simp [hm]

/-- A pass writes the digits of its word, the rest being left to what follows. -/
theorem n2sPass_emit (n : ℕ) (e : ℤ) (m1 m0 : ℕ) (out : List UInt8) (S : List ℕ) (hlt : m1 < mantHi)
    (h : mantHi ∣ m1 * 10 ^ n) (hS : m0 = 0 ↔ ∀ x ∈ S, x = 0) :
    (n2sPass n e m1 m0 out).2 ++ emit (n2sPass n e m1 m0 out).1 S = out ++ emit e (wordDigits n m1 ++ S) := by
  induction n generalizing e m1 out with
  | zero => simp [n2sPass, wordDigits]
  | succ n ih =>
    obtain ⟨-, h2, h3, -⟩ := wordDigits_step hlt h
    have hzero : (m0 = 0 ∧ m1 = 0) ↔ ∀ x ∈ wordDigits (n + 1) m1 ++ S, x = 0 := by
      rw [hS, word_zero_iff hlt h]
      simp only [List.mem_append]
      exact ⟨fun hz x hx => hx.elim (hz.2 x) (hz.1 x), fun hz => ⟨fun x hx => hz x (Or.inr hx), fun x hx => hz x (Or.inl hx)⟩⟩
    have hcons : wordDigits (n + 1) m1 ++ S = m1 / mantLo :: (wordDigits n ((m1 - m1 / mantLo * mantLo) * 10) ++ S) := rfl
    rw [hcons] at hzero
    rw [n2sPass, hcons, emit]
    by_cases he : e = 0
    · rw [if_pos he, if_pos he]
      by_cases hz : m0 = 0 ∧ m1 = 0
      · rw [if_pos hz, if_pos (hzero.mp hz), emit_zeros (by omega) (hS.mp hz.1)]
      · rw [if_neg hz, if_neg (hzero.not.mp hz), ih _ _ _ h2 h3]
        simp
    · rw [if_neg he, if_neg he]
      by_cases hz : e - 1 < 0 ∧ m0 = 0 ∧ m1 = 0
      · rw [if_pos hz, if_pos ⟨hz.1, hzero.mp hz.2⟩, emit_zeros hz.1 (hS.mp hz.2.1)]
      · rw [if_neg hz, if_neg (by rw [← hzero]; exact hz), ih _ _ _ h2 h3]
        simp

/-- All digits of a mantissa. -/
def mantDigits (m1 m0 : ℕ) : List ℕ := wordDigits 9 m1 ++ if m0 = 0 then [] else wordDigits 9 m0

theorem nine_dvd (w : ℕ) : mantHi ∣ w * 10 ^ 9 := Dvd.intro_left w (by norm_num [mantHi])

/-- Both passes together write the digits of the mantissa. -/
theorem n2sDigits_emit (e : ℤ) (m1 m0 : ℕ) (out : List UInt8) (h1 : m1 < mantHi) (h0 : m0 < mantHi) (hne : m1 ≠ 0) :
    (n2sDigits e m1 m0 out).2 ++ List.replicate (n2sDigits e m1 m0 out).1.toNat ascZero = out ++ emit e (mantDigits m1 m0) := by
  unfold n2sDigits mantDigits
  rw [if_neg hne]
  simp only [packedDigits, maxDigitsInInt]
  by_cases hm : m0 = 0
  · rw [if_pos hm, if_pos hm, ← n2sPass_emit 9 e m1 m0 out [] h1 (nine_dvd m1) (by simp [hm])]
    rfl
  · rw [if_neg hm, if_neg hm, ← n2sPass_emit 9 e m1 m0 out (wordDigits 9 m0) h1 (nine_dvd m1) (word_zero_iff h0 (nine_dvd m0)),
      ← List.append_nil (wordDigits 9 m0), ← n2sPass_emit 9 _ m0 0 _ [] h0 (nine_dvd m0) (by simp)]
    rfl

theorem mantDigits_form (m1 m0 : ℕ) (h1 : m1 < mantHi) (h0 : m0 < mantHi) :
    Digits 10 (mantDigits m1 m0) ∧ frac 10 (mantDigits m1 m0) = ((m1 * 10 ^ 9 + m0 : ℕ) : ℚ) / 10 ^ 18 := by
  obtain ⟨hd1, hl1, hf1⟩ := wordDigits_form 9 m1 h1 (nine_dvd m1)
  obtain ⟨hd0, -, hf0⟩ := wordDigits_form 9 m0 h0 (nine_dvd m0)
  unfold mantDigits
  have hm : (mantHi : ℚ) = 10 ^ 9 := by norm_num [mantHi]
  by_cases hz : m0 = 0
  · rw [if_pos hz, List.append_nil, hf1, hz, hm]
    refine ⟨hd1, ?_⟩
    push_cast
    ring
  · rw [if_neg hz, frac_append, hl1, hf1, hf0, hm]
    refine ⟨digits_append.mpr ⟨hd1, hd0⟩, ?_⟩
    push_cast
    ring

/-- Digits of a fraction are written up to the last one that is not zero. -/
theorem emit_neg {e : ℤ} (he : e < 0) (R : List ℕ) : emit e R = chars (trim R) := by
  induction R generalizing e with
  | nil => simp [emit, he.le, trim, chars]
  | cons d R ih =>
    by_cases hz : ∀ x ∈ d :: R, x = 0
    · rw [emit_zeros he hz, trim_of_zeros hz]
      rfl
    · rw [emit, if_neg (by omega), if_neg (fun h => hz h.2), trim_cons_of_ne hz, ih (by omega)]
      rfl

/-- Digits around the decimal point: the integer part is filled up with zeros, the fraction is trimmed. -/
theorem emit_nonneg (k : ℕ) (R : List ℕ) : emit k R = decText (R.take k ++ List.replicate (k - R.length) 0) (trim (R.drop k)) := by
  induction R generalizing k with
  | nil => simp [emit, decText, trim, chars_replicate]
  | cons d R ih =>
    cases k with
    | zero =>
      by_cases hz : ∀ x ∈ d :: R, x = 0
      · rw [emit, if_pos hz, List.drop_zero, trim_of_zeros hz]
        simp [decText, chars]
      · rw [emit, if_neg hz, List.drop_zero, trim_cons_of_ne hz, emit_neg (by simp)]
        simp [decText, chars]
    | succ k =>
      have hk : ((k + 1 : ℕ) : ℤ) - 1 = k := by omega
      rw [emit, if_neg (by omega), hk, ih]
      simp [decText, chars]

end NumberToStringAux

open NumberToStringAux

/-- The text of digits with a decimal exponent that is not negative. -/
theorem textOf_nonneg {R : List ℕ} (hR : Digits 10 R) (hlead : ∃ d t, R = d :: t ∧ d ≠ 0) (k : ℕ) :
    TextOf (frac 10 R * 10 ^ k) (R.take k ++ List.replicate (k - R.length) 0) (trim (R.drop k)) := by
  obtain ⟨d, t, hds, hd⟩ := hlead
  have hparts := digits_append.mp ((List.take_append_drop k R).symm ▸ hR)
  have hlen : (R.take k ++ List.replicate (k - R.length) 0).length = k := by
    simp only [List.length_append, List.length_take, List.length_replicate]
    omega
  refine ⟨digits_append.mpr ⟨hparts.1, ?_⟩, hparts.2.trim, ?_, trim_trimmed _, ?_, ?_⟩
  · intro x hx
    rw [List.eq_of_mem_replicate hx]
    norm_num
  · cases k with
    | zero => simp
    | succ k => simpa [hds] using hd
  · cases k with
    | zero =>
      refine Or.inr ?_
      rw [List.drop_zero, hds, trim_cons_of_ne fun h => hd (h d (by simp))]
      simp
    | succ k => exact Or.inl (by simp [hds])
  · rw [hlen]
    congr 1
    rcases le_or_gt R.length k with h | h
    · rw [List.drop_eq_nil_of_le h, List.take_of_length_le h]
      simp [frac_append, trim]
    · rw [Nat.sub_eq_zero_of_le h.le, List.replicate_zero, List.append_nil, frac_append, frac_trim, ← frac_append, List.take_append_drop]

/-- The text of digits with a negative decimal exponent, behind the zeros it makes. -/
theorem textOf_neg {R : List ℕ} (hR : Digits 10 R) (hlead : ∃ d t, R = d :: t ∧ d ≠ 0) (k : ℕ) :
    TextOf (frac 10 R * 10 ^ (-(k : ℤ))) [] (List.replicate k 0 ++ trim R) := by
  obtain ⟨d, t, hds, hd⟩ := hlead
  have hne : trim R ≠ [] := by
    rw [hds, trim_cons_of_ne fun h => hd (h d (by simp))]
    simp
  refine ⟨by simp, digits_append.mpr ⟨?_, hR.trim⟩, by simp, (trim_trimmed R).append hne _, Or.inr (by simp [hne]), ?_⟩
  · intro x hx
    rw [List.eq_of_mem_replicate hx]
    norm_num
  · rw [List.nil_append, List.length_nil, pow_zero, mul_one, frac_append, frac_replicate_zero, zero_add, frac_trim,
      List.length_replicate, zpow_neg, zpow_natCast, div_eq_mul_inv, Nat.cast_ofNat]

/-- `n2s` writes the canonical text of the number, behind a minus sign if it is negative. -/
theorem n2sStr_text (v : Mval) (hv : v.MantValid) (hne : v.numVal ≠ 0) :
    ∃ is fs, n2sStr v = (if v.numVal < 0 then [ascMinus] else []) ++ decText is fs ∧ TextOf |v.numVal| is fs := by
  unfold Mval.MantValid at hv
  unfold n2sStr
  by_cases hint : v.mvtype.int = true
  · rw [if_pos hint] at hv
    have hval : v.numVal = (v.m1 : ℚ) / 1000 := by rw [Mval.numVal, if_pos hint]
    have hm1 : v.m1 ≠ 0 := by
      intro h0
      apply hne
      rw [hval, h0]
      simp
    obtain ⟨is, fs, hs, ht⟩ := n2sInt_text v.m1.natAbs (by omega) hv
    refine ⟨is, fs, ?_, ?_⟩
    · rw [if_neg hm1, if_pos hint, hs, hval]
      have hneg : ((v.m1 : ℚ) / 1000 < 0) ↔ v.m1 < 0 := by
        rw [div_lt_iff₀ (by norm_num)]
        exact_mod_cast Iff.rfl
      simp only [hneg]
    · rw [hval, abs_div, ← Int.cast_abs, ← Nat.cast_natAbs]
      exact ht
  · rw [if_neg hint] at hv
    obtain ⟨h1, h1', h0, h0'⟩ := hv
    have hm1 : v.m1 ≠ 0 := by
      simp only [mantLo] at h1
      omega
    have hlo : mantLo ≤ v.m1.toNat := by omega
    have hhi : v.m1.toNat < mantHi := by omega
    have h0hi : v.m0.toNat < mantHi := by omega
    have hm1q : (v.m1 : ℚ) = (v.m1.toNat : ℕ) := by exact_mod_cast (Int.toNat_of_nonneg (by simp only [mantLo] at h1; omega)).symm
    have hm0q : (v.m0 : ℚ) = (v.m0.toNat : ℕ) := by exact_mod_cast (Int.toNat_of_nonneg h0).symm
    generalize v.m1.toNat = a at *
    generalize v.m0.toNat = b at *
    obtain ⟨hd, hf⟩ := mantDigits_form a b hhi h0hi
    have hpos : 0 < frac 10 (mantDigits a b) := by
      have : 0 < a := lt_of_lt_of_le (by decide) hlo
      rw [hf]
      positivity
    have hlead : ∃ d t, mantDigits a b = d :: t ∧ d ≠ 0 := by
      refine ⟨a / mantLo, _, rfl, ?_⟩
      simp only [mantLo] at *
      omega
    have hval : v.numVal = (if v.sgn then -1 else 1) * (frac 10 (mantDigits a b) * 10 ^ ((v.e : ℤ) - mvXbias)) := by
      rw [Mval.numVal, if_neg hint, hf, hm1q, hm0q]
      push_cast
      ring
    have hzpos : (0 : ℚ) < frac 10 (mantDigits a b) * 10 ^ ((v.e : ℤ) - mvXbias) := by positivity
    have habs : |v.numVal| = frac 10 (mantDigits a b) * 10 ^ ((v.e : ℤ) - mvXbias) := by
      rw [hval]
      cases v.sgn <;> simp [abs_of_pos hzpos]
    have hneg : v.numVal < 0 ↔ v.sgn = true := by
      rw [hval]
      cases v.sgn
      · simp [hzpos.le]
      · simpa using hzpos
    rw [if_neg hm1, if_neg hint, habs]
    simp only [hneg]
    unfold n2sApprox
    simp only
    generalize ((v.e : ℤ) - mvXbias) = e at *
    have hane : a ≠ 0 := by
      simp only [mantLo] at hlo
      omega
    by_cases hexp : e < 0
    · obtain ⟨k, rfl⟩ : ∃ k : ℕ, e = -k := ⟨e.natAbs, by omega⟩
      refine ⟨[], List.replicate k 0 ++ trim (mantDigits a b), ?_, textOf_neg hd hlead k⟩
      have hne' : List.replicate k 0 ++ trim (mantDigits a b) ≠ [] := ((textOf_neg hd hlead k).ne_nil).resolve_left (by simp)
      rw [if_pos hexp, n2sDigits_emit _ _ _ _ hhi h0hi hane, emit_neg hexp, decText, if_neg hne', chars_append, chars_replicate,
        Int.natAbs_neg, Int.natAbs_natCast]
      simp [chars]
    · obtain ⟨k, rfl⟩ : ∃ k : ℕ, e = k := ⟨e.toNat, by omega⟩
      refine ⟨_, _, ?_, textOf_nonneg hd hlead k⟩
      rw [if_neg hexp, n2sDigits_emit _ _ _ _ hhi h0hi hane, emit_nonneg]

end Gtm
