import Gtm.Key.Collating

/-!
# The digit pairs of a number

Statements about the digit loops of `mval2subsc`: whichever branch encodes a number, the exponent and the digit pairs it emits
are the normal form of the magnitude in base 100.
-/

namespace Gtm

open Positional

namespace NumberFormAux

theorem finishIntegers_digits (fuel mt : ℕ) (tm : List ℕ) (h : Digits 100 tm) : Digits 100 (finishIntegers fuel mt tm) := by
  induction fuel generalizing mt tm with
  | zero => exact h
  | succ fuel ih =>
    unfold finishIntegers
    split
    · exact ih _ _ (digits_cons.mpr ⟨Nat.mod_lt _ (by norm_num), h⟩)
    · exact h

theorem finishIntegers_trimmed (fuel mt : ℕ) (tm : List ℕ) (hne : tm ≠ []) (h : Trimmed tm) : Trimmed (finishIntegers fuel mt tm) := by
  induction fuel generalizing mt tm with
  | zero => exact h
  | succ fuel ih =>
    unfold finishIntegers
    split
    · exact ih _ _ (by simp) (h.append hne [mt % 100])
    · exact h

theorem finishIntegers_zero (fuel : ℕ) (tm : List ℕ) : finishIntegers fuel 0 tm = tm := by
  cases fuel <;> simp [finishIntegers]

/-- The pairs of an integer with `j + 1` of them, in front of what was pushed before. -/
theorem finishIntegers_frac (fuel j mt : ℕ) (tm : List ℕ) (hj : j < fuel) (hlo : 100 ^ j ≤ mt) (hhi : mt < 100 ^ (j + 1)) :
    frac 100 (finishIntegers fuel mt tm) = (mt + frac 100 tm) / 100 ^ (j + 1) := by
  induction fuel generalizing j mt tm with
  | zero => omega
  | succ fuel ih =>
    have hsplit : (mt : ℚ) = 100 * (mt / 100 : ℕ) + (mt % 100 : ℕ) := by exact_mod_cast (Nat.div_add_mod mt 100).symm
    unfold finishIntegers
    rw [if_pos (by omega)]
    cases j with
    | zero =>
      have hq : mt / 100 = 0 := by omega
      rw [hq, finishIntegers_zero, hsplit, hq]
      simp
    | succ j =>
      have hlo' : 100 ^ j ≤ mt / 100 := by
        rw [Nat.le_div_iff_mul_le (by norm_num)]
        calc 100 ^ j * 100 = 100 ^ (j + 1) := by ring
          _ ≤ mt := hlo
      have hhi' : mt / 100 < 100 ^ (j + 1) := by
        rw [Nat.div_lt_iff_lt_mul (by norm_num)]
        calc mt < 100 ^ (j + 1 + 1) := hhi
          _ = 100 ^ (j + 1) * 100 := by ring
      rw [ih j _ _ (by omega) hlo' hhi', frac_cons, hsplit]
      field_simp
      ring

/-- The pairs of an integer without its trailing pairs of zeros. -/
theorem keepStriping_form (fuel j mt : ℕ) (hj : j < fuel) (hlo : 100 ^ j ≤ mt) (hhi : mt < 100 ^ (j + 1)) :
    Digits 100 (keepStriping fuel mt) ∧ Trimmed (keepStriping fuel mt) ∧ frac 100 (keepStriping fuel mt) = mt / 100 ^ (j + 1) := by
  induction fuel generalizing j mt with
  | zero => omega
  | succ fuel ih =>
    have hsplit : (mt : ℚ) = 100 * (mt / 100 : ℕ) + (mt % 100 : ℕ) := by exact_mod_cast (Nat.div_add_mod mt 100).symm
    unfold keepStriping
    rw [if_pos (by omega)]
    have hdiv : ∀ i, j = i + 1 → 100 ^ i ≤ mt / 100 ∧ mt / 100 < 100 ^ (i + 1) := by
      rintro i rfl
      exact ⟨by rw [pow_succ] at hlo; omega, by rw [pow_succ] at hhi; omega⟩
    split
    · rename_i hm
      refine ⟨finishIntegers_digits _ _ _ (by simpa using Nat.mod_lt _ (by norm_num)),
        finishIntegers_trimmed _ _ _ (by simp) (trimmed_singleton.mpr hm), ?_⟩
      cases j with
      | zero =>
        have hq : mt / 100 = 0 := by omega
        rw [hq, finishIntegers_zero, hsplit, hq]
        simp
      | succ i =>
        obtain ⟨h1, h2⟩ := hdiv i rfl
        rw [finishIntegers_frac fuel i _ _ (by omega) h1 h2, frac_cons, hsplit, pow_succ _ (i + 1)]
        push_cast
        field_simp
        simp
    · rename_i hm
      have hm0 : mt % 100 = 0 := by omega
      cases j with
      | zero => omega
      | succ i =>
        obtain ⟨h1, h2⟩ := hdiv i rfl
        obtain ⟨hd, ht, hf⟩ := ih i _ (by omega) h1 h2
        refine ⟨hd, ht, ?_⟩
        rw [hf, hsplit, hm0, pow_succ _ (i + 1)]
        field_simp
        simp

/-- `ODD_INTEGER` on a number with `2 j + 3` digits. -/
theorem oddInteger_form (j mt : ℕ) (hj : j + 1 < tempMantissaSz) (hlo : 100 ^ (j + 1) ≤ mt) (hhi : mt < 10 * 100 ^ (j + 1)) :
    Digits 100 (oddInteger mt) ∧ Trimmed (oddInteger mt) ∧ frac 100 (oddInteger mt) = mt / 10 ^ (2 * j + 3) := by
  have hsplit : (mt : ℚ) = 10 * (mt / 10 : ℕ) + (mt % 10 : ℕ) := by exact_mod_cast (Nat.div_add_mod mt 10).symm
  have h1 : 100 ^ j ≤ mt / 10 := by rw [pow_succ] at hlo; omega
  have h2 : mt / 10 < 100 ^ (j + 1) := by omega
  have hp : (10 : ℚ) ^ (2 * j + 3) = 10 * 100 ^ (j + 1) := by
    rw [show (100 : ℚ) = 10 ^ 2 by norm_num, ← pow_mul]
    ring
  unfold oddInteger
  split
  · rename_i hm
    refine ⟨finishIntegers_digits _ _ _ (by simp; omega), finishIntegers_trimmed _ _ _ (by simp) (trimmed_singleton.mpr (by omega)), ?_⟩
    rw [finishIntegers_frac _ j _ _ (by omega) h1 h2, hsplit, hp]
    field_simp
    simp
    ring
  · rename_i hm
    have hm0 : mt % 10 = 0 := by omega
    obtain ⟨hd, ht, hf⟩ := keepStriping_form tempMantissaSz j _ (by omega) h1 h2
    refine ⟨hd, ht, ?_⟩
    rw [hf, hsplit, hm0, hp]
    field_simp
    simp

/-- `EVEN_INTEGER` on a number with `2 j + 2` digits. -/
theorem evenInteger_form (j mt : ℕ) (hj : j < tempMantissaSz) (hlo : 100 ^ j ≤ mt) (hhi : mt < 100 ^ (j + 1)) :
    Digits 100 (keepStriping tempMantissaSz mt) ∧ Trimmed (keepStriping tempMantissaSz mt) ∧
      frac 100 (keepStriping tempMantissaSz mt) = mt / 10 ^ (2 * j + 2) := by
  obtain ⟨hd, ht, hf⟩ := keepStriping_form tempMantissaSz j mt hj hlo hhi
  refine ⟨hd, ht, ?_⟩
  rw [hf, show (100 : ℚ) = 10 ^ 2 by norm_num, ← pow_mul]
  ring_nf

/-- The shared end of the integer cases: `d` digits make the exponent byte `SUBSCRIPT_BIAS + d - 3`. -/
theorem normal_of_digits {ps : List ℕ} {mt d : ℕ} (h : Digits 100 ps ∧ Trimmed ps ∧ frac 100 ps = mt / 10 ^ d)
    (hlo : 10 ^ d ≤ 10 * mt) : Normal 100 ((d : ℤ) - 3) ps (mt / 1000) where
  digits := h.1
  trimmed := h.2.1
  lead := by
    have hlo' : (10 : ℚ) ^ d ≤ 10 * mt := by exact_mod_cast hlo
    rw [h.2.2, le_div_iff₀ (by positivity)]
    linarith
  value := by
    rw [h.2.2, zpow_sub₀ (by norm_num), zpow_natCast]
    field_simp
    norm_num


/-! ## The mantissa loops -/

theorem topPair_lt {mt : ℕ} (h : mt < mantHi) : (topPair mt).1 < 100 ∧ (topPair mt).2 < mantHi := by
  unfold mantHi at h
  simp only [topPair, mantHi]
  omega

theorem topPair_eq (mt : ℕ) : mt * 100 = (topPair mt).1 * mantHi + (topPair mt).2 := by
  simp only [topPair, mantHi]
  omega

/-- A word is its top pair followed by what is left of it. -/
theorem topPair_frac (mt : ℕ) : (mt : ℚ) / mantHi = ((topPair mt).1 + ((topPair mt).2 : ℚ) / mantHi) / 100 := by
  have h : (mt : ℚ) * 100 = (topPair mt).1 * mantHi + (topPair mt).2 := by exact_mod_cast topPair_eq mt
  simp only [mantHi, Nat.cast_ofNat] at h ⊢
  linarith

/-- Stripping a pair keeps the distance to a word of zeros. -/
theorem topPair_dvd {mt n : ℕ} (h : mantHi ∣ mt * 100 ^ (n + 1)) : mantHi ∣ (topPair mt).2 * 100 ^ n := by
  have heq : mt * 100 ^ (n + 1) = mantHi * ((topPair mt).1 * 100 ^ n) + (topPair mt).2 * 100 ^ n := by
    calc mt * 100 ^ (n + 1) = mt * 100 * 100 ^ n := by ring
      _ = ((topPair mt).1 * mantHi + (topPair mt).2) * 100 ^ n := by rw [← topPair_eq mt]
      _ = _ := by ring
  rw [heq] at h
  exact (Nat.dvd_add_right (Dvd.intro _ rfl)).mp h

theorem eq_zero_of_mantHi_dvd {mt : ℕ} (hlt : mt < mantHi) (h : mantHi ∣ mt * 100 ^ 0) : mt = 0 :=
  Nat.eq_zero_of_dvd_of_lt (by simpa using h) hlt

/-- `LAST_LONGWORD` emits all of a word that `fuel` pairs exhaust, and no trailing zero pair. -/
theorem lastLongword_form (fuel mt : ℕ) (hlt : mt < mantHi) (h : mantHi ∣ mt * 100 ^ fuel) :
    Digits 100 (lastLongword fuel mt) ∧ Trimmed (lastLongword fuel mt) ∧ frac 100 (lastLongword fuel mt) = mt / mantHi := by
  induction fuel generalizing mt with
  | zero => simp [lastLongword, eq_zero_of_mantHi_dvd hlt h]
  | succ fuel ih =>
    unfold lastLongword
    split
    · rename_i hmt
      obtain ⟨hp, hr⟩ := topPair_lt hlt
      obtain ⟨hd, ht, hf⟩ := ih _ hr (topPair_dvd h)
      refine ⟨digits_cons.mpr ⟨hp, hd⟩, ?_, by rw [frac_cons, hf, topPair_frac mt]; norm_num⟩
      by_cases hnil : lastLongword fuel (topPair mt).2 = []
      · rw [hnil, trimmed_singleton]
        intro h0
        rw [hnil] at hf
        have hr0 : (topPair mt).2 = 0 := by
          have hz : ((topPair mt).2 : ℚ) / mantHi = 0 := by rw [← hf]; rfl
          have hm : (mantHi : ℚ) ≠ 0 := by norm_num [mantHi]
          rw [div_eq_zero_iff] at hz
          exact_mod_cast hz.resolve_right hm
        have := topPair_eq mt
        rw [h0] at this
        omega
      · exact ht.append hnil [(topPair mt).1]
    · rename_i hmt
      have hmt0 : mt = 0 := by omega
      simp [hmt0]

/-- Stripping `n` pairs from a word that they exhaust. -/
theorem stripPairs_form (n mt : ℕ) (es : List ℕ) (hlt : mt < mantHi) (h : mantHi ∣ mt * 100 ^ n) :
    Digits 100 (stripPairs n mt) ∧ frac 100 (stripPairs n mt ++ es) = mt / mantHi + frac 100 es / 100 ^ n := by
  induction n generalizing mt with
  | zero => simp [stripPairs, eq_zero_of_mantHi_dvd hlt h]
  | succ n ih =>
    obtain ⟨hp, hr⟩ := topPair_lt hlt
    obtain ⟨hd, hf⟩ := ih _ hr (topPair_dvd h)
    refine ⟨digits_cons.mpr ⟨hp, hd⟩, ?_⟩
    rw [stripPairs, List.cons_append, frac_cons, hf, topPair_frac mt]
    ring

/-! ## How many pairs there are -/

theorem finishIntegers_length (fuel mt : ℕ) (tm : List ℕ) : (finishIntegers fuel mt tm).length ≤ fuel + tm.length := by
  induction fuel generalizing mt tm with
  | zero => simp [finishIntegers]
  | succ fuel ih =>
    unfold finishIntegers
    split
    · have := ih (mt / 100) (mt % 100 :: tm)
      rw [List.length_cons] at this
      omega
    · omega

theorem keepStriping_length (fuel mt : ℕ) : (keepStriping fuel mt).length ≤ fuel := by
  induction fuel generalizing mt with
  | zero => simp [keepStriping]
  | succ fuel ih =>
    unfold keepStriping
    split
    · split
      · exact finishIntegers_length fuel (mt / 100) [mt % 100]
      · have := ih (mt / 100)
        omega
    · simp

theorem intDigits_length (mt : ℕ) : (intDigits mt).2.length ≤ tempMantissaSz + 1 := by
  have hodd : (oddInteger mt).length ≤ tempMantissaSz + 1 := by
    unfold oddInteger
    split
    · exact finishIntegers_length _ _ _
    · exact Nat.le_succ_of_le (keepStriping_length _ _)
  have heven : (keepStriping tempMantissaSz mt).length ≤ tempMantissaSz + 1 := Nat.le_succ_of_le (keepStriping_length _ _)
  unfold intDigits
  split_ifs <;> first | exact hodd | exact heven | simp

theorem lastLongword_length (fuel mt : ℕ) : (lastLongword fuel mt).length ≤ fuel := by
  induction fuel generalizing mt with
  | zero => simp [lastLongword]
  | succ fuel ih =>
    unfold lastLongword
    split
    · exact Nat.succ_le_succ (ih _)
    · simp

theorem stripPairs_length (n mt : ℕ) : (stripPairs n mt).length = n := by
  induction n generalizing mt with
  | zero => rfl
  | succ n ih => rw [stripPairs, List.length_cons, ih]

theorem approxDigits_length (m1 m0 : ℕ) : (approxDigits m1 m0).length ≤ 10 := by
  unfold approxDigits
  simp only
  split_ifs
  · have := lastLongword_length 5 (topPair m1).2
    rw [List.length_cons]
    omega
  · have := lastLongword_length 5 ((topPair m1).2 + m0 / (mantHi / 10) * 10)
    rw [List.length_cons]
    omega
  · have := lastLongword_length 5 ((m0 - m0 / (mantHi / 10) * (mantHi / 10)) * 10)
    rw [List.length_cons, List.length_append, stripPairs_length]
    omega

/-- The digits of a mantissa are those of `m1 * 10 ^ 9 + m0`, as a fraction of `10 ^ 18`. -/
theorem approxDigits_form (m1 m0 : ℕ) (h1 : mantLo ≤ m1) (h1' : m1 < mantHi) (h0 : m0 < mantHi) :
    Digits 100 (approxDigits m1 m0) ∧ Trimmed (approxDigits m1 m0) ∧ frac 100 (approxDigits m1 m0) = (m1 * 10 ^ 9 + m0 : ℕ) / 10 ^ 18 := by
  obtain ⟨hp, hr⟩ := topPair_lt h1'
  have hfive : ∀ mt, mantHi ∣ mt * 100 ^ 5 := fun mt => Dvd.dvd.mul_left (by decide) mt
  have htop := topPair_frac m1
  have hpne : (topPair m1).1 ≠ 0 := by
    simp only [topPair, mantHi]
    simp only [mantLo] at h1
    omega
  have hcons : ∀ ds, Trimmed ds → Trimmed ((topPair m1).1 :: ds) := by
    intro ds hds
    by_cases hnil : ds = []
    · rw [hnil]
      exact trimmed_singleton.mpr hpne
    · exact hds.append hnil [(topPair m1).1]
  unfold approxDigits
  simp only
  split_ifs with hz hw
  · obtain ⟨hd, ht, hf⟩ := lastLongword_form 5 _ hr (hfive _)
    refine ⟨digits_cons.mpr ⟨hp, hd⟩, hcons _ ht, ?_⟩
    rw [frac_cons, hf]
    simp only [mantHi, Nat.cast_ofNat] at htop ⊢
    rw [← htop, hz]
    push_cast
    ring
  · have hmt : (topPair m1).2 + m0 / (mantHi / 10) * 10 < mantHi := by
      simp only [topPair, mantHi] at *
      omega
    obtain ⟨hd, ht, hf⟩ := lastLongword_form 5 _ hmt (hfive _)
    refine ⟨digits_cons.mpr ⟨hp, hd⟩, hcons _ ht, ?_⟩
    have hm0 : (m0 : ℚ) = (m0 / (mantHi / 10) : ℕ) * 10 ^ 8 := by
      have : m0 = m0 / (mantHi / 10) * 10 ^ 8 := by
        simp only [mantHi] at hw ⊢
        omega
      exact_mod_cast this
    rw [frac_cons, hf]
    push_cast
    rw [hm0]
    simp only [mantHi, Nat.cast_ofNat] at htop ⊢
    linarith
  · have hmt : (topPair m1).2 + m0 / (mantHi / 10) * 10 < mantHi := by
      simp only [topPair, mantHi] at *
      omega
    have hmw : (m0 - m0 / (mantHi / 10) * (mantHi / 10)) * 10 < mantHi := by
      simp only [mantHi] at *
      omega
    have hten : mantHi ∣ ((topPair m1).2 + m0 / (mantHi / 10) * 10) * 100 ^ 4 := by
      refine ⟨(m1 - m1 / (mantHi / 100) * (mantHi / 100)) * 10 + m0 / (mantHi / 10), ?_⟩
      simp only [topPair, mantHi]
      ring
    obtain ⟨hd, ht, hf⟩ := lastLongword_form 5 _ hmw (hfive _)
    obtain ⟨hds, hfs⟩ := stripPairs_form 4 _ (lastLongword 5 ((m0 - m0 / (mantHi / 10) * (mantHi / 10)) * 10)) hmt hten
    have hne : lastLongword 5 ((m0 - m0 / (mantHi / 10) * (mantHi / 10)) * 10) ≠ [] := by
      simp [lastLongword, hw]
    refine ⟨digits_cons.mpr ⟨hp, digits_append.mpr ⟨hds, hd⟩⟩, hcons _ (ht.append hne _), ?_⟩
    have hm0 : (m0 : ℚ) = (m0 / (mantHi / 10) : ℕ) * 10 ^ 8 + (m0 - m0 / (mantHi / 10) * (mantHi / 10) : ℕ) := by
      have : m0 = m0 / (mantHi / 10) * 10 ^ 8 + (m0 - m0 / (mantHi / 10) * (mantHi / 10)) := by
        simp only [mantHi]
        omega
      exact_mod_cast this
    generalize m0 - m0 / (mantHi / 10) * (mantHi / 10) = w at *
    rw [frac_cons, hfs, hf]
    push_cast
    rw [hm0]
    simp only [mantHi, Nat.cast_ofNat] at htop ⊢
    linarith

end NumberFormAux

open NumberFormAux

/-- The other branch emits the normal form of the magnitude with the exponent of the mval. -/
theorem approxDigits_normal (m1 m0 : ℕ) (e : ℤ) (h1 : mantLo ≤ m1) (h1' : m1 < mantHi) (h0 : m0 < mantHi) :
    Normal 100 e (approxDigits m1 m0) (((m1 * 10 ^ 9 + m0 : ℕ) : ℚ) / 10 ^ 18 * 10 ^ e) := by
  obtain ⟨hd, ht, hf⟩ := approxDigits_form m1 m0 h1 h1' h0
  refine ⟨hd, ht, ?_, by rw [hf]⟩
  have h1q : (mantLo : ℚ) ≤ m1 := by exact_mod_cast h1
  rw [hf, le_div_iff₀ (by norm_num)]
  simp only [mantLo] at h1q
  push_cast at h1q ⊢
  linarith

/-- The `MV_INT` branch emits the normal form of the magnitude: a number of `d` digits in thousandths has exponent `d - 3`. -/
theorem intDigits_normal (mt : ℕ) (hpos : 0 < mt) (hhi : mt < mantHi) :
    ∃ d : ℕ, 1 ≤ d ∧ d ≤ 9 ∧ (intDigits mt).1 + 3 = subscriptBias + d ∧ Normal 100 ((d : ℤ) - 3) (intDigits mt).2 (mt / 1000) := by
  unfold mantHi at hhi
  unfold intDigits
  split_ifs with h1 h2 h3 h4 h5 h6 h7 h8
  · have hform : Digits 100 [mt * 10] ∧ Trimmed [mt * 10] ∧ frac 100 [mt * 10] = mt / 10 ^ 1 := by
      refine ⟨by simp; omega, by simp; omega, ?_⟩
      simp
      ring
    exact ⟨1, by decide, by decide, rfl, normal_of_digits hform (by omega)⟩
  · have hform : Digits 100 [mt] ∧ Trimmed [mt] ∧ frac 100 [mt] = mt / 10 ^ 2 := by
      refine ⟨by simp; omega, by simp; omega, ?_⟩
      norm_num
    exact ⟨2, by decide, by decide, rfl, normal_of_digits hform (by omega)⟩
  · exact ⟨3, by decide, by decide, rfl, normal_of_digits (oddInteger_form 0 mt (by decide) (by omega) (by omega)) (by omega)⟩
  · exact ⟨4, by decide, by decide, rfl, normal_of_digits (evenInteger_form 1 mt (by decide) (by omega) (by omega)) (by omega)⟩
  · exact ⟨5, by decide, by decide, rfl, normal_of_digits (oddInteger_form 1 mt (by decide) (by omega) (by omega)) (by omega)⟩
  · exact ⟨6, by decide, by decide, rfl, normal_of_digits (evenInteger_form 2 mt (by decide) (by omega) (by omega)) (by omega)⟩
  · exact ⟨7, by decide, by decide, rfl, normal_of_digits (oddInteger_form 2 mt (by decide) (by omega) (by omega)) (by omega)⟩
  · exact ⟨8, by decide, by decide, rfl, normal_of_digits (evenInteger_form 3 mt (by decide) (by omega) (by omega)) (by omega)⟩
  · exact ⟨9, by decide, by decide, rfl, normal_of_digits (oddInteger_form 3 mt (by decide) (by omega) (by omega)) (by omega)⟩

end Gtm
