import Gtm.Lemmas.NumberStore

/-!
# Canonical numbers

A number has one canonical form: two canonical mvals with one value are the same. `s2n` gives canonical mvals, the strings of `n2s`
are those `val_iscan` accepts, and on canonical mvals the comparisons are those of the values.
-/

namespace Gtm

open Positional Truncation NumberRoundTripAux NumberStoreAux DecimalTextAux StringToNumberAux

/-- The numeric parts of two mvals are the same. -/
structure SameNumber (a b : Mval) : Prop where
  int : a.mvtype.int = b.mvtype.int
  m1 : a.m1 = b.m1
  rest : b.mvtype.int = false → a.sgn = b.sgn ∧ a.e = b.e ∧ a.m0 = b.m0

namespace NumberCanonicalAux

/-! ## Text that `val_iscan` accepts -/

theorem zeroTail_zeros (s : List UInt8) (z n : ℕ) : zeroTail (s ++ List.replicate n ascZero) z = zeroTail s z + n := by
  induction n with
  | zero => simp
  | succ n ih =>
    rw [List.replicate_succ', ← List.append_assoc, zeroTail_concat, if_pos rfl]
    omega

theorem zeroTail_trimmed {ds : List ℕ} (hd : Digits 10 ds) (ht : Trimmed ds) (hne : ds ≠ []) (z : ℕ) : zeroTail (chars ds) z = 0 := by
  obtain ⟨t, d, rfl⟩ := List.eq_nil_or_concat ds |>.resolve_left hne
  have hlt : d < 10 := hd d (by simp)
  have hd0 : d ≠ 0 := by simpa [Trimmed] using ht
  rw [List.concat_eq_append, chars_append]
  change zeroTail (chars t ++ [digitChar d]) z = 0
  rw [zeroTail_concat, if_neg fun h => hd0 ((digitChar_eq_zero_iff hlt).mp h)]

/-- A run of digits that ends the string. -/
theorem iscanDigits_chars {ds : List ℕ} (hd : Digits 10 ds) (z n : ℕ) :
    iscanDigits (chars ds) z n = ([], zeroTail (chars ds) z, n + ds.length) := by
  have h := takeWhile_chars hd [] (by simp)
  rw [List.append_nil] at h
  have hdrop : (chars ds).dropWhile isDigit = [] := by
    have := List.takeWhile_append_dropWhile (p := isDigit) (l := chars ds)
    rw [h] at this
    simpa using this
  rw [iscanDigits_eq, h, hdrop, chars, List.length_map]

/-- A run of digits in front of the decimal point. -/
theorem iscanDigits_point {ds : List ℕ} (hd : Digits 10 ds) (t : List UInt8) (z n : ℕ) :
    iscanDigits (chars ds ++ ascDot :: t) z n = (ascDot :: t, zeroTail (chars ds) z, n + ds.length) := by
  have h := takeWhile_chars hd (ascDot :: t) (by rintro c ⟨⟩; decide)
  have hdrop : (chars ds ++ ascDot :: t).dropWhile isDigit = ascDot :: t := by
    have := List.takeWhile_append_dropWhile (p := isDigit) (l := chars ds ++ ascDot :: t)
    rw [h] at this
    exact List.append_cancel_left this
  rw [iscanDigits_eq, h, hdrop, chars, List.length_map]

/-- The scan behind the sign reads canonical text to its end. -/
theorem iscanBody_decBody {e : ℤ} {ds : List ℕ} (h : Canonic e ds) :
    ∃ dot, iscanBody (decBody e ds) = some ([], dot, ds.length, e) ∧ (dot = true → e < ds.length) := by
  obtain ⟨d, t, hds, hd0⟩ := h.lead
  have hlt : d < 10 := h.digits d (by simp [hds])
  have hlen := List.length_pos_iff.mpr h.ne_nil
  have hlead : digitChar d ≤ ascNine ∧ ascZero < digitChar d := by
    have hne : digitChar d ≠ ascZero := fun hz => hd0 ((digitChar_eq_zero_iff hlt).mp hz)
    have hdig := isDigit_digitChar hlt
    simp only [isDigit, Bool.and_eq_true, decide_eq_true_eq] at hdig
    exact ⟨hdig.2, lt_of_le_of_ne hdig.1 (Ne.symm hne)⟩
  rcases decBody_cases e ds with ⟨k, rfl, hb⟩ | ⟨k, hk, rfl, hkl, hb⟩ | ⟨k, hk, rfl, hkl, hb⟩
  · have hstart : (chars ds).head? ≠ some ascZero := by
      rw [hds]
      simpa [chars] using fun hz => hd0 ((digitChar_eq_zero_iff hlt).mp hz)
    refine ⟨true, ?_, fun _ => by omega⟩
    rw [hb, chars_append, chars_replicate]
    have hskip := skipZeros_replicate k (chars ds) hstart 0
    have hnot : ¬ (ascDot ≤ ascNine ∧ ascZero < ascDot) := by decide
    unfold iscanBody
    simp only [if_neg hnot, if_true, hskip, iscanDigits_chars h.digits, zero_add]
  · have hall : Digits 10 (ds ++ List.replicate (k - ds.length) 0) := digits_append.mpr ⟨h.digits, digits_replicate _⟩
    refine ⟨false, ?_, fun hf => by cases hf⟩
    have hcons : decBody (k : ℤ) ds = digitChar d :: chars (t ++ List.replicate (k - ds.length) 0) := by
      rw [hb, hds]
      rfl
    have hrun : iscanDigits (decBody (k : ℤ) ds) 0 0 = ([], k - ds.length, k) := by
      rw [hb, iscanDigits_chars hall, chars_append, chars_replicate, zeroTail_zeros, zeroTail_trimmed h.digits h.trimmed h.ne_nil,
        List.length_append, List.length_replicate]
      simp only [zero_add, Nat.add_sub_cancel' hkl]
    rw [hcons] at hrun ⊢
    unfold iscanBody
    simp only [if_pos hlead, hrun]
    rw [show k - (k - ds.length) = ds.length by omega]
  · have hsplit := digits_append.mp ((List.take_append_drop k ds).symm ▸ h.digits)
    have hdrop : ds.drop k ≠ [] := by simp; omega
    have htrim : Trimmed (ds.drop k) := by
      have ht := h.trimmed
      unfold Trimmed at ht ⊢
      rw [← List.take_append_drop k ds, List.getLast?_append_of_ne_nil _ hdrop] at ht
      exact ht
    refine ⟨true, ?_, fun _ => by omega⟩
    have hcons : decBody (k : ℤ) ds = digitChar d :: (chars (t.take (k - 1)) ++ ascDot :: chars (ds.drop k)) := by
      obtain ⟨j, rfl⟩ := Nat.exists_eq_succ_of_ne_zero hk.ne'
      rw [hb]
      conv_lhs => rw [hds]
      simp [chars, hds]
    have hrun : iscanDigits (decBody (k : ℤ) ds) 0 0 = (ascDot :: chars (ds.drop k), zeroTail (chars (ds.take k)) 0, k) := by
      rw [hb, iscanDigits_point hsplit.1, zero_add, List.length_take, Nat.min_eq_left hkl.le]
    rw [hcons] at hrun ⊢
    unfold iscanBody
    simp only [if_pos hlead, hrun]
    rw [if_pos trivial, iscanDigits_chars hsplit.2, zeroTail_trimmed hsplit.2 htrim hdrop, List.length_drop]
    simp only [Nat.sub_zero, Nat.add_sub_cancel' hkl.le]

/-- `val_iscan` accepts canonical text. -/
theorem valIscanStr_decStr {e : ℤ} {ds : List ℕ} (h : Canonic e ds) (neg : Bool) : valIscanStr (decStr neg e ds) = true := by
  obtain ⟨c, t, hbody, hc0, hcm, -⟩ := h.decimal.body_head e
  obtain ⟨dot, hscan, hdot⟩ := iscanBody_decBody h
  have hlast : dot = true → (decStr neg e ds).getLast? ≠ some ascZero ∧ (decStr neg e ds).getLast? ≠ some ascDot :=
    fun hd => decStr_getLast? h.decimal neg (hdot hd)
  have hsig := h.length_le
  have hlo := h.exp_lo
  have hhi := h.exp_hi
  obtain ⟨c', r, hs, hstrip⟩ : ∃ c' r, decStr neg e ds = c' :: r ∧ (if c' = ascMinus then r else c' :: r) = decBody e ds := by
    cases neg with
    | true => exact ⟨ascMinus, decBody e ds, rfl, if_pos rfl⟩
    | false => exact ⟨c, t, hbody, by rw [if_neg hcm, hbody]⟩
  have hne : (decStr neg e ds).length ≠ 0 ∧ decStr neg e ds ≠ [ascZero] := by
    rw [decStr, hbody]
    cases neg with
    | true => exact ⟨by simp, by simp⟩
    | false => exact ⟨by simp, by simp [hc0]⟩
  have hend : (dot && (decide ((decStr neg e ds).getLast? = some ascZero) || decide ((decStr neg e ds).getLast? = some ascDot))) = false := by
    cases dot with
    | false => rfl
    | true => simp [hlast rfl]
  unfold valIscanStr
  rw [if_neg hne.1, if_neg hne.2]
  rw [hs] at hend ⊢
  simp only [hstrip, hscan, hend]
  simp only [ne_eq, not_true_eq_false, decide_false, Bool.false_or, Bool.not_eq_true', Bool.or_eq_false_iff,
    decide_eq_false_iff_not, not_lt, not_le]
  exact ⟨⟨hsig, hlo⟩, hhi⟩

/-! ## What `s2n` stores -/

/-- A mantissa that is not stored as an `MV_INT` does not fit one, when all the zeros its high word ends in were counted. -/
theorem s2nStore_canonical {u v : Mval} {m1 m0 k i sign : ℕ} {x : ℤ} {approx : Bool}
    (h : s2nStore u m1 m0 k i sign x approx = .ok v) (hu : u.mvtype.int = false) (h1 : m1 * tenPwr k < mantHi) (h0 : m0 < mantHi)
    (hl : m1 = 0 ∨ mantLo ≤ m1 * tenPwr k) (hz : m1 ≠ 0 → ¬ 10 ^ (i + 1) ∣ m1) : v.Canonical := by
  have hvalid := s2nStore_valid h hu h1 h0 hl
  unfold s2nStore at h
  simp only at h
  split at h
  · cases h
    exact Mval.Number.canonical_of_int ⟨rfl, hvalid⟩ rfl
  · next hint =>
    split at h
    · cases h
      exact Mval.Number.canonical_of_int ⟨rfl, hvalid⟩ rfl
    · next hlow =>
      split at h
      · cases h
      · next hhigh =>
        rw [not_or] at hlow
        cases h
        obtain ⟨r, hr⟩ : ∃ r : Mval, r = { u with
              mvtype := { u.mvtype with nm := true, numApprox := u.mvtype.numApprox || approx }, e := (x + mvXbias).toNat,
              sgn := decide (sign % 2 = 1), m1 := ((m1 * tenPwr k : ℕ) : ℤ), m0 := (m0 : ℤ) } := ⟨_, rfl⟩
        rw [← hr] at hvalid ⊢
        have hnum : r.Number := ⟨by rw [hr], hvalid⟩
        have hri : r.mvtype.int = false := by rw [hr]; exact hu
        refine ⟨hnum, fun hfit => absurd ?_ hint⟩
        rw [numVal_mant hri, fitsInt_words (hnum.normal hri)] at hfit
        obtain ⟨hhi, hlo, hw0, hdvd⟩ := hfit
        have he : (r.e : ℤ) = x + mvXbias := by
          have : r.e = (x + mvXbias).toNat := by rw [hr]
          omega
        have hm0 : (m0 : ℤ) = 0 := by
          have : r.mant.m0 = m0 := by rw [hr]; rfl
          rw [← this]
          exact hw0
        have hm1 : r.mant.m1 = ((m1 * tenPwr k : ℕ) : ℤ) := by rw [hr]; rfl
        rw [he] at hhi hlo hdvd
        simp only [expIntOverf, expIntUnderf, mvXbias] at hhi hlo hdvd
        refine ⟨by exact_mod_cast hm0, by omega, ?_⟩
        by_contra hneg
        rw [hm1] at hdvd
        have hdvd' : tenPwr (7 + ((62 : ℕ) : ℤ) - 1 - (x + ((62 : ℕ) : ℤ))).toNat ∣ m1 * tenPwr k := by exact_mod_cast hdvd
        obtain ⟨j, hj⟩ : ∃ j, (7 + ((62 : ℕ) : ℤ) - 1 - (x + ((62 : ℕ) : ℤ))).toNat = j + (i + 1) + k := ⟨_, by
          rw [show (7 + ((62 : ℕ) : ℤ) - 1 - (x + ((62 : ℕ) : ℤ))).toNat = ((6 - x).toNat - (i + 1) - k) + (i + 1) + k by omega]⟩
        rw [hj] at hdvd'
        simp only [tenPwr] at hdvd' hlow
        rw [pow_add, pow_add] at hdvd'
        have hshort := Nat.dvd_of_mul_dvd_mul_right (by positivity) hdvd'
        have hne : m1 ≠ 0 := by
          rintro rfl
          exact hlow.2 (zero_mul _)
        exact hz hne (dvd_trans (Dvd.intro_left _ rfl) hshort)

end NumberCanonicalAux

open NumberCanonicalAux

/-- The number `s2n` gives is canonical. -/
theorem s2n_canonical {u : Mval} {r : S2nResult} (h : s2n u = .ok r) (hu : u.mvtype.int = false) : r.mval.Canonical := by
  rcases s2n_stored h with ⟨m1, m0, k, i, sign, x, approx, hst, h1, h0, hl, hz⟩ | ⟨hint, hnm, hm⟩
  · exact s2nStore_canonical hst hu h1 h0 hl hz
  · exact Mval.Number.canonical_of_int ⟨hnm, by simp [Mval.NumValid, mantHi, hint, hm]⟩ hint

namespace NumberCanonicalAux

/-! ## One form for each value -/

/-- Numbers in extended precision with one value have the same words. -/
theorem sameNumber_mant {a b : Mval} (ha : a.mant.Normal) (hb : b.mant.Normal) (hai : a.mvtype.int = false) (hbi : b.mvtype.int = false)
    (h : a.numVal = b.numVal) : a.sgn = b.sgn ∧ a.e = b.e ∧ a.m1 = b.m1 ∧ a.m0 = b.m0 := by
  have hea : expOf 10 a.numVal = (a.e : ℤ) - mvXbias := by
    rw [numVal_mant hai]
    exact expOf_mant ha _ _
  have heb : expOf 10 b.numVal = (b.e : ℤ) - mvXbias := by
    rw [numVal_mant hbi]
    exact expOf_mant hb _ _
  have he : a.e = b.e := by
    rw [h] at hea
    omega
  have hlo := ha.lo
  have hlo' := hb.lo
  have hpow : (0 : ℚ) < 10 ^ ((b.e : ℤ) - mvXbias - 18) := by positivity
  have hpa : (0 : ℚ) < a.mant.val := by exact_mod_cast (by omega : 0 < a.mant.val)
  have hpb : (0 : ℚ) < b.mant.val := by exact_mod_cast (by omega : 0 < b.mant.val)
  rw [numVal_mant hai, numVal_mant hbi, he] at h
  have habs := congrArg abs h
  rw [abs_signed, abs_signed, abs_of_pos (mul_pos hpa hpow), abs_of_pos (mul_pos hpb hpow)] at habs
  have hval : a.mant.val = b.mant.val := by exact_mod_cast mul_right_cancel₀ hpow.ne' habs
  have hsgn : a.sgn = b.sgn := by
    have hpos := mul_pos hpb hpow
    cases hsa : a.sgn <;> cases hsb : b.sgn
    · rfl
    · rw [hsa, hsb, signed_false, signed_true] at h
      linarith
    · rw [hsa, hsb, signed_false, signed_true] at h
      linarith
    · rfl
  obtain ⟨⟨-, -, h0, h0'⟩, -⟩ := ha
  obtain ⟨⟨-, -, k0, k0'⟩, -⟩ := hb
  unfold Mantissa.val at hval
  simp only [Mval.mant] at *
  exact ⟨hsgn, he, by omega, by omega⟩

end NumberCanonicalAux

/-- Two canonical numbers with one value are the same. -/
theorem Mval.Canonical.same {a b : Mval} (ha : a.Canonical) (hb : b.Canonical) (h : a.numVal = b.numVal) : SameNumber a b := by
  have hint : a.mvtype.int = b.mvtype.int := by
    rw [Bool.eq_iff_iff, ha.int_iff, hb.int_iff, h]
  cases hi : b.mvtype.int with
  | true =>
    rw [hi] at hint
    rw [numVal_int hint, numVal_int hi, div_left_inj' (by norm_num)] at h
    exact ⟨hint.trans hi.symm, by exact_mod_cast h, fun hf => by rw [hi] at hf; cases hf⟩
  | false =>
    rw [hi] at hint
    obtain ⟨hs, he, h1, h0⟩ := sameNumber_mant (ha.toNumber.normal hint) (hb.toNumber.normal hi) hint hi h
    exact ⟨hint.trans hi.symm, h1, fun _ => ⟨hs, he, h0⟩⟩

theorem SameNumber.numVal_eq {a b : Mval} (h : SameNumber a b) : a.numVal = b.numVal := by
  unfold Mval.numVal
  rw [h.int, h.m1]
  cases hi : b.mvtype.int with
  | true => rfl
  | false =>
    obtain ⟨hs, he, h0⟩ := h.rest hi
    rw [hs, he, h0]

end Gtm
