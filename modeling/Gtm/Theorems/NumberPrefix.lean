import Gtm.Lemmas.NumberPrefix

/-!
# The prefix `s2n` reads

`s2n` gives the number the longest text of a number in front of the string denotes, with 18 digits of the mantissa, unless it takes
another exponent: of an exponent it takes three digits, and behind a point that follows 18 digits it skips further points and digits
before it looks for one.
-/

namespace Gtm

open Positional Truncation DecimalTextAux StringToNumberAux NumberStoreAux NumberPrefixAux

/-- Two exponents lead to the same outcome for a mantissa: both are in range and the same, or both too large, or both too small. -/
def SameOutcome (m : ℚ) (x y : ℤ) : Prop :=
  m = 0 ∨ x = y ∨ ((expHi : ℤ) - mvXbias ≤ expOf 10 m + x ∧ (expHi : ℤ) - mvXbias ≤ expOf 10 m + y) ∨
    (expOf 10 m + x < (expLo : ℤ) - mvXbias ∧ expOf 10 m + y < (expLo : ℤ) - mvXbias)

namespace NumberPrefixAux

/-- The mantissa through its digits. -/
theorem mantissa_eq (t : NumText) : t.mantissa = frac 10 t.digits * 10 ^ t.place := by
  have hsplit : t.int ++ t.fraction.getD [] = List.replicate ((t.int ++ t.fraction.getD []).length - t.digits.length) 0 ++ t.digits := by
    have h := List.takeWhile_append_dropWhile (p := fun d : ℕ => decide (d = 0)) (l := t.int ++ t.fraction.getD [])
    have hzeros : (t.int ++ t.fraction.getD []).takeWhile (fun d => decide (d = 0)) =
        List.replicate ((t.int ++ t.fraction.getD []).takeWhile fun d => decide (d = 0)).length 0 :=
      List.eq_replicate_of_mem fun d hd => by simpa using List.mem_takeWhile_imp hd
    have hlen := congrArg List.length h
    rw [List.length_append] at hlen
    change _ ++ t.digits = _ at h
    change _ + t.digits.length = _ at hlen
    rw [← hlen, Nat.add_sub_cancel, ← hzeros, h]
  have hlen : t.digits.length ≤ (t.int ++ t.fraction.getD []).length := (List.dropWhile_sublist _).length_le
  have hfrac : frac 10 (t.int ++ t.fraction.getD []) =
      frac 10 t.digits / 10 ^ ((t.int ++ t.fraction.getD []).length - t.digits.length) := by
    conv_lhs => rw [hsplit, frac_append, frac_replicate_zero, zero_add, List.length_replicate]
    norm_num
  have hmant : t.mantissa = frac 10 (t.int ++ t.fraction.getD []) * 10 ^ t.int.length := by
    rw [NumText.mantissa, whole_eq (by norm_num), frac_append, Nat.cast_zero, zero_add]
    push_cast
    field_simp
  have hplace : t.place = (t.int.length : ℤ) - ((t.int ++ t.fraction.getD []).length - t.digits.length : ℕ) := by
    rw [NumText.place]
    rw [List.length_append] at hlen ⊢
    omega
  rw [hmant, hfrac, hplace, zpow_sub₀ (by norm_num), zpow_natCast, zpow_natCast]
  ring

/-- The exponent of a mantissa, and the digits of it that are kept. -/
theorem mantissa_words {t : NumText} (hne : t.digits ≠ []) : expOf 10 t.mantissa = t.place ∧ t.mantissa ≠ 0 ∧
    truncSig 10 18 t.mantissa = (⟨word1 t.digits, word2 t.digits⟩ : Mantissa).val * (10 : ℚ) ^ (t.place - 18) := by
  obtain ⟨hd, hlead⟩ := digits_spec hne
  have hw := words_normal hd hlead
  have hval : ((⟨word1 t.digits, word2 t.digits⟩ : Mantissa).val : ℚ) = (word1 t.digits * 10 ^ 9 + word2 t.digits : ℕ) := by
    simp [Mantissa.val]
  obtain ⟨hle, hlt⟩ := words_floor hd
  rw [← hval] at hle hlt
  have hlo := hw.lo
  have hhi := hw.hi
  generalize (⟨word1 t.digits, word2 t.digits⟩ : Mantissa).val = N at *
  have hp : (0 : ℚ) < 10 ^ (t.place - 18) := by positivity
  have hscale : frac 10 t.digits * 10 ^ 18 * 10 ^ (t.place - 18) = t.mantissa := by
    rw [mantissa_eq, mul_assoc]
    congr 1
    rw [zpow_sub₀ (by norm_num)]
    field_simp
  have h := truncSig_eq (B := 10) (by norm_num) (n := 18) false (q := t.mantissa) (N := N) (e := t.place) (by omega)
    (by exact_mod_cast hhi) (by rw [← hscale]; exact mul_le_mul_of_nonneg_right hle hp.le)
    (by rw [← hscale]; exact mul_lt_mul_of_pos_right hlt hp)
  refine ⟨h.1, ?_, h.2⟩
  rw [mantissa_eq]
  positivity

/-- What was stored for one exponent is what is stored for another when both are the same or out of range on the same side. -/
theorem stored_exponent {w : Mantissa} (hw : w.Normal) (neg : Bool) {x y : ℤ} {res : Except ArithErr Mval}
    (h : Stored (signed neg (w.val * (10 : ℚ) ^ (y - 18))) res) : Stored (signed neg (w.val * (10 : ℚ) ^ (x - 18))) res ↔
      x = y ∨ ((expHi : ℤ) - mvXbias ≤ x ∧ (expHi : ℤ) - mvXbias ≤ y) ∨ (x < (expLo : ℤ) - mvXbias ∧ y < (expLo : ℤ) - mvXbias) := by
  have hx := expOf_mant hw neg x
  have hy := expOf_mant hw neg y
  have hnx := mant_ne_zero hw neg (x - 18)
  have hny := mant_ne_zero hw neg (y - 18)
  generalize hqx : signed neg (w.val * (10 : ℚ) ^ (x - 18)) = p at *
  generalize hqy : signed neg (w.val * (10 : ℚ) ^ (y - 18)) = q at *
  have heq : x = y → p = q := by
    rintro rfl
    rw [← hqx, ← hqy]
  cases res with
  | error err =>
    obtain ⟨rfl, -, hhi⟩ := h
    rw [hy] at hhi
    constructor
    · rintro ⟨-, -, hhi'⟩
      rw [hx] at hhi'
      exact Or.inr (Or.inl ⟨hhi', hhi⟩)
    · rintro (rfl | h | h)
      · exact ⟨rfl, hnx, by rw [hx]; exact hhi⟩
      · exact ⟨rfl, hnx, by rw [hx]; exact h.1⟩
      · simp only [expLo, expHi] at h hhi
        omega
  | ok r =>
    obtain ⟨hnum, h⟩ := h
    rw [hy] at h
    constructor
    · rintro ⟨-, h'⟩
      rw [hx] at h'
      rcases h with ⟨h0 | h0, hr⟩ | ⟨h0, hr⟩
      · exact absurd h0 hny
      · rcases h' with ⟨h0' | h0', -⟩ | ⟨-, hr'⟩
        · exact absurd h0' hnx
        · exact Or.inr (Or.inr ⟨h0', h0⟩)
        · exact absurd (hr'.symm.trans hr) hnx
      · rcases h' with ⟨-, hr'⟩ | ⟨-, hr'⟩
        · exact absurd (hr.symm.trans hr') hny
        · left
          rw [← hx, ← hy, ← hr, ← hr']
    · intro hxy
      refine ⟨hnum, ?_⟩
      rw [hx]
      rcases h with ⟨h0 | h0, hr⟩ | ⟨h0, hr⟩
      · exact absurd h0 hny
      · refine Or.inl ⟨Or.inr ?_, hr⟩
        rcases hxy with rfl | h | h
        · exact h0
        · simp only [expLo, expHi] at h h0
          omega
        · exact h.1
      · have hsame : x = y := by
          rcases hxy with h | h | h
          · exact h
          · omega
          · omega
        rw [heq hsame, hsame]
        exact Or.inr ⟨h0, hr⟩

/-- The outcome for a mantissa other than zero. -/
theorem value_stored_iff {t : NumText} {rest : List UInt8} (h : t.Longest (t.text ++ rest)) (hne : t.digits ≠ []) :
    Stored t.value (forceNum (Mval.ofStr (t.text ++ rest))) ↔ SameOutcome t.mantissa t.exponent (t.expSeen rest) := by
  obtain ⟨hexp, hm, htrunc⟩ := mantissa_words hne
  obtain ⟨hd, hlead⟩ := digits_spec hne
  have hq : t.value = signed t.neg
      ((⟨word1 t.digits, word2 t.digits⟩ : Mantissa).val * (10 : ℚ) ^ (t.exponent + t.place - 18)) := by
    rw [NumText.value, htrunc, mul_assoc, ← zpow_add₀ (by norm_num)]
    congr 3
    ring
  rw [hq, stored_exponent (words_normal hd hlead) t.neg (forceNum_text h hne), SameOutcome, hexp, add_left_inj,
    add_comm t.exponent, add_comm (t.expSeen rest)]
  exact (or_iff_right hm).symm

end NumberPrefixAux

/-- `s2n` gives the value of the longest prefix that is the text of a number exactly when the exponent it takes, `expSeen`, leads to
the same outcome as the one in the text. -/
theorem s2n_longest_iff (s : List UInt8) : (∃ t : NumText, t.Longest s) ∧ ∀ t : NumText, t.Longest s →
    (Stored t.value (forceNum (Mval.ofStr s)) ↔ SameOutcome t.mantissa t.exponent (t.expSeen (s.drop t.text.length))) := by
  refine ⟨NumText.exists_longest s, fun t ht => ?_⟩
  obtain ⟨rest, rfl⟩ := ht.1
  rw [List.drop_left]
  by_cases hne : t.digits = []
  · obtain ⟨v, hv, hnum, hval⟩ := forceNum_zero ht hne
    have hm : t.mantissa = 0 := by
      rw [mantissa_eq, hne]
      simp
    have hq : t.value = 0 := by
      rw [NumText.value, hm, truncSig_zero, zero_mul]
      cases t.neg <;> simp
    rw [hv, hq]
    exact ⟨fun _ => Or.inl hm, fun _ => ⟨hnum, Or.inl ⟨Or.inl rfl, hval⟩⟩⟩
  · exact value_stored_iff ht hne

namespace NumberPrefixAux

/-- A text has one decimal point at most. -/
theorem count_dot_text (t : NumText) : t.text.count ascDot ≤ 1 := by
  have hsign : ∀ l : List Bool, (l.map signChar).count ascDot = 0 := by
    intro l
    rw [List.count_eq_zero]
    intro h
    obtain ⟨b, -, hb⟩ := List.mem_map.mp h
    cases b <;> cases hb
  have hchars : ∀ {ds : List ℕ}, Digits 10 ds → (chars ds).count ascDot = 0 := by
    intro ds hd
    rw [List.count_eq_zero]
    intro h
    have := isDigit_of_mem_chars hd h
    cases this
  have hexp : t.expText.count ascDot = 0 := by
    unfold NumText.expText
    cases he : t.exp with
    | none => rfl
    | some e =>
      have hopt : (e.1.map signChar).toList = e.1.toList.map signChar := by cases e.1 <;> rfl
      simp only [List.count_append, hopt, List.count_cons_of_ne (show ascE ≠ ascDot by decide), hsign, hchars (t.exp_digits e he).1]
  have hfrac : t.fractionText.count ascDot ≤ 1 := by
    unfold NumText.fractionText
    cases hf : t.fraction with
    | none => simp
    | some ds =>
      have hds : Digits 10 ds := by simpa [hf] using t.fraction_digits
      simp [hchars hds]
  simp only [NumText.text, List.count_append, hsign, hchars t.int_digits, hexp, zero_add, add_zero]
  exact hfrac

end NumberPrefixAux

/-- `1234567890123456789.5.7E3`: the exponent behind the second point is taken. -/
theorem s2n_second_point : ∃ t : NumText,
    t.Longest (chars [1, 2, 3, 4, 5, 6, 7, 8, 9, 0, 1, 2, 3, 4, 5, 6, 7, 8, 9] ++ [ascDot, 0x35, ascDot, 0x37, ascE, 0x33]) ∧
      ¬ Stored t.value (forceNum (Mval.ofStr
        (chars [1, 2, 3, 4, 5, 6, 7, 8, 9, 0, 1, 2, 3, 4, 5, 6, 7, 8, 9] ++ [ascDot, 0x35, ascDot, 0x37, ascE, 0x33]))) := by
  obtain ⟨t, ht⟩ : ∃ t : NumText, t = ⟨[], [1, 2, 3, 4, 5, 6, 7, 8, 9, 0, 1, 2, 3, 4, 5, 6, 7, 8, 9], some [5], none, by simp, by simp,
    by simp, by simp⟩ := ⟨_, rfl⟩
  have hs : chars [1, 2, 3, 4, 5, 6, 7, 8, 9, 0, 1, 2, 3, 4, 5, 6, 7, 8, 9] ++ [ascDot, 0x35, ascDot, 0x37, ascE, 0x33] =
      t.text ++ [ascDot, 0x37, ascE, 0x33] := by rw [ht]; decide
  have hlong : t.Longest (t.text ++ [ascDot, 0x37, ascE, 0x33]) := by
    refine ⟨List.prefix_append _ _, fun t' ht' => ?_⟩
    by_contra hlt
    have hpre : t.text ++ [ascDot] <+: t'.text := by
      refine List.prefix_of_prefix_length_le ⟨[0x37, ascE, 0x33], by simp⟩ ht' ?_
      rw [List.length_append, List.length_singleton]
      omega
    have hcount : 2 ≤ t'.text.count ascDot := by
      refine le_trans ?_ (hpre.sublist.count_le ascDot)
      rw [ht]
      decide
    have := count_dot_text t'
    omega
  refine ⟨t, by rwa [hs], ?_⟩
  have hne : t.digits ≠ [] := by rw [ht]; decide
  obtain ⟨hexp, hm, -⟩ := mantissa_words hne
  have hplace : t.place = 19 := by rw [ht]; decide
  have hexponent : t.exponent = 0 := by rw [ht]; rfl
  have hseen : t.expSeen [ascDot, 0x37, ascE, 0x33] = 3 := by rw [ht]; decide
  rw [hs, value_stored_iff hlong hne, SameOutcome, hexp, hplace, hexponent, hseen]
  rintro (h | h | h | h)
  · exact hm h
  · cases h
  · simp only [expHi, mvXbias] at h
    omega
  · simp only [expLo, mvXbias] at h
    omega

end Gtm
