import Gtm.Lemmas.NumberToString
import Gtm.Theorems.SubscriptOrder

/-!
# Decoding gives back what was encoded

`gvsub2str` turns the bytes `mval2subsc` appends for a number into the string `n2s` makes of it, and the bytes of a string that is
not a canonic number into that string.
-/

namespace Gtm

open Positional DecimalTextAux NumberToStringAux SubscriptBytesAux SubscriptOrderAux

namespace SubscriptRoundTripAux

/-! ## Digit pairs -/

/-- The decimal digits of a list of digit pairs. -/
def expand (ps : List ℕ) : List ℕ := ps.flatMap fun d => [d / 10, d % 10]

@[simp] theorem expand_nil : expand [] = [] := rfl

@[simp] theorem expand_cons (d : ℕ) (ps : List ℕ) : expand (d :: ps) = d / 10 :: d % 10 :: expand ps := rfl

theorem expand_append (ps qs : List ℕ) : expand (ps ++ qs) = expand ps ++ expand qs := by simp [expand]

theorem expand_length (ps : List ℕ) : (expand ps).length = 2 * ps.length := by
  induction ps with
  | nil => rfl
  | cons d ps ih =>
    rw [expand_cons, List.length_cons, List.length_cons, List.length_cons]
    omega

variable {ps : List ℕ} {d len : ℕ} {neg : Bool} {r : List UInt8}

theorem expand_digits (h : Digits 100 ps) : Digits 10 (expand ps) := by
  induction ps with
  | nil => simp
  | cons d ps ih =>
    obtain ⟨hd, hps⟩ := digits_cons.mp h
    exact digits_cons.mpr ⟨by omega, digits_cons.mpr ⟨by omega, ih hps⟩⟩

theorem frac_expand (ps : List ℕ) : frac 10 (expand ps) = frac 100 ps := by
  induction ps with
  | nil => rfl
  | cons d ps ih =>
    have hsplit : (d : ℚ) = 10 * (d / 10 : ℕ) + (d % 10 : ℕ) := by exact_mod_cast (Nat.div_add_mod d 10).symm
    rw [expand_cons, frac_cons, frac_cons, frac_cons, ih, hsplit]
    ring

/-- At most the last decimal digit of a trimmed list of pairs is zero. -/
theorem expand_ne_zeros (h : Trimmed ps) (M : List ℕ) : expand ps ≠ M ++ [0, 0] := by
  intro heq
  rcases List.eq_nil_or_concat ps with rfl | ⟨qs, d, rfl⟩
  · simp at heq
  · have hd : d ≠ 0 := by
      unfold Trimmed at h
      simpa [List.concat_eq_append] using h
    have hx : expand qs ++ [d / 10, d % 10] = M ++ [0, 0] := by
      rw [← heq, List.concat_eq_append, expand_append]
      rfl
    have := List.append_inj_right' hx rfl
    simp only [List.cons.injEq, and_true] at this
    omega

theorem dposChars_posCode (h : d < 100) : dposChars (posCode d) = chars [d / 10, d % 10] := by
  unfold dposChars
  rw [posCode_toNat h]
  have h1 : (16 * (d / 10) + d % 10 + 1 - 1) / 16 = d / 10 := by omega
  have h2 : (16 * (d / 10) + d % 10 + 1 - 1) % 16 = d % 10 := by omega
  simp only [h1, h2]
  rw [if_pos (by omega)]
  rfl

theorem dnegChars_negCode (h : d < 100) : dnegChars (negCode d) = chars [d / 10, d % 10] := by
  unfold dnegChars
  rw [negCode_toNat h]
  have h1 : (0xfe - 16 * (d / 10) - d % 10) / 16 = 15 - d / 10 := by omega
  have h2 : (0xfe - 16 * (d / 10) - d % 10) % 16 = 14 - d % 10 := by omega
  have h3 : 15 - (15 - d / 10) = d / 10 := by omega
  have h4 : 14 - (14 - d % 10) = d % 10 := by omega
  simp only [h1, h2]
  rw [if_neg (by omega), if_pos (by omega), h3, h4]
  rfl

theorem pairChars (h : d < 100) : (if neg then dnegChars (cvtTable neg d) else dposChars (cvtTable neg d)) = chars [d / 10, d % 10] := by
  cases neg
  · exact dposChars_posCode h
  · exact dnegChars_negCode h

/-! ## The digit loop -/

/-- The byte at which the digit loop of a number ends. -/
def trailCh (neg : Bool) : UInt8 := if neg then negMntssaEnd else keyDelimiter

theorem cvtTable_ne_trailCh (neg : Bool) (h : d < 100) : cvtTable neg d ≠ 0 ∧ cvtTable neg d ≠ trailCh neg := by
  refine ⟨cvtTable_ne_zero neg h, ?_⟩
  cases neg
  · exact cvtTable_ne_zero false h
  · exact (negCode_lt h).ne

theorem digitLoop_stop {t : UInt8} (hr : ∀ c, r.head? = some c → c = 0 ∨ c = t) (expon : ℤ)
    (targ : List UInt8) : digitLoop neg t len r expon targ = (expon, targ) := by
  cases r with
  | nil => rfl
  | cons c r =>
    rw [digitLoop, if_neg]
    rintro ⟨h1, h2, -⟩
    rcases hr c rfl with h | h
    · exact h1 h
    · exact h2 h

/-- One turn of the digit loop. -/
theorem digitLoop_cons (neg : Bool) (len : ℕ) (hd : d < 100) (sub : List UInt8) (expon : ℤ) (targ : List UInt8)
    (hlen : targ.length < len) :
    digitLoop neg (trailCh neg) len (cvtTable neg d :: sub) expon targ = if expon - 2 ≤ 0 then
        if expon - 2 ≠ 0 then digitLoop neg (trailCh neg) len sub largeExp (targ ++ ascDot :: chars [d / 10, d % 10])
        else digitLoop neg (trailCh neg) len sub largeExp (targ ++ chars [d / 10] ++ ascDot :: chars [d % 10])
      else digitLoop neg (trailCh neg) len sub (expon - 2) (targ ++ chars [d / 10, d % 10]) := by
  obtain ⟨h0, ht⟩ := cvtTable_ne_trailCh neg hd
  rw [digitLoop, if_pos ⟨h0, ht, hlen⟩]
  simp only [pairChars hd]
  rfl

/-- Behind the decimal point the digits follow one another. -/
theorem digitLoop_fraction (len : ℕ) (hps : Digits 100 ps)
    (hr : ∀ c, r.head? = some c → c = 0 ∨ c = trailCh neg) (expon : ℤ) (targ : List UInt8) (hexp : 2 * (ps.length : ℤ) < expon)
    (hlen : targ.length + 2 * ps.length < len + 2) : digitLoop neg (trailCh neg) len (ps.map (cvtTable neg) ++ r) expon targ =
      (expon - 2 * ps.length, targ ++ chars (expand ps)) := by
  induction ps generalizing expon targ with
  | nil =>
    rw [List.map_nil, List.nil_append, digitLoop_stop hr]
    simp [chars]
  | cons d ps ih =>
    obtain ⟨hd, hps⟩ := digits_cons.mp hps
    rw [List.length_cons] at hexp hlen
    rw [List.map_cons, List.cons_append, digitLoop_cons neg len hd _ _ _ (by omega), if_neg (by omega), ih hps _ _ (by omega)
      (by simp [chars]; omega)]
    refine Prod.ext ?_ (by simp [chars])
    simp only [List.length_cons]
    push_cast
    ring

/-- In front of the decimal point, which comes behind `e` digits. -/
theorem digitLoop_integer (len : ℕ) (hps : Digits 100 ps)
    (hr : ∀ c, r.head? = some c → c = 0 ∨ c = trailCh neg) (e : ℕ) (targ : List UInt8) (hlen : targ.length + 2 * ps.length < len + 1)
    (hsmall : ps.length < 50) :
    if 2 * ps.length ≤ e then
      digitLoop neg (trailCh neg) len (ps.map (cvtTable neg) ++ r) (e + 1) targ = ((e : ℤ) + 1 - 2 * ps.length, targ ++ chars (expand ps))
    else ∃ x, largeExp - 100 < x ∧ digitLoop neg (trailCh neg) len (ps.map (cvtTable neg) ++ r) (e + 1) targ =
      (x, targ ++ chars ((expand ps).take e) ++ ascDot :: chars ((expand ps).drop e)) := by
  induction ps generalizing e targ with
  | nil =>
    rw [List.map_nil, List.nil_append, digitLoop_stop hr]
    simp [chars]
  | cons d ps ih =>
    obtain ⟨hd, hps⟩ := digits_cons.mp hps
    rw [List.length_cons] at hlen hsmall
    have hturn := digitLoop_cons neg len hd (ps.map (cvtTable neg) ++ r) ((e : ℤ) + 1) targ (by omega)
    rw [List.map_cons, List.cons_append, hturn, List.length_cons]
    have hbig : ∀ t : List UInt8, t.length + 2 * ps.length < len + 2 →
        ∃ x, largeExp - 100 < x ∧ digitLoop neg (trailCh neg) len (ps.map (cvtTable neg) ++ r) largeExp t =
          (x, t ++ chars (expand ps)) := by
      intro t ht
      have hl : largeExp = 10000 := rfl
      exact ⟨largeExp - 2 * ps.length, by omega, digitLoop_fraction len hps hr largeExp t (by omega) ht⟩
    obtain rfl | rfl | ⟨e, rfl⟩ : e = 0 ∨ e = 1 ∨ ∃ k, e = k + 2 := by rcases e with _ | _ | e <;> simp
    · obtain ⟨x, hx, hrun⟩ := hbig (targ ++ ascDot :: chars [d / 10, d % 10]) (by simp [chars]; omega)
      exact ⟨x, hx, by rw [hrun]; simp [chars]⟩
    · obtain ⟨x, hx, hrun⟩ := hbig (targ ++ chars [d / 10] ++ ascDot :: chars [d % 10]) (by simp [chars]; omega)
      exact ⟨x, hx, by rw [hrun]; simp [chars]⟩
    · have hexp : ((e + 2 : ℕ) : ℤ) + 1 - 2 = (e : ℤ) + 1 := by
        push_cast
        ring
      have hrec := ih hps e (targ ++ chars [d / 10, d % 10]) (by simp [chars]; omega) (by omega)
      rw [hexp, if_neg (by omega : ¬ (e : ℤ) + 1 ≤ 0)]
      by_cases hle : 2 * ps.length ≤ e
      · rw [if_pos hle] at hrec
        rw [if_pos (by omega), hrec]
        refine Prod.ext ?_ (by simp [chars])
        push_cast
        ring
      · rw [if_neg hle] at hrec
        rw [if_neg (by omega)]
        obtain ⟨x, hx, hrun⟩ := hrec
        exact ⟨x, hx, by rw [hrun]; simp [chars]⟩

/-! ## The ends of the number -/

theorem fractionZeros_eq (len n : ℕ) (targ : List UInt8) (h : targ.length + n < len) :
    fractionZeros len n targ = targ ++ List.replicate (n + 1) ascZero := by
  induction n generalizing targ with
  | zero => rfl
  | succ n ih =>
    rw [fractionZeros, if_pos (by simp; omega), ih _ (by simp; omega), List.append_assoc]
    rfl

theorem integerZeros_eq (len n : ℕ) (targ : List UInt8) (h : targ.length + n ≤ len) :
    integerZeros len n targ = targ ++ List.replicate n ascZero := by
  induction n generalizing targ with
  | zero => simp [integerZeros]
  | succ n ih =>
    rw [integerZeros, if_pos (by omega), ih _ (by simp; omega), List.append_assoc]
    rfl

theorem getLast?_chars {L : List ℕ} (hL : Digits 10 L) (ht : Trimmed L) (hne : L ≠ []) (p : List UInt8) :
    (p ++ chars L).getLast? ≠ some ascZero ∧ (p ++ chars L).getLast? ≠ some ascDot := by
  obtain ⟨M, d, rfl⟩ := List.eq_nil_or_concat L |>.resolve_left hne
  rw [List.concat_eq_append] at *
  have hd : d < 10 := hL d (by simp)
  have hd0 : d ≠ 0 := by simpa [Trimmed] using ht
  rw [chars_append]
  simp only [chars, List.map_cons, List.map_nil, List.getLast?_append, List.getLast?_singleton, Option.some_or, ne_eq,
    Option.some.injEq, digitChar_eq_zero_iff hd, hd0, not_false_eq_true, true_and]
  rw [← UInt8.toNat_inj, digitChar_toNat hd]
  simp only [ascDot, UInt8.reduceToNat]
  omega

/-- Behind a decimal point a last zero is dropped, and then a decimal point that is last. -/
theorem finishDigits_point (len : ℕ) {x : ℤ} (hx : largeExp - 100 < x) {L : List ℕ} (hL : Digits 10 L) (hne : L ≠ [])
    (hz : ∀ M, L ≠ M ++ [0, 0]) (p : List UInt8) :
    finishDigits len x (p ++ ascDot :: chars L) = p ++ if trim L = [] then [] else ascDot :: chars (trim L) := by
  unfold finishDigits
  rw [if_pos hx]
  obtain ⟨n, hn⟩ := exists_trim_append L
  have hshift : ∀ M, p ++ ascDot :: chars M = (p ++ [ascDot]) ++ chars M := by simp
  match n, hn with
  | 0, hn =>
    rw [List.replicate_zero, List.append_nil] at hn
    obtain ⟨h0, h1⟩ := getLast?_chars hL (hn ▸ trim_trimmed L) hne (p ++ [ascDot])
    rw [← hn, if_neg hne, hshift L]
    simp only [if_neg h0, if_neg h1]
  | 1, hn =>
    have hdrop : p ++ ascDot :: chars L = (p ++ ascDot :: chars (trim L)) ++ [ascZero] := by
      conv_lhs => rw [hn, chars_append]
      simp [chars, digitChar, ascZero]
    rw [hdrop]
    simp only [List.getLast?_concat, if_true, List.dropLast_concat]
    by_cases hnil : trim L = []
    · rw [hnil]
      simp [chars]
    · obtain ⟨-, h1⟩ := getLast?_chars hL.trim (trim_trimmed L) hnil (p ++ [ascDot])
      rw [if_neg hnil, hshift, if_neg h1]
  | n + 2, hn =>
    exfalso
    refine hz (trim L ++ List.replicate n 0) ?_
    conv_lhs => rw [hn]
    rw [List.replicate_succ', List.replicate_succ']
    simp

/-- The exponent byte of a number, read back. -/
theorem unbiasExp_expByte {n : ℕ} (hlo : 148 ≤ n) (hhi : n ≤ 237) (neg : Bool) :
    (decide (expByte neg n < 0x80)) = neg ∧ unbiasExp (if neg then ~~~(expByte neg n) else expByte neg n) = (n : ℤ) - 189 := by
  have hneg : ~~~(expByte true n) = UInt8.ofNat n := by simp [expByte]
  have hval : unbiasExp (UInt8.ofNat n) = (n : ℤ) - 189 := by
    interval_cases n <;> rfl
  cases neg
  · refine ⟨?_, by simpa [expByte] using hval⟩
    rw [decide_eq_false_iff_not, UInt8.lt_iff_toNat_lt, expByte_false_toNat (by omega)]
    simp
    omega
  · refine ⟨?_, by simp only [if_true, hneg, hval]⟩
    rw [decide_eq_true_eq, UInt8.lt_iff_toNat_lt, expByte_true_toNat (by omega)]
    simp
    omega

/-- The characters of a number, from its bytes. -/
theorem numberStr_text {n : ℕ} (hlo : 148 ≤ n) (hhi : n ≤ 237) {q : ℚ}
    (h : Normal 100 ((n : ℤ) - subscriptBias) ps q) (neg : Bool) (hlen : 64 ≤ len)
    (hshort : 2 * ps.length + (subscriptBias - n) ≤ 62) (hr : ∀ c, r.head? = some c → c = 0 ∨ c = trailCh neg) :
    ∃ is fs, numberStr (expByte neg n) (ps.map (cvtTable neg) ++ r) len = (if neg then [ascMinus] else []) ++ decText is fs ∧
      TextOf q is fs := by
  obtain ⟨hsign, hexp⟩ := unbiasExp_expByte hlo hhi neg
  have hbias : subscriptBias = 190 := rfl
  have hD := expand_digits h.digits
  have hlead : ∃ d t, expand ps = d :: t ∧ d ≠ 0 := by
    obtain ⟨d, qs, rfl⟩ := List.exists_cons_of_ne_nil h.ne_nil
    refine ⟨d / 10, _, rfl, ?_⟩
    intro h0
    have hfrac := h.lead
    have hqs := frac_lt_one (by norm_num : 0 < 100) (digits_cons.mp h.digits).2
    have hd10 : (d : ℚ) ≤ 9 := by
      have : d ≤ 9 := by omega
      exact_mod_cast this
    rw [frac_cons] at hfrac
    push_cast at hfrac
    linarith
  have hnz := expand_ne_zeros h.trimmed
  have hval : q = frac 10 (expand ps) * 10 ^ ((n : ℤ) - subscriptBias) := by
    rw [frac_expand]
    exact h.value
  have hnegd : (decide (expByte neg n < 0x80 ∧ 0 < len)) = neg := by
    have h0 : 0 < len := by omega
    simpa [h0] using hsign
  have hsl : (if neg then [ascMinus] else []).length ≤ 1 := by cases neg <;> simp
  unfold numberStr
  simp only [hnegd, hexp]
  generalize (if neg then [ascMinus] else []) = sgn at *
  have htrail : (if neg then negMntssaEnd else keyDelimiter) = trailCh neg := rfl
  rw [htrail]
  rcases lt_or_ge n 190 with hn | hn
  · -- a fraction: the decimal point and zeros come first
    obtain ⟨k, hk⟩ : ∃ k : ℕ, n + k + 1 = 190 := ⟨190 - n - 1, by omega⟩
    have hkz : ((n : ℤ) - 189).natAbs = k := by omega
    have hrun := digitLoop_fraction len h.digits hr largeExp ((sgn ++ [ascDot]) ++ List.replicate (k + 1) ascZero)
      (by simp only [largeExp]; omega) (by simp; omega)
    have hbig : largeExp - 100 < largeExp - 2 * (ps.length : ℤ) := by omega
    have htext : (sgn ++ [ascDot]) ++ List.replicate (k + 1) ascZero ++ chars (expand ps) =
        sgn ++ ascDot :: chars (List.replicate (k + 1) 0 ++ expand ps) := by
      rw [chars_append, chars_replicate]
      simp
    have htne : trim (expand ps) ≠ [] := by
      obtain ⟨d, t, hds, hd⟩ := hlead
      rw [hds, trim_cons_of_ne fun hz => hd (hz d (by simp))]
      simp
    have hfin := finishDigits_point len hbig (L := List.replicate (k + 1) 0 ++ expand ps)
      (digits_append.mpr ⟨fun x hx => by rw [List.eq_of_mem_replicate hx]; norm_num, hD⟩) (by simp) ?_ sgn
    · refine ⟨[], List.replicate (k + 1) 0 ++ trim (expand ps), ?_, ?_⟩
      · rw [if_pos (by omega), hkz, fractionZeros_eq len k _ (by simp; omega)]
        simp only [hrun, htext, hfin, trim_append _ htne]
        simp [decText, chars]
      · have := textOf_neg hD hlead (k + 1)
        have he : (n : ℤ) - subscriptBias = -((k + 1 : ℕ) : ℤ) := by omega
        rwa [hval, he]
    · intro M heq
      have hlen2 : 2 ≤ (expand ps).length := by
        have := List.length_pos_iff.mpr h.ne_nil
        rw [expand_length]
        omega
      have hsuf : [0, 0] <:+ expand ps := by
        refine List.suffix_of_suffix_length_le ⟨M, heq.symm⟩ (List.suffix_append _ _) ?_
        simpa using hlen2
      obtain ⟨M', hM'⟩ := hsuf
      exact hnz M' hM'.symm
  · -- the first digits are those of the integer part
    obtain ⟨k, rfl⟩ : ∃ k, n = 190 + k := ⟨n - 190, by omega⟩
    have hk1 : ((190 + k : ℕ) : ℤ) - 189 = (k : ℤ) + 1 := by
      push_cast
      ring
    have he : ((190 + k : ℕ) : ℤ) - subscriptBias = (k : ℤ) := by omega
    have hloop := digitLoop_integer len h.digits hr k sgn (by omega) (by omega)
    refine ⟨_, _, ?_, by rw [hval, he, zpow_natCast]; exact textOf_nonneg hD hlead k⟩
    rw [hk1, if_neg (by omega)]
    by_cases hle : 2 * ps.length ≤ k
    · rw [if_pos hle] at hloop
      have hfin : finishDigits len ((k : ℤ) + 1 - 2 * ps.length) (sgn ++ chars (expand ps)) =
          sgn ++ chars (expand ps) ++ List.replicate (k - (expand ps).length) ascZero := by
        have hz : ((k : ℤ) + 1 - 2 * ps.length - 1).toNat = k - (expand ps).length := by
          rw [expand_length]
          omega
        unfold finishDigits
        rw [if_neg (by simp only [largeExp]; omega), hz, integerZeros_eq]
        simp only [List.length_append, chars, List.length_map, expand_length]
        omega
      simp only [hloop, hfin]
      rw [List.take_of_length_le (by rw [expand_length]; omega), List.drop_eq_nil_of_le (by rw [expand_length]; omega), decText,
        chars_append, chars_replicate]
      simp [trim]
    · rw [if_neg hle] at hloop
      obtain ⟨x, hx, hrun⟩ := hloop
      have hklt : k < (expand ps).length := by
        rw [expand_length]
        omega
      have hdig : Digits 10 ((expand ps).drop k) := fun d hd => hD d (List.mem_of_mem_drop hd)
      have hfin := finishDigits_point len hx hdig (by simpa using hklt) ?_ (sgn ++ chars ((expand ps).take k))
      · simp only [hrun, hfin]
        rw [Nat.sub_eq_zero_of_le hklt.le]
        simp [decText]
      · intro M heq
        refine hnz ((expand ps).take k ++ M) ?_
        rw [List.append_assoc, ← heq, List.take_append_drop]

theorem unescape_escape (s r : List UInt8) : unescapeStr (escapeBytes s ++ keyDelimiter :: r) = s := by
  induction s with
  | nil =>
    rw [escapeBytes, unescapeStr.eq_def]
    rfl
  | cons c s ih =>
    unfold escapeBytes
    by_cases hc : c ≤ 1
    · rw [if_pos hc, List.cons_append, List.cons_append, unescapeStr.eq_def]
      simp only [ih, strSubEscape, if_true]
      rcases byte_le_one hc with rfl | rfl <;> rfl
    · have h0 : c ≠ 0 := by
        rintro rfl
        exact hc (by decide)
      have h1 : c ≠ strSubEscape := by
        rintro rfl
        exact hc (by decide)
      rw [if_neg hc, List.cons_append, unescapeStr.eq_def]
      simp only [if_neg h0, if_neg h1, ih]

/-- The bytes of a number in range decode to its string. -/
theorem gvsub2str_number (coll : Collation) (v : Mval) (hv : v.NumValid) (hlen : 64 ≤ len) (r : List UInt8) :
    gvsub2str coll (numSubsc v ++ [keyDelimiter] ++ r) len none = .ok (n2sStr v) := by
  rcases numSubsc_cases v hv with ⟨-, hm, hb⟩ | ⟨neg, n, ps, q, hb, hlo, hhi, hn, hval, hshort⟩
  · have hs : n2sStr v = [ascZero] := by rw [n2sStr, if_pos hm]
    rw [hb, hs]
    rfl
  · have hsplit : numSubsc v ++ [keyDelimiter] ++ r =
        expByte neg n :: (ps.map (cvtTable neg) ++ ((if neg then [negMntssaEnd] else []) ++ keyDelimiter :: r)) := by
      rw [hb]
      simp [numberBytes]
    have hbyte : (expByte neg n).toNat ≠ 255 ∧ (expByte neg n).toNat ≠ 1 ∧ (expByte neg n).toNat ≠ 128 ∧ (expByte neg n).toNat ≠ 2 := by
      cases neg
      · rw [expByte_false_toNat (by omega)]
        omega
      · rw [expByte_true_toNat (by omega)]
        omega
    have hnum : gvsub2str coll (numSubsc v ++ [keyDelimiter] ++ r) len none = .ok (numberStr (expByte neg n)
        (ps.map (cvtTable neg) ++ ((if neg then [negMntssaEnd] else []) ++ keyDelimiter :: r)) len) := by
      rw [hsplit, gvsub2str, if_neg, if_neg, if_neg]
      · exact fun h => hbyte.2.2.2 (congrArg UInt8.toNat h)
      · exact fun h => hbyte.2.2.1 (congrArg UInt8.toNat h)
      · rintro (h | ⟨h, -⟩)
        · exact hbyte.1 (congrArg UInt8.toNat h)
        · exact hbyte.2.1 (congrArg UInt8.toNat h)
    have hqpos := hn.pos
    have hne : v.numVal ≠ 0 := by
      rw [hval]
      cases neg <;> simp [hqpos.ne']
    have habs : |v.numVal| = q := by
      rw [hval]
      cases neg <;> simp [abs_of_pos hqpos]
    have hsign : v.numVal < 0 ↔ neg = true := by
      rw [hval]
      cases neg <;> simp [hqpos, hqpos.le]
    obtain ⟨is, fs, hdec, htext⟩ := numberStr_text hlo hhi hn neg hlen hshort
      (r := (if neg then [negMntssaEnd] else []) ++ keyDelimiter :: r) (by cases neg <;> simp [trailCh, keyDelimiter])
    obtain ⟨is', fs', hstr, htext'⟩ := n2sStr_text v hv.mantValid hne
    rw [habs] at htext'
    rw [hnum, hdec, hstr, htext.unique htext']
    simp only [hsign]

/-- The bytes of a string decode to the string. -/
theorem gvsub2str_string {coll : Collation} (hc : coll.Plain) (std : Bool) (s : List UInt8) (len : ℕ) (r : List UInt8) :
    gvsub2str coll (strBytes std s ++ [keyDelimiter] ++ r) len none = .ok s := by
  have hcoll : (if coll.transform then coll.collseq else none) = none := by
    rcases hc with h | ⟨-, h⟩ <;> simp [h]
  have hnull : unescapeStr (keyDelimiter :: r) = [] := by
    rw [unescapeStr.eq_def]
    rfl
  unfold strBytes
  by_cases hs : s = []
  · rw [if_pos hs, hs, List.singleton_append, List.cons_append, List.singleton_append, gvsub2str, if_pos]
    · simp only [hcoll, hnull]
      rfl
    · cases std
      · exact Or.inl rfl
      · exact Or.inr ⟨rfl, rfl⟩
  · rw [if_neg hs]
    have hsplit : strSubPrefix :: escapeBytes s ++ [keyDelimiter] ++ r = strSubPrefix :: (escapeBytes s ++ keyDelimiter :: r) := by
      simp
    rw [hsplit, gvsub2str]
    simp only [hcoll, unescape_escape]
    rfl

end SubscriptRoundTripAux

open SubscriptRoundTripAux

/-- Decoding the bytes `mval2subsc` appended gives the string of the number, or the string itself when it is no canonic number. -/
theorem gvsub2str_mval2subsc (coll : Collation) (hc : coll.Plain) (std : Bool) (len : ℕ) (hlen : 64 ≤ len) :
    (∀ v : Mval, v.mvtype.nm = true → v.mvtype.numApprox = false → v.NumValid → ∀ k k' : GvKey, mval2subsc coll v k std = .ok k' →
      ∀ r, gvsub2str coll (k'.base.drop k.kend ++ r) len none = .ok (n2sStr v)) ∧
    (∀ s : List UInt8, valIscanStr s = false → ∀ k k' : GvKey, mval2subsc coll (Mval.ofStr s) k std = .ok k' →
      ∀ r, gvsub2str coll (k'.base.drop k.kend ++ r) len none = .ok s) := by
  refine ⟨?_, ?_⟩
  · intro v hnm happ hv k k' hk r
    have hw : subscMval coll v = .ok v := by
      unfold subscMval
      rw [if_neg (by rcases hc with h | h <;> simp [h]), if_pos (Or.inl hnm)]
    rw [mval2subsc_ok hc hw hk, if_neg (by simp [happ]), GvKey.kend, List.drop_left]
    exact gvsub2str_number coll v hv hlen r
  · intro s hs k k' hk r
    have hw : subscMval coll (Mval.ofStr s) = .ok { Mval.ofStr s with mvtype := { str := true, numApprox := true } } := by
      unfold subscMval
      rw [if_neg (by rcases hc with h | h <;> simp [h])]
      simp [Mval.ofStr, valIscan, mvForceStr, hs]
    rw [mval2subsc_ok hc hw hk, if_pos rfl, GvKey.kend, List.drop_left]
    exact gvsub2str_string hc std s len r

/-- The number -1.5 and a string of the bytes 0 and 1, back from their keys. -/
theorem gvsub2str_mval2subsc_minus_one_half :
    gvsub2str {} [64, 233, 255, 0, 0] 128 none = .ok (n2sStr { mvtype := { nm := true, int := true }, m1 := -1500 }) ∧
      gvsub2str {} [255, 1, 1, 1, 2, 0, 0] 128 none = .ok [0, 1] :=
  ⟨(gvsub2str_mval2subsc {} (Or.inl rfl) false 128 (by decide)).1 { mvtype := { nm := true, int := true }, m1 := -1500 } rfl rfl
      (by decide) nameKey ⟨[0x41, 0, 64, 233, 255, 0], 2, 1050⟩ (by decide) [0],
    (gvsub2str_mval2subsc {} (Or.inl rfl) false 128 (by decide)).2 [0, 1] (by decide) nameKey
      ⟨[0x41, 0, 255, 1, 1, 1, 2, 0], 2, 1050⟩ (by decide) [0]⟩

end Gtm
