import Gtm.Key.Collating

/-!
# Canonical decimal text

`decStr` is the canonical string of a number in normal form. `val_iscan` accepts the string `0` and the canonical strings of at
most 18 digits in range, and nothing else; `s2n` turns such a string into the number it denotes.
-/

namespace Gtm

open Positional

/-- The characters of a list of digits. -/
def chars (ds : List ℕ) : List UInt8 := ds.map digitChar

/-- The canonical string of `0.d₁d₂…dₙ · 10 ^ e`. -/
def decBody (e : ℤ) (ds : List ℕ) : List UInt8 :=
  if e ≤ 0 then ascDot :: (List.replicate e.natAbs ascZero ++ chars ds)
  else if ds.length ≤ e.toNat then chars ds ++ List.replicate (e.toNat - ds.length) ascZero
  else chars (ds.take e.toNat) ++ ascDot :: chars (ds.drop e.toNat)

theorem decBody_fraction (k : ℕ) (ds : List ℕ) : decBody (-k) ds = ascDot :: (List.replicate k ascZero ++ chars ds) := by
  rw [decBody, if_pos (by omega), Int.natAbs_neg, Int.natAbs_natCast]

theorem decBody_integer {k : ℕ} {ds : List ℕ} (hk : 0 < k) (h : ds.length ≤ k) :
    decBody k ds = chars ds ++ List.replicate (k - ds.length) ascZero := by
  rw [decBody, if_neg (by omega), Int.toNat_natCast, if_pos h]

theorem decBody_mixed {k : ℕ} {ds : List ℕ} (hk : 0 < k) (h : k < ds.length) :
    decBody k ds = chars (ds.take k) ++ ascDot :: chars (ds.drop k) := by
  rw [decBody, if_neg (by omega), Int.toNat_natCast, if_neg (by omega)]

/-- The canonical string of `±0.d₁d₂…dₙ · 10 ^ e`. -/
def decStr (neg : Bool) (e : ℤ) (ds : List ℕ) : List UInt8 := (if neg then [ascMinus] else []) ++ decBody e ds

namespace DecimalTextAux

/-! ## Digit characters -/

theorem digitChar_toNat {d : ℕ} (h : d < 10) : (digitChar d).toNat = d + 48 := by
  simp only [digitChar, UInt8.toNat_ofNat']
  omega

theorem isDigit_iff (c : UInt8) : isDigit c = true ↔ 48 ≤ c.toNat ∧ c.toNat ≤ 57 := by
  simp [isDigit, ascZero, ascNine, UInt8.le_iff_toNat_le]

theorem isDigit_digitChar {d : ℕ} (h : d < 10) : isDigit (digitChar d) = true := by
  rw [isDigit_iff, digitChar_toNat h]
  omega

theorem digitVal_digitChar {d : ℕ} (h : d < 10) : digitVal (digitChar d) = d := by
  rw [digitVal, digitChar_toNat h]
  omega

theorem digitChar_eq_zero_iff {d : ℕ} (h : d < 10) : digitChar d = ascZero ↔ d = 0 := by
  rw [← UInt8.toNat_inj, digitChar_toNat h]
  simp [ascZero]

theorem digitChar_digitVal {c : UInt8} (h : isDigit c = true) : digitChar (digitVal c) = c := by
  rw [isDigit_iff] at h
  rw [← UInt8.toNat_inj, digitChar_toNat (by unfold digitVal; omega), digitVal]
  omega

theorem digitVal_lt {c : UInt8} (h : isDigit c = true) : digitVal c < 10 := by
  rw [isDigit_iff] at h
  unfold digitVal
  omega

theorem isDigit_false_of_ne {c : UInt8} (h : c = ascDot ∨ c = ascMinus) : isDigit c = false := by
  rcases h with rfl | rfl <;> decide

/-- A string of digit characters is the characters of its digits. -/
theorem chars_digitVal {s : List UInt8} (h : ∀ c ∈ s, isDigit c = true) : chars (s.map digitVal) = s := by
  unfold chars
  rw [List.map_map]
  conv_rhs => rw [← List.map_id s]
  exact List.map_congr_left fun c hc => digitChar_digitVal (h c hc)

theorem digits_digitVal {s : List UInt8} (h : ∀ c ∈ s, isDigit c = true) : Digits 10 (s.map digitVal) := by
  intro d hd
  obtain ⟨c, hc, rfl⟩ := List.mem_map.mp hd
  exact digitVal_lt (h c hc)

theorem isDigit_of_mem_chars {ds : List ℕ} (h : Digits 10 ds) {c : UInt8} (hc : c ∈ chars ds) : isDigit c = true := by
  obtain ⟨d, hd, rfl⟩ := List.mem_map.mp hc
  exact isDigit_digitChar (h d hd)

theorem map_digitVal_chars {ds : List ℕ} (h : Digits 10 ds) : (chars ds).map digitVal = ds := by
  unfold chars
  rw [List.map_map]
  conv_rhs => rw [← List.map_id ds]
  exact List.map_congr_left fun d hd => digitVal_digitChar (h d hd)

theorem chars_append (ds es : List ℕ) : chars (ds ++ es) = chars ds ++ chars es := List.map_append

theorem chars_replicate (n : ℕ) : chars (List.replicate n 0) = List.replicate n ascZero := by
  simp [chars, digitChar, ascZero]

/-! ## The scans of `val_iscan` -/

/-- The zeros a string ends in, with `z` before it. -/
def zeroTail (s : List UInt8) (z : ℕ) : ℕ := s.foldl (fun z c => if c = ascZero then z + 1 else 0) z

section
variable (s : List UInt8)
include s

theorem zeroTail_concat (c : UInt8) (z : ℕ) :
    zeroTail (s ++ [c]) z = if c = ascZero then zeroTail s z + 1 else 0 := by
  simp [zeroTail]

theorem iscanDigits_eq (z n : ℕ) :
    iscanDigits s z n = (s.dropWhile isDigit, zeroTail (s.takeWhile isDigit) z, n + (s.takeWhile isDigit).length) := by
  induction s generalizing z n with
  | nil => simp [iscanDigits, zeroTail]
  | cons c s ih =>
    unfold iscanDigits
    by_cases hc : isDigit c = true
    · rw [if_pos hc, ih, List.dropWhile_cons_of_pos hc, List.takeWhile_cons_of_pos hc, List.length_cons]
      refine Prod.ext rfl (Prod.ext rfl ?_)
      simp only
      omega
    · rw [if_neg hc, List.dropWhile_cons_of_neg hc, List.takeWhile_cons_of_neg hc]
      simp [zeroTail]

theorem skipZeros_eq (n : ℕ) : skipZeros s n = (s.dropWhile (· = ascZero), n + (s.takeWhile (· = ascZero)).length) := by
  induction s generalizing n with
  | nil => simp [skipZeros]
  | cons c s ih =>
    unfold skipZeros
    by_cases hc : c = ascZero
    · rw [if_pos hc, ih, List.dropWhile_cons_of_pos (by simpa using hc), List.takeWhile_cons_of_pos (by simpa using hc), List.length_cons]
      refine Prod.ext rfl ?_
      omega
    · rw [if_neg hc, List.dropWhile_cons_of_neg (by simpa using hc), List.takeWhile_cons_of_neg (by simpa using hc)]
      simp

/-- A string is a string that does not end in a zero, followed by its trailing zeros. -/
theorem exists_trim : ∃ t, s = t ++ List.replicate (zeroTail s 0) ascZero ∧ t.getLast? ≠ some ascZero := by
  induction s using List.reverseRecOn with
  | nil => exact ⟨[], by simp [zeroTail], by simp⟩
  | append_singleton s c ih =>
    obtain ⟨t, hs, ht⟩ := ih
    rw [zeroTail_concat]
    by_cases hc : c = ascZero
    · refine ⟨t, ?_, ht⟩
      rw [if_pos hc, List.replicate_succ', ← List.append_assoc, ← hs, hc]
    · refine ⟨s ++ [c], by simp [hc], by simpa using hc⟩

theorem takeWhile_isDigit : ∀ c ∈ s.takeWhile isDigit, isDigit c = true := by
  intro c hc
  exact List.mem_takeWhile_imp hc

theorem takeWhile_zero : s.takeWhile (· = ascZero) = List.replicate (s.takeWhile (· = ascZero)).length ascZero := by
  rw [List.eq_replicate_iff]
  exact ⟨rfl, fun c hc => by simpa using List.mem_takeWhile_imp hc⟩

end

end DecimalTextAux

open DecimalTextAux

/-- The digits and the exponent of a canonic number other than zero. -/
structure Canonic (e : ℤ) (ds : List ℕ) : Prop where
  digits : Digits 10 ds
  trimmed : Trimmed ds
  lead : ∃ d t, ds = d :: t ∧ d ≠ 0
  length_le : ds.length ≤ numDecDg2l
  exp_lo : (expLo : ℤ) ≤ e + mvXbias
  exp_hi : e + mvXbias < expHi

/-- The digits of a number that two mantissa words can hold, whatever its exponent. -/
structure Decimal (ds : List ℕ) : Prop where
  digits : Digits 10 ds
  trimmed : Trimmed ds
  lead : ∃ d t, ds = d :: t ∧ d ≠ 0
  length_le : ds.length ≤ numDecDg2l

theorem Canonic.decimal {e : ℤ} {ds : List ℕ} (h : Canonic e ds) : Decimal ds := ⟨h.digits, h.trimmed, h.lead, h.length_le⟩

theorem Decimal.ne_nil {ds : List ℕ} (h : Decimal ds) : ds ≠ [] := by
  obtain ⟨d, t, rfl, -⟩ := h.lead
  simp

theorem Canonic.ne_nil {e : ℤ} {ds : List ℕ} (h : Canonic e ds) : ds ≠ [] := h.decimal.ne_nil

theorem Decimal.normal {ds : List ℕ} (h : Decimal ds) (e : ℤ) : Normal 10 e ds (frac 10 ds * 10 ^ e) where
  digits := h.digits
  trimmed := h.trimmed
  lead := by
    obtain ⟨d, t, rfl, hd⟩ := h.lead
    have hd' : (1 : ℚ) ≤ d := by exact_mod_cast Nat.one_le_iff_ne_zero.mpr hd
    have ht := frac_nonneg 10 t
    apply div_le_div_of_nonneg_right _ (by norm_num)
    linarith
  value := rfl

theorem Canonic.normal {e : ℤ} {ds : List ℕ} (h : Canonic e ds) : Normal 10 e ds (frac 10 ds * 10 ^ e) := h.decimal.normal e

namespace DecimalTextAux

theorem getLast?_of_trim {s : List UInt8} (h : s.getLast? ≠ some ascZero) (hd : ∀ c ∈ s, isDigit c = true) : Trimmed (s.map digitVal) := by
  unfold Trimmed
  rw [List.getLast?_map]
  intro h0
  obtain ⟨c, hc, hv⟩ := Option.map_eq_some_iff.mp h0
  have hdig := hd c (List.mem_of_getLast? hc)
  apply h
  rw [hc, ← digitChar_digitVal hdig, hv]
  decide

/-- What `val_iscan` accepts behind the sign is canonical text. -/
theorem iscanBody_canonic {neg : Bool} {s body rest : List UInt8} {dot : Bool} {sig : ℕ} {exp : ℤ}
    (hs : s = (if neg then [ascMinus] else []) ++ body) (hb : iscanBody body = some (rest, dot, sig, exp)) (hrest : rest = [])
    (hdot : dot = true → s.getLast? ≠ some ascZero ∧ s.getLast? ≠ some ascDot) (hsig : sig ≤ numDecDg2l)
    (hlo : (expLo : ℤ) ≤ exp + mvXbias) (hhi : exp + mvXbias < expHi) : ∃ e ds, s = decStr neg e ds ∧ Canonic e ds := by
  subst hrest
  have hlast : ∀ t, t ≠ [] → (∃ p, body = p ++ t) → s.getLast? = t.getLast? := by
    rintro t ht ⟨p, rfl⟩
    rw [hs, ← List.append_assoc, List.getLast?_append_of_ne_nil _ ht]
  unfold iscanBody at hb
  cases body with
  | nil => simp at hb
  | cons c r =>
    simp only [iscanDigits_eq, skipZeros_eq, zero_add] at hb
    split at hb
    · rename_i hc
      -- the number starts with a digit other than zero
      have hcd : isDigit c = true := by
        simp only [isDigit, Bool.and_eq_true, decide_eq_true_eq]
        exact ⟨hc.2.le, hc.1⟩
      have hc0 : digitVal c ≠ 0 := by
        intro h0
        have := digitChar_digitVal hcd
        rw [h0] at this
        exact hc.2.ne (by rw [← this]; decide)
      have hsplit := List.takeWhile_append_dropWhile (p := isDigit) (l := c :: r)
      have hpre : (c :: r).takeWhile isDigit = c :: r.takeWhile isDigit := List.takeWhile_cons_of_pos hcd
      have hdig := takeWhile_isDigit (c :: r)
      generalize hP : (c :: r).takeWhile isDigit = P at *
      split at hb
      · rename_i d r2 hR
        split at hb
        · rename_i hd
          simp only [Option.some.injEq, Prod.mk.injEq] at hb
          obtain ⟨hr3, rfl, hsig', hexp⟩ := hb
          obtain ⟨hl0, hld⟩ := hdot rfl
          have hr2 : r2.takeWhile isDigit = r2 := by
            have := List.takeWhile_append_dropWhile (p := isDigit) (l := r2)
            rwa [hr3, List.append_nil] at this
          rw [hr2] at hsig'
          have hdig2 : ∀ x ∈ r2, isDigit x = true := by
            rw [← hr2]
            exact takeWhile_isDigit r2
          have hne : r2 ≠ [] := by
            rintro rfl
            apply hld
            rw [hlast [d] (by simp) ⟨P, by rw [← hsplit, hR]⟩, hd]
            rfl
          rw [hlast r2 hne ⟨P ++ [d], by rw [← hsplit, hR]; simp⟩] at hl0
          have hz : zeroTail r2 (zeroTail P 0) = 0 := by
            obtain ⟨t, x, rfl⟩ := List.eq_nil_or_concat r2 |>.resolve_left hne
            rw [List.concat_eq_append] at hl0 ⊢
            rw [zeroTail_concat, if_neg (by simpa using hl0)]
          have hdigs : ∀ x ∈ P ++ r2, isDigit x = true := by
            intro x hx
            rcases List.mem_append.mp hx with hx | hx
            · exact hdig x hx
            · exact hdig2 x hx
          have hPpos : 0 < P.length := by rw [hpre]; simp
          have hr2pos : 0 < r2.length := List.length_pos_iff.mpr hne
          refine ⟨P.length, (P ++ r2).map digitVal, ?_, digits_digitVal hdigs, getLast?_of_trim ?_ hdigs, ?_, ?_, ?_, ?_⟩
          · rw [decStr, decBody_mixed hPpos (by simp; omega), ← List.map_take, ← List.map_drop,
              List.take_left, List.drop_left, chars_digitVal hdig, chars_digitVal hdig2, hs, ← hsplit, hR, hd]
          · rwa [List.getLast?_append_of_ne_nil _ hne]
          · exact ⟨digitVal c, (r.takeWhile isDigit ++ r2).map digitVal, by rw [hpre]; simp, hc0⟩
          · rw [List.length_map, List.length_append]
            omega
          · omega
          · omega
        · rw [hR] at hb
          simp at hb
      · rename_i hR
        simp only [Option.some.injEq, Prod.mk.injEq] at hb
        obtain ⟨-, rfl, hsig', hexp⟩ := hb
        have hbody : c :: r = P := by rw [← hsplit, hR, List.append_nil]
        obtain ⟨t, ht, htl⟩ := exists_trim P
        have hdt : ∀ x ∈ t, isDigit x = true := fun x hx => hdig x (by rw [ht]; exact List.mem_append_left _ hx)
        have hlen : P.length = t.length + zeroTail P 0 := by
          conv_lhs => rw [ht]
          simp
        have htne : t ≠ [] := by
          rintro rfl
          rw [List.nil_append] at ht
          have hmem : c ∈ List.replicate (zeroTail P 0) ascZero := by rw [← ht, hpre]; simp
          exact hc.2.ne (List.eq_of_mem_replicate hmem).symm
        have htpos : 0 < t.length := List.length_pos_iff.mpr htne
        refine ⟨P.length, t.map digitVal, ?_, digits_digitVal hdt, getLast?_of_trim htl hdt, ?_, ?_, ?_, ?_⟩
        · rw [decStr, decBody_integer (by omega) (by simp; omega), chars_digitVal hdt, List.length_map, hs, hbody]
          congr 1
          conv_lhs => rw [ht]
          congr 2
          omega
        · obtain ⟨x, t', rfl⟩ := List.exists_cons_of_ne_nil htne
          have hx : x = c := by
            rw [hpre] at ht
            simpa using (List.cons.inj ht).1.symm
          exact ⟨digitVal x, t'.map digitVal, rfl, by rw [hx]; exact hc0⟩
        · rw [List.length_map]
          omega
        · omega
        · omega
    · split at hb
      · rename_i hc
        -- the number starts with the decimal point
        simp only [Option.some.injEq, Prod.mk.injEq] at hb
        obtain ⟨hr2, rfl, hsig', hexp⟩ := hb
        obtain ⟨hl0, hld⟩ := hdot rfl
        have hsplit := List.takeWhile_append_dropWhile (p := (· = ascZero)) (l := r)
        have hzeros := takeWhile_zero r
        generalize hR : r.dropWhile (· = ascZero) = R at *
        generalize hk : (r.takeWhile (· = ascZero)).length = k at *
        rw [hzeros] at hsplit
        have hRd : R.takeWhile isDigit = R := by
          have := List.takeWhile_append_dropWhile (p := isDigit) (l := R)
          rwa [hr2, List.append_nil] at this
        have hdig : ∀ x ∈ R, isDigit x = true := by
          rw [← hRd]
          exact takeWhile_isDigit R
        have hne : R ≠ [] := by
          rintro rfl
          cases k with
          | zero =>
            apply hld
            rw [hlast [c] (by simp) ⟨[], by rw [← hsplit]; simp⟩, hc]
            rfl
          | succ k =>
            apply hl0
            rw [hlast [ascZero] (by simp) ⟨c :: List.replicate k ascZero, by rw [← hsplit, List.replicate_succ']; simp⟩]
            rfl
        rw [hlast R hne ⟨c :: List.replicate k ascZero, by rw [← hsplit]; simp⟩] at hl0
        refine ⟨-k, R.map digitVal, ?_, digits_digitVal hdig, getLast?_of_trim hl0 hdig, ?_, ?_, ?_, ?_⟩
        · rw [decStr, decBody_fraction, chars_digitVal hdig, hsplit, hs, hc]
        · obtain ⟨x, t, rfl⟩ := List.exists_cons_of_ne_nil hne
          refine ⟨digitVal x, t.map digitVal, rfl, ?_⟩
          intro h0
          have hx0 : x = ascZero := by
            rw [← digitChar_digitVal (hdig x (by simp)), h0]
            decide
          have := List.head?_dropWhile_not (fun y => decide (y = ascZero)) r
          rw [hR] at this
          simp [hx0] at this
        · rw [List.length_map]
          rw [hRd] at hsig'
          omega
        · omega
        · omega
      · simp at hb

end DecimalTextAux

/-- `val_iscan` accepts only `0` and canonical text. -/
theorem canonic_of_valIscanStr {s : List UInt8} (h : valIscanStr s = true) :
    s = [ascZero] ∨ ∃ neg e ds, s = decStr neg e ds ∧ Canonic e ds := by
  unfold valIscanStr at h
  split_ifs at h with h0 h1
  · exact Or.inl h1
  · refine Or.inr ?_
    cases s with
    | nil => simp at h0
    | cons c r =>
      simp only at h
      split at h
      · simp at h
      · rename_i rest dot sig exp hb
        simp only [Bool.not_eq_true', Bool.or_eq_false_iff, Bool.and_eq_false_iff, decide_eq_false_iff_not, ne_eq, not_not,
          not_lt, not_le] at h
        obtain ⟨⟨⟨⟨hrest, hdot⟩, hsig⟩, hlo⟩, hhi⟩ := h
        have hd : dot = true → (c :: r).getLast? ≠ some ascZero ∧ (c :: r).getLast? ≠ some ascDot := by
          intro hd
          simpa [hd] using hdot
        by_cases hc : c = ascMinus
        · exact ⟨true, iscanBody_canonic (by simp [hc]) hb hrest hd hsig hlo hhi⟩
        · rw [if_neg hc] at hb
          exact ⟨false, iscanBody_canonic (by simp) hb hrest hd hsig hlo hhi⟩

/-! ## Text from an integer part and a fraction -/

/-- The text of an integer part and a fraction, with a decimal point only in front of a fraction. -/
def decText (is fs : List ℕ) : List UInt8 := chars is ++ if fs = [] then [] else ascDot :: chars fs

/-- Text without a leading zero and without a trailing zero of the fraction is canonical text. -/
theorem decText_canonical {is fs : List ℕ} (hi : Digits 10 is) (hf : Digits 10 fs) (hlead : is.head? ≠ some 0)
    (htrim : Trimmed fs) (hne : is ≠ [] ∨ fs ≠ []) :
    ∃ e ds, decText is fs = decBody e ds ∧ Normal 10 e ds (frac 10 (is ++ fs) * 10 ^ is.length) := by
  have hnormal : ∀ (e : ℤ) (ds : List ℕ), Digits 10 ds → Trimmed ds → (∃ d t, ds = d :: t ∧ d ≠ 0) →
      frac 10 (is ++ fs) * 10 ^ is.length = frac 10 ds * 10 ^ e →
      Normal 10 e ds (frac 10 (is ++ fs) * 10 ^ is.length) := by
    rintro e ds hd ht ⟨d, t, rfl, hd0⟩ hval
    refine ⟨hd, ht, ?_, hval⟩
    have hd' : (1 : ℚ) ≤ d := by exact_mod_cast Nat.one_le_iff_ne_zero.mpr hd0
    have ht := frac_nonneg 10 t
    apply div_le_div_of_nonneg_right _ (by norm_num)
    linarith
  cases is with
  | nil =>
    -- a fraction: its leading zeros make the exponent
    have hfs : fs ≠ [] := hne.resolve_left (by simp)
    obtain ⟨k, ds, rfl, d, t, hds, hd0⟩ : ∃ k ds, fs = List.replicate k 0 ++ ds ∧ ∃ d t, ds = d :: t ∧ d ≠ 0 := by
      clear hnormal hlead hi hne
      induction fs with
      | nil => exact absurd rfl hfs
      | cons f fs ih =>
        by_cases h0 : f = 0
        · subst h0
          have hfs' : fs ≠ [] := by
            rintro rfl
            simp at htrim
          obtain ⟨k, ds, rfl, hds⟩ := ih (digits_cons.mp hf).2 htrim.tail hfs'
          exact ⟨k + 1, ds, rfl, hds⟩
        · exact ⟨0, f :: fs, rfl, f, fs, rfl, h0⟩
    have hdne : ds ≠ [] := by simp [hds]
    refine ⟨-k, ds, ?_, hnormal _ _ (digits_append.mp hf).2 ?_ ⟨d, t, hds, hd0⟩ ?_⟩
    · rw [decText, decBody_fraction, if_neg hfs, chars_append, chars_replicate]
      rfl
    · unfold Trimmed at htrim ⊢
      rwa [List.getLast?_append_of_ne_nil _ hdne] at htrim
    · rw [List.nil_append, List.length_nil, pow_zero, mul_one, frac_append, frac_replicate_zero, zero_add,
        List.length_replicate, zpow_neg, zpow_natCast, div_eq_mul_inv, Nat.cast_ofNat]
  | cons i is =>
    have hi0 : i ≠ 0 := by simpa using hlead
    by_cases hfs : fs = []
    · -- an integer: its trailing zeros are not digits of the number
      subst hfs
      obtain ⟨n, hn⟩ := exists_trim_append (i :: is)
      have hcons : trim (i :: is) = i :: trim is := trim_cons_of_ne fun h => hi0 (h i (by simp))
      have hlen : (i :: is).length = (trim (i :: is)).length + n := by
        conv_lhs => rw [hn]
        simp
      refine ⟨(i :: is).length, trim (i :: is), ?_, hnormal _ _ hi.trim (trim_trimmed _) ⟨i, trim is, hcons, hi0⟩ ?_⟩
      · rw [decText, decBody_integer (by simp) (by omega), if_pos rfl, List.append_nil]
        conv_lhs => rw [hn, chars_append, chars_replicate]
        congr 2
        omega
      · rw [List.append_nil, frac_trim, zpow_natCast]
    · refine ⟨(i :: is).length, i :: is ++ fs, ?_, hnormal _ _ (digits_append.mpr ⟨hi, hf⟩) (htrim.append hfs _)
        ⟨i, is ++ fs, rfl, hi0⟩ ?_⟩
      · have hpos := List.length_pos_iff.mpr hfs
        rw [decText, decBody_mixed (by simp) (by rw [List.length_append]; omega), if_neg hfs, List.take_left, List.drop_left]
      · rw [zpow_natCast]

/-- `decText is fs` is canonical text of the number `q`. -/
structure TextOf (q : ℚ) (is fs : List ℕ) : Prop where
  int_digits : Digits 10 is
  frac_digits : Digits 10 fs
  lead : is.head? ≠ some 0
  trimmed : Trimmed fs
  ne_nil : is ≠ [] ∨ fs ≠ []
  value : frac 10 (is ++ fs) * 10 ^ is.length = q

/-- A number has one canonical text. -/
theorem TextOf.unique {q : ℚ} {is fs is' fs' : List ℕ} (h : TextOf q is fs) (h' : TextOf q is' fs') : decText is fs = decText is' fs' := by
  obtain ⟨e, ds, ht, hn⟩ := decText_canonical h.int_digits h.frac_digits h.lead h.trimmed h.ne_nil
  obtain ⟨e', ds', ht', hn'⟩ := decText_canonical h'.int_digits h'.frac_digits h'.lead h'.trimmed h'.ne_nil
  rw [h.value] at hn
  rw [h'.value] at hn'
  obtain ⟨rfl, rfl⟩ := hn.unique (by norm_num) hn'
  rw [ht, ht']

end Gtm
