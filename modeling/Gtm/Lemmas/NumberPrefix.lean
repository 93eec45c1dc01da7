import Gtm.Lemmas.NumberStore

/-!
# Numbers as text

The text a number can be written as: signs, digits with at most one decimal point, and an exponent. The longest such text at the
start of a string leaves a rest that none of its parts can take in.
-/

namespace Gtm

open Positional Truncation DecimalTextAux

def signChar (minus : Bool) : UInt8 := if minus then ascMinus else ascPlus

/-- The parts of a number's text. A sign is `true` for a minus, and there is an exponent only behind a digit. -/
structure NumText where
  signs : List Bool
  int : List ℕ
  fraction : Option (List ℕ)
  exp : Option (Option Bool × List ℕ)
  int_digits : Digits 10 int
  fraction_digits : Digits 10 (fraction.getD [])
  exp_digits : ∀ e, exp = some e → Digits 10 e.2 ∧ e.2 ≠ []
  exp_behind : exp ≠ none → int ++ fraction.getD [] ≠ []

namespace NumText

def fractionText (t : NumText) : List UInt8 :=
  match t.fraction with
  | none => []
  | some ds => ascDot :: chars ds

def expText (t : NumText) : List UInt8 :=
  match t.exp with
  | none => []
  | some (sign, ds) => ascE :: ((sign.map signChar).toList ++ chars ds)

def text (t : NumText) : List UInt8 := t.signs.map signChar ++ (chars t.int ++ (t.fractionText ++ t.expText))

def neg (t : NumText) : Bool := t.signs.count true % 2 = 1

def mantissa (t : NumText) : ℚ := whole 10 t.int 0 + frac 10 (t.fraction.getD [])

def exponent (t : NumText) : ℤ :=
  match t.exp with
  | none => 0
  | some (sign, ds) => if sign = some true then -(whole 10 ds 0 : ℕ) else (whole 10 ds 0 : ℕ)

/-- The number the text denotes, with 18 digits of its mantissa. -/
def value (t : NumText) : ℚ := signed t.neg (truncSig 10 18 t.mantissa * 10 ^ t.exponent)

/-- The text is at the start of the string, and no longer one is. -/
def Longest (t : NumText) (s : List UInt8) : Prop := t.text <+: s ∧ ∀ t' : NumText, t'.text <+: s → t'.text.length ≤ t.text.length

/-- Every string starts with a longest text of a number. -/
theorem exists_longest (s : List UInt8) : ∃ t : NumText, t.Longest s := by
  have hempty : (⟨[], [], none, none, by simp, by simp, by simp, by simp⟩ : NumText).text <+: s := List.nil_prefix
  obtain ⟨t, ht, hmin⟩ := (measure fun t : NumText => s.length - t.text.length).wf.has_min {t | t.text <+: s} ⟨_, hempty⟩
  refine ⟨t, ht, fun t' ht' => ?_⟩
  have h := hmin t' ht'
  have hle := List.IsPrefix.length_le ht'
  change ¬ s.length - t'.text.length < s.length - t.text.length at h
  omega

section Boundary

variable {t : NumText} {rest : List UInt8} (h : t.Longest (t.text ++ rest))
include h

/-- The text goes no further into the rest. -/
theorem Longest.not_extends {u : NumText} {x : List UInt8} (hu : u.text = t.text ++ x) (hx : x <+: rest) : x = [] := by
  have hle := h.2 u (by rw [hu]; exact (List.prefix_append_right_inj _).mpr hx)
  rw [hu, List.length_append] at hle
  exact List.length_eq_zero_iff.mp (by omega)

theorem Longest.rest_digit {c : UInt8} (hc : rest.head? = some c) : isDigit c = false := by
  cases hd : isDigit c with
  | false => rfl
  | true =>
    have hx : [c] <+: rest := by
      obtain ⟨r, rfl⟩ : ∃ r, rest = c :: r := ⟨rest.tail, (List.cons_head?_tail hc).symm⟩
      exact ⟨r, rfl⟩
    have hlt := digitVal_lt hd
    have hchars : chars [digitVal c] = [c] := by simp [chars, digitChar_digitVal hd]
    exfalso
    obtain ⟨signs, int, fraction, exp, hint, hfrac, hexp, hbehind⟩ := t
    cases exp with
    | some e =>
      obtain ⟨sign, ds⟩ := e
      have hds := hexp _ rfl
      refine absurd (h.not_extends (u := ⟨signs, int, fraction, some (sign, ds ++ [digitVal c]), hint, hfrac, ?_, fun _ =>
        hbehind (by simp)⟩) (x := [c]) ?_ hx) (by simp)
      · rintro e ⟨⟩
        exact ⟨digits_append.mpr ⟨hds.1, by simpa using hlt⟩, by simp⟩
      · simp [text, expText, fractionText, chars_append, hchars]
    | none =>
      cases fraction with
      | some ds =>
        refine absurd (h.not_extends (u := ⟨signs, int, some (ds ++ [digitVal c]), none, hint, ?_, by simp, by simp⟩) (x := [c]) ?_
          hx) (by simp)
        · exact digits_append.mpr ⟨hfrac, by simpa using hlt⟩
        · simp [text, expText, fractionText, chars_append, hchars]
      | none =>
        refine absurd (h.not_extends (u := ⟨signs, int ++ [digitVal c], none, none, ?_, hfrac, by simp, by simp⟩) (x := [c]) ?_ hx)
          (by simp)
        · exact digits_append.mpr ⟨hint, by simpa using hlt⟩
        · simp [text, expText, fractionText, chars_append, hchars]

/-- A text without a point and an exponent is not followed by a point. -/
theorem Longest.rest_dot (hf : t.fraction = none) (he : t.exp = none) : rest.head? ≠ some ascDot := by
  intro hc
  obtain ⟨r, rfl⟩ : ∃ r, rest = ascDot :: r := ⟨rest.tail, (List.cons_head?_tail hc).symm⟩
  obtain ⟨signs, int, fraction, exp, hint, hfrac, hexp, hbehind⟩ := t
  obtain rfl : fraction = none := hf
  obtain rfl : exp = none := he
  refine absurd (h.not_extends (u := ⟨signs, int, some [], none, hint, by simp, by simp, by simp⟩) (x := [ascDot]) ?_ ⟨r, rfl⟩)
    (by simp)
  simp [text, expText, fractionText, chars]

/-- Signs alone are not followed by another sign. -/
theorem Longest.rest_sign (hi : t.int = []) (hf : t.fraction = none) (minus : Bool) : rest.head? ≠ some (signChar minus) := by
  intro hc
  obtain ⟨r, rfl⟩ : ∃ r, rest = signChar minus :: r := ⟨rest.tail, (List.cons_head?_tail hc).symm⟩
  obtain ⟨signs, int, fraction, exp, hint, hfrac, hexp, hbehind⟩ := t
  obtain rfl : fraction = none := hf
  obtain rfl : int = [] := hi
  cases exp with
  | some e => exact absurd rfl (hbehind (by simp))
  | none =>
    refine absurd (h.not_extends (u := ⟨signs ++ [minus], [], none, none, by simp, by simp, by simp, by simp⟩) (x := [signChar minus])
      ?_ ⟨r, rfl⟩) (by simp)
    simp [text, expText, fractionText, chars]

end Boundary

end NumText

end Gtm

/-!
## The text `s2n` reads

The exponent `s2n` finds behind the digits, the run of digits and points it skips, and what it stores for a string that starts with
the text of a number.
-/

namespace Gtm

open Positional Truncation DecimalTextAux StringToNumberAux NumberRoundTripAux NumberStoreAux

/-! ## Exponents -/

/-- A sign in front and what is behind it. -/
def unsigned : List UInt8 → Bool × List UInt8
  | [] => (false, [])
  | c :: r => if c = ascMinus then (true, r) else if c = ascPlus then (false, r) else (false, c :: r)

/-- The digits in front. -/
def leadDigits (r : List UInt8) : List ℕ := (r.takeWhile isDigit).map digitVal

/-- An exponent with its sign, of which the first three digits count. -/
def shortExp (minus : Bool) (ds : List ℕ) : ℤ :=
  let x : ℤ := whole 10 ((ds.dropWhile fun d => d = 0).take (maxDigitsInExp + 1)) 0
  if minus then -x else x

/-- The exponent in front of a string, zero if there is none. -/
def expRead : List UInt8 → ℤ
  | [] => 0
  | c :: r => if c = ascE then shortExp (unsigned r).1 (leadDigits (unsigned r).2) else 0

/-- What `s2n` skips behind a point that neither word has room for. -/
def digitOrDot (c : UInt8) : Bool := isDigit c || c = ascDot

namespace NumberPrefixAux

theorem s2nExpDigits_spec (r : List UInt8) (x n : ℕ) : (s2nExpDigits r x n).2 = (whole 10 ((leadDigits r).take (maxDigitsInExp + 1 - n)) x,
      n + min (maxDigitsInExp + 1 - n) (leadDigits r).length) := by
  induction r generalizing x n with
  | nil => simp [s2nExpDigits, leadDigits]
  | cons c r ih =>
    unfold s2nExpDigits
    cases hc : isDigit c with
    | false => simp [leadDigits, hc]
    | true =>
      have hlead : leadDigits (c :: r) = digitVal c :: leadDigits r := by simp [leadDigits, hc]
      rw [if_pos rfl, hlead]
      by_cases hn : maxDigitsInExp + 1 > n
      · obtain ⟨m, hm⟩ : ∃ m, maxDigitsInExp + 1 - n = m + 1 := ⟨maxDigitsInExp - n, by omega⟩
        rw [if_pos hn, ih, hm, show maxDigitsInExp + 1 - (n + 1) = m by omega, List.take_succ_cons, List.length_cons]
        refine Prod.ext rfl ?_
        omega
      · rw [if_neg hn, ih, show maxDigitsInExp + 1 - n = 0 by omega]
        simp

theorem leadDigits_zeros (d : List UInt8) : leadDigits (skipZeros d 0).1 = (leadDigits d).dropWhile (fun x => x = 0) ∧
      ((skipZeros d 0).2 = 0 → (leadDigits (skipZeros d 0).1) = leadDigits d) := by
  rcases hs : skipZeros d 0 with ⟨r, k⟩
  obtain ⟨rfl, hr⟩ := skipZeros_split hs
  have hall : leadDigits (List.replicate k ascZero ++ r) = List.replicate k 0 ++ leadDigits r := by
    unfold leadDigits
    rw [List.takeWhile_append_of_pos fun c hc => by rw [List.eq_of_mem_replicate hc]; rfl]
    simp [digitVal, ascZero]
  have hdrop : (leadDigits r).dropWhile (fun x => x = 0) = leadDigits r := by
    cases r with
    | nil => rfl
    | cons c r =>
      cases hc : isDigit c with
      | false => simp [leadDigits, hc]
      | true =>
        have hne : digitVal c ≠ 0 := by
          rw [Ne, ← digitChar_eq_zero_iff (digitVal_lt hc), digitChar_digitVal hc]
          simpa using hr
        simp [leadDigits, hc, hne]
  refine ⟨?_, ?_⟩
  · rw [hall, List.dropWhile_append_of_pos (by simp), hdrop]
  · rintro rfl
    rfl

/-- The exponent `s2n` adds. -/
theorem s2nExp_value (r : List UInt8) : (s2nExp r true).1 = expRead r := by
  match r with
  | [] => rfl
  | [c] => by_cases hc : c = ascE <;> simp [s2nExp, expRead, hc, unsigned, leadDigits, shortExp]
  | c :: s :: r =>
    by_cases hc : c = ascE
    · obtain ⟨minus, d, hu, hd⟩ : ∃ minus d, unsigned (s :: r) = (minus, d) ∧ (s = ascMinus ↔ minus = true) ∧
          (if s = ascMinus ∨ s = ascPlus then r else s :: r) = d := by
        by_cases hm : s = ascMinus
        · exact ⟨true, r, if_pos hm, by simp [hm], if_pos (Or.inl hm)⟩
        · by_cases hp : s = ascPlus
          · exact ⟨false, r, (if_neg hm).trans (if_pos hp), by simp [hm], if_pos (Or.inr hp)⟩
          · exact ⟨false, s :: r, (if_neg hm).trans (if_neg hp), by simp [hm], if_neg (by simp [hm, hp])⟩
      obtain ⟨hz, -⟩ := leadDigits_zeros d
      rcases hs : skipZeros d 0 with ⟨r1, k⟩
      have hspec := s2nExpDigits_spec r1 0 0
      rcases he : s2nExpDigits r1 0 0 with ⟨r2, x, n⟩
      rw [he] at hspec
      obtain ⟨hx, hn⟩ := Prod.ext_iff.mp hspec
      simp only [Nat.sub_zero, zero_add] at hx hn
      unfold s2nExp expRead shortExp
      simp only [hc, and_self, if_true, hu, hd.2, hs, he, ← hz, ← hx]
      by_cases hzero : n = 0 ∧ k = 0
      · have hnil : leadDigits r1 = [] := by
          apply List.length_eq_zero_iff.mp
          omega
        rw [if_pos hzero, hx, hnil]
        cases minus <;> rfl
      · rw [if_neg hzero]
        cases minus with
        | true => simp [hd.1.mpr rfl]
        | false => simp [mt hd.1.mp]
    · simp [s2nExp, expRead, hc]

/-! ## Signs and digits behind the words -/

theorem s2nSigns_chars (signs : List Bool) {r : List UInt8} (hr : ∀ minus, r.head? ≠ some (signChar minus)) (n : ℕ) :
    ∃ m, s2nSigns (signs.map signChar ++ r) n = (r, m) ∧ m % 2 = (n + signs.count true) % 2 := by
  induction signs generalizing n with
  | nil =>
    refine ⟨n, ?_, by simp⟩
    cases r with
    | nil => rfl
    | cons c r =>
      have hm : c ≠ ascMinus := fun h => hr true (by simp [h, signChar])
      have hp : c ≠ ascPlus := fun h => hr false (by simp [h, signChar])
      simp [s2nSigns, hm, hp]
  | cons minus signs ih =>
    cases minus with
    | true =>
      obtain ⟨m, hm, hpar⟩ := ih (n + 1)
      refine ⟨m, by simpa [s2nSigns, signChar] using hm, ?_⟩
      rw [hpar, List.count_cons_self]
      congr 1
      omega
    | false =>
      obtain ⟨m, hm, hpar⟩ := ih (n + 2)
      have hne : ¬ ascPlus = ascMinus := by decide
      refine ⟨m, by simpa [s2nSigns, signChar, hne] using hm, ?_⟩
      rw [List.count_cons_of_ne (by simp)]
      omega

theorem s2nExcess_run (r : List UInt8) (z : ℕ) : s2nExcess false r true z = (r.dropWhile digitOrDot, z) := by
  induction r with
  | nil => rfl
  | cons c r ih =>
    unfold s2nExcess
    by_cases hc : digitOrDot c
    · have hc' : (c = ascDot ∧ false = false) ∨ isDigit c = true := by
        simpa [digitOrDot, or_comm] using hc
      rw [if_pos hc', List.dropWhile_cons_of_pos hc]
      exact ih
    · have hc' : ¬ ((c = ascDot ∧ false = false) ∨ isDigit c = true) := by
        simpa [digitOrDot, or_comm, not_or] using hc
      rw [if_neg hc', List.dropWhile_cons_of_neg hc]

theorem s2nExcess_dot {ds : List ℕ} (hd : Digits 10 ds) {r : List UInt8} (hr : ∀ c, r.head? = some c → isDigit c = false) (z : ℕ) :
    s2nExcess true (chars ds ++ r) true z = (r, z) := by
  induction ds with
  | nil =>
    cases r with
    | nil => rfl
    | cons c r => simp [chars, s2nExcess, hr c rfl]
  | cons d ds ih =>
    obtain ⟨hlt, hd⟩ := digits_cons.mp hd
    have hcons : chars (d :: ds) ++ r = digitChar d :: (chars ds ++ r) := rfl
    rw [hcons, s2nExcess, if_pos (Or.inr (isDigit_digitChar hlt))]
    exact ih hd

theorem digitChar_ne_dot {d : ℕ} (h : d < 10) : digitChar d ≠ ascDot := by
  intro he
  have := isDigit_digitChar h
  rw [he] at this
  cases this

theorem s2nExcess_chars {ds : List ℕ} (hd : Digits 10 ds) (r : List UInt8) (z : ℕ) :
    s2nExcess false (chars ds ++ r) false z = s2nExcess false r false (z + ds.length) := by
  induction ds generalizing z with
  | nil => rfl
  | cons d ds ih =>
    obtain ⟨hlt, hd⟩ := digits_cons.mp hd
    have hcons : chars (d :: ds) ++ r = digitChar d :: (chars ds ++ r) := rfl
    rw [hcons, s2nExcess, if_pos (Or.inr (isDigit_digitChar hlt))]
    simp only [digitChar_ne_dot hlt, decide_false, Bool.or_self, Bool.false_eq_true, if_false]
    rw [ih hd, List.length_cons, add_assoc, add_comm 1]

theorem s2nExcess_stop {r : List UInt8} (hr : ∀ c, r.head? = some c → isDigit c = false) (hdot : r.head? ≠ some ascDot) (z : ℕ) :
    s2nExcess false r false z = (r, z) := by
  cases r with
  | nil => rfl
  | cons c r =>
    have hc : c ≠ ascDot := by simpa using hdot
    simp [s2nExcess, hc, hr c rfl]

theorem s2nExcess_point (r : List UInt8) (z : ℕ) : s2nExcess false (ascDot :: r) false z = (r.dropWhile digitOrDot, z) := by
  rw [s2nExcess]
  simpa using s2nExcess_run r z

/-! ## What is stored -/

/-- The two words hold the first 18 digits. -/
theorem words_floor {ds : List ℕ} (hd : Digits 10 ds) :
    ((word1 ds * 10 ^ 9 + word2 ds : ℕ) : ℚ) ≤ frac 10 ds * 10 ^ 18 ∧ frac 10 ds * 10 ^ 18 < (word1 ds * 10 ^ 9 + word2 ds : ℕ) + 1 := by
  have hsplit : frac 10 ds * 10 ^ 18 = (word1 ds * 10 ^ 9 + word2 ds : ℕ) + frac 10 (ds.drop 18) := by
    have h1 : frac 10 ds = frac 10 (ds.take 18) + frac 10 (ds.drop 18) / 10 ^ 18 := by
      rcases le_or_gt 18 ds.length with hlen | hlen
      · conv_lhs => rw [← List.take_append_drop 18 ds, frac_append, List.length_take, Nat.min_eq_left hlen]
        norm_num
      · rw [List.take_of_length_le hlen.le, List.drop_eq_nil_of_le hlen.le]
        simp
    have h2 : frac 10 (ds.take 18) = ((word1 (ds.take 18) * 10 ^ 9 + word2 (ds.take 18) : ℕ) : ℚ) / 10 ^ 18 :=
      words_eq (by rw [List.drop_eq_nil_of_le (by simp)]; rfl)
    have hw1 : word1 (ds.take 18) = word1 ds := by
      have hlen : 9 - min 18 ds.length = 9 - ds.length := by omega
      simp only [word1, List.take_take, List.length_take, hlen]
      rfl
    have hw2 : word2 (ds.take 18) = word2 ds := by
      have hlen : 9 - min 9 (ds.length - 9) = 9 - (ds.length - 9) := by omega
      simp only [word2, word1, List.drop_take, List.take_take, List.length_take, List.length_drop, hlen]
      rfl
    rw [h1, h2, hw1, hw2]
    ring
  have hlt := frac_lt_one (B := 10) (by norm_num) (fun d h => hd d (List.mem_of_mem_drop h) : Digits 10 (ds.drop 18))
  have hnn := frac_nonneg 10 (ds.drop 18)
  exact ⟨by linarith, by linarith⟩

/-- The outcome of `s2n` for an arithmetic routine. -/
def stored (res : Except NumErr Mval) : Except ArithErr Mval :=
  match res with
  | .ok v => .ok v
  | .error _ => .error .numoflow

/-- The words of a number with a leading digit are a normalised mantissa. -/
theorem words_normal {ds : List ℕ} (hd : Digits 10 ds) (hlead : 1 / 10 ≤ frac 10 ds) : (⟨word1 ds, word2 ds⟩ : Mantissa).Normal := by
  have h1 : word1 ds < 1000000000 := word1_lt hd
  have h2 : word2 ds < 1000000000 := word1_lt fun d h => hd d (List.mem_of_mem_drop h)
  have hlo := (words_floor hd).2
  have hN : 10 ^ 17 < word1 ds * 10 ^ 9 + word2 ds + 1 := by
    have : (10 : ℚ) ^ 17 < (word1 ds * 10 ^ 9 + word2 ds : ℕ) + 1 := lt_of_le_of_lt (by linarith) hlo
    exact_mod_cast this
  refine ⟨⟨?_, ?_, ?_, ?_⟩, ?_⟩ <;> simp only <;> omega

/-- What `s2n` stores for digits with an exponent: the number with 18 of the digits. -/
theorem s2nStore_stored {ds : List ℕ} (hd : Digits 10 ds) (hlead : 1 / 10 ≤ frac 10 ds) {u : Mval} (hu : u.mvtype.int = false)
    (sign : ℕ) (x : ℤ) (approx : Bool) : Stored (signed (sign % 2 = 1) ((⟨word1 ds, word2 ds⟩ : Mantissa).val * (10 : ℚ) ^ (x - 18)))
      (stored (s2nStore u (whole 10 (ds.take 9) 0) (word2 ds) (9 - ds.length) (zeroRun (ds.take 9) 0) sign x approx)) := by
  have hw := words_normal hd hlead
  have hexp := expOf_mant hw (sign % 2 = 1) x
  have hne := mant_ne_zero hw (sign % 2 = 1) (x - 18)
  have hword : whole 10 (ds.take 9) 0 * tenPwr (9 - ds.length) = word1 ds := rfl
  have hval : (⟨word1 ds, word2 ds⟩ : Mantissa).val = (word1 ds * 1000000000 + word2 ds : ℕ) := by simp [Mantissa.val]
  have h1 : word1 ds < mantHi := word1_lt hd
  have h2 : word2 ds < mantHi := word1_lt fun d h => hd d (List.mem_of_mem_drop h)
  have hl : mantLo ≤ word1 ds := by
    have := hw.m1_lead
    simp only at this
    exact_mod_cast this
  rcases hst : s2nStore u (whole 10 (ds.take 9) 0) (word2 ds) (9 - ds.length) (zeroRun (ds.take 9) 0) sign x approx with err | v
  · refine ⟨rfl, hne, ?_⟩
    unfold s2nStore at hst
    simp only at hst
    split at hst
    · cases hst
    · split at hst
      · cases hst
      · split at hst
        · next hhi =>
          omega
        · cases hst
  · have hvalid := s2nStore_valid hst hu (by rwa [hword]) h2 (Or.inr (by rwa [hword]))
    obtain ⟨-, -, hnm, -⟩ := s2nStore_again hst
    have hnum : v.Number := ⟨hnm, hvalid⟩
    refine ⟨hnum, ?_⟩
    unfold s2nStore at hst
    simp only [hword] at hst
    split at hst
    · next hint =>
      obtain ⟨hm0, -, hi⟩ := hint
      have hth := s2nThousandths_eq (pow_zeroRun_dvd (ds.take 9)) hi
      right
      have hv : v.numVal = signed (sign % 2 = 1) ((⟨word1 ds, word2 ds⟩ : Mantissa).val * (10 : ℚ) ^ (x - 18)) := by
        cases hst
        rw [numVal_int rfl, hval, hm0]
        have hscale : (s2nThousandths (whole 10 (ds.take 9) 0) (x + (9 - ds.length : ℕ) - 6) : ℚ) / 1000 =
            ((word1 ds * 1000000000 + 0 : ℕ) : ℚ) * 10 ^ (x - 18) := by
          rw [hth, ← hword, tenPwr]
          rw [show x + (9 - ds.length : ℕ) - 6 = (x - 18) + 12 + (9 - ds.length : ℕ) by ring, zpow_add₀ (by norm_num),
            zpow_add₀ (by norm_num), zpow_natCast]
          norm_num
          ring
        push_cast at hscale
        cases decide (sign % 2 = 1) with
        | true =>
          simp only [if_true, signed_true]
          push_cast
          rw [neg_div, hscale]
        | false =>
          simp only [Bool.false_eq_true, if_false, signed_false]
          push_cast
          rw [hscale]
      have hfit : FitsInt v.numVal := by
        cases hst
        exact ⟨_, hnum.int_bound rfl, numVal_int rfl⟩
      obtain ⟨m, hm, hmv⟩ := hfit
      have hm0' : m ≠ 0 := by
        rintro rfl
        rw [hv] at hmv
        exact hne (by simpa using hmv)
      have hrange := expOf_thousandths hm hm0'
      rw [← hmv, hv] at hrange
      refine ⟨?_, hv⟩
      simp only [expLo, expHi, mvXbias]
      omega
    · split at hst
      · next hlow =>
        cases hst
        refine Or.inl ⟨Or.inr ?_, by rw [numVal_int rfl]; simp⟩
        have : word1 ds ≠ 0 := by
          simp only [mantLo] at hl
          omega
        omega
      · next hlow =>
        split at hst
        · cases hst
        · next hhi =>
          refine Or.inr ⟨by omega, ?_⟩
          have hvi : v.mvtype.int = false := by
            cases hst
            exact hu
          have he : (v.e : ℤ) = x + mvXbias := by
            cases hst
            simp only [expLo] at hlow ⊢
            omega
          have hsgn : v.sgn = decide (sign % 2 = 1) := by
            cases hst
            rfl
          have hmant : v.mant = ⟨word1 ds, word2 ds⟩ := by
            cases hst
            rfl
          rw [numVal_mant hvi, he, hsgn, hmant, show x + (mvXbias : ℤ) - mvXbias - 18 = x - 18 by ring]

end NumberPrefixAux

namespace NumText

/-- The digits from the first that is not zero. -/
def digits (t : NumText) : List ℕ := (t.int ++ t.fraction.getD []).dropWhile fun d => d = 0

/-- The exponent of the first of these digits. -/
def place (t : NumText) : ℤ := t.digits.length - (t.fraction.getD []).length

/-- The digits of the integer part from the first that is not zero. -/
def intDigits (t : NumText) : List ℕ := t.int.dropWhile fun d => d = 0

/-- Where `s2n` looks for an exponent. A point behind 18 digits is not taken note of, so that further points and digits are skipped
behind it. -/
def behind (t : NumText) (rest : List UInt8) : List UInt8 :=
  if t.fraction ≠ none ∧ 18 ≤ t.intDigits.length then (t.expText ++ rest).dropWhile digitOrDot
  else t.expText ++ rest

/-- The exponent `s2n` takes. -/
def expSeen (t : NumText) (rest : List UInt8) : ℤ := expRead (t.behind rest)

end NumText

namespace NumberPrefixAux

/-! ## The whole string -/

theorem forceNum_ofStr (s : List UInt8) : forceNum (Mval.ofStr s) = stored ((s2n (Mval.ofStr s)).map S2nResult.mval) := by
  rw [forceNum, mvForceNum, if_neg (show ¬(Mval.ofStr s).mvtype.nm = true from Bool.false_ne_true)]
  rcases s2n (Mval.ofStr s) with ⟨⟨⟩⟩ | r <;> rfl

/-- `s2n` through its parts. -/
theorem s2n_run {s r1 r2 r4 r5 : List UInt8} {sign nzero lead z : ℕ} {dot : Bool} {mant : S2nMantissa} (hs : s ≠ [])
    (hsigns : s2nSigns s 0 = (r1, sign)) (hzero : skipZeros r1 0 = (r2, nzero)) (hdot : decide (r2.head? = some ascDot) = dot)
    (hlead : skipZeros (if dot = true then r2.tail else r2) 0 = (r4, lead)) (hmant : s2nMantissa r4 (-lead) dot = mant)
    (hex : s2nExcess mant.dot mant.rest mant.dot mant.z = (r5, z)) (hdigit : z ≠ 0 ∨ mant.y ≠ 0) :
    ∃ approx, forceNum (Mval.ofStr s) = stored (s2nStore (Mval.ofStr s) mant.m1 mant.m0 mant.k mant.i sign
      (expRead r5 + if mant.dot = true then mant.y else z) approx) := by
  have hdig : (decide (z ≠ 0) || decide (mant.y ≠ 0) || decide (nzero ≠ 0)) = true := by
    rcases hdigit with h | h <;> simp [h]
  have hrun : ∃ approx rest intlit, s2n (Mval.ofStr s) = (s2nStore (Mval.ofStr s) mant.m1 mant.m0 mant.k mant.i sign
      ((s2nExp r5 true).1 + if mant.dot = true then mant.y else z) approx).map fun v => ⟨v, rest, intlit⟩ := by
    refine ⟨decide (mant.rest ≠ []) || (mant.dot && (decide (s.getLast? = some ascZero) || decide (s.getLast? = some ascDot))) ||
      decide (1 < sign) || (decide (nzero ≠ 0) && decide (s.length ≠ 1)), (s2nExp r5 true).2.1,
      decide (sign ≠ 0) || mant.dot || (s2nExp r5 true).2.2, ?_⟩
    unfold s2n
    rw [if_neg (show ¬ (Mval.ofStr s).str = [] from hs)]
    simp only [show (Mval.ofStr s).str = s from rfl, hsigns, hzero, hdot, hlead, hmant, hex, hdig, if_true]
  obtain ⟨approx, rest, intlit, hrun⟩ := hrun
  refine ⟨approx, ?_⟩
  rw [forceNum_ofStr, hrun, s2nExp_value]
  rcases s2nStore (Mval.ofStr s) mant.m1 mant.m0 mant.k mant.i sign (expRead r5 + if mant.dot = true then mant.y else z) approx with
    err | v <;> rfl

/-- A string without a digit other than zero in front is stored as zero. -/
theorem s2n_run_zero {s r1 r2 r4 : List UInt8} {sign nzero lead : ℕ} {dot : Bool} {mant : S2nMantissa} (hs : s ≠ [])
    (hsigns : s2nSigns s 0 = (r1, sign)) (hzero : skipZeros r1 0 = (r2, nzero)) (hdot : decide (r2.head? = some ascDot) = dot)
    (hlead : skipZeros (if dot = true then r2.tail else r2) 0 = (r4, lead)) (hmant : s2nMantissa r4 (-lead) dot = mant)
    (hm1 : mant.m1 = 0) : ∃ v, forceNum (Mval.ofStr s) = .ok v ∧ v.Number ∧ v.numVal = 0 := by
  have hzero' : ∀ v : Mval, v.mvtype.nm = true → v.mvtype.int = true → v.m1 = 0 → v.Number ∧ v.numVal = 0 := by
    intro v hnm hint hm
    refine ⟨⟨hnm, ?_⟩, by rw [numVal_int hint, hm]; simp⟩
    unfold Mval.NumValid
    rw [if_pos hint, hm]
    decide
  have hstore : ∀ m0 k i sign x approx, ∃ v, s2nStore (Mval.ofStr s) 0 m0 k i sign x approx = .ok v ∧ v.Number ∧ v.numVal = 0 := by
    intro m0 k i sign x approx
    unfold s2nStore
    simp only [Nat.zero_mul, or_true, if_true]
    split
    · have hth : ∀ j, s2nThousandths 0 j = 0 := by
        intro j
        unfold s2nThousandths
        split <;> simp
      exact ⟨_, rfl, hzero' _ rfl rfl (by simp [hth])⟩
    · exact ⟨_, rfl, hzero' _ rfl rfl rfl⟩
  rcases hx : s2nExcess mant.dot mant.rest mant.dot mant.z with ⟨r5, z⟩
  rw [forceNum_ofStr]
  unfold s2n
  rw [if_neg (show ¬ (Mval.ofStr s).str = [] from hs)]
  simp only [show (Mval.ofStr s).str = s from rfl, hsigns, hzero, hdot, hlead, hmant, hx, hm1]
  split
  · obtain ⟨v, hv, hnum, hval⟩ := hstore mant.m0 mant.k mant.i sign _ _
    exact ⟨v, by rw [hv]; rfl, hnum, hval⟩
  · exact ⟨_, rfl, hzero' _ rfl rfl rfl⟩

/-- The digits of a text start with one that is not zero. -/
theorem digits_spec {t : NumText} (hne : t.digits ≠ []) : Digits 10 t.digits ∧ 1 / 10 ≤ frac 10 t.digits := by
  have hall : Digits 10 t.digits := fun d hd => digits_append.mpr ⟨t.int_digits, t.fraction_digits⟩ d ((List.dropWhile_sublist _).subset hd)
  refine ⟨hall, ?_⟩
  have hhead := List.head?_dropWhile_not (fun d : ℕ => decide (d = 0)) (t.int ++ t.fraction.getD [])
  rw [show (t.int ++ t.fraction.getD []).dropWhile (fun d => decide (d = 0)) = t.digits from rfl] at hhead
  cases hD : t.digits with
  | nil => exact absurd hD hne
  | cons d ds =>
    rw [hD] at hhead hall
    have hd : d ≠ 0 := by simpa using hhead
    have hone : (1 : ℚ) ≤ d := by exact_mod_cast Nat.one_le_iff_ne_zero.mpr hd
    have := frac_nonneg 10 ds
    rw [frac_cons]
    linarith

/-! ## The text in front of the string -/

/-- What `s2n` does with the digits and the exponent it takes. -/
def Runs (t : NumText) (rest : List UInt8) : Prop := ∃ sign approx, sign % 2 = t.signs.count true % 2 ∧
  forceNum (Mval.ofStr (t.text ++ rest)) = stored (s2nStore (Mval.ofStr (t.text ++ rest)) (whole 10 (t.digits.take 9) 0)
    (word2 t.digits) (9 - t.digits.length) (zeroRun (t.digits.take 9) 0) sign (t.expSeen rest + t.place) approx)

section Run

variable {t : NumText} {rest : List UInt8} (h : t.Longest (t.text ++ rest))
include h

/-- What follows the digits of the text is no digit. -/
theorem behind_digit : ∀ c, (t.expText ++ rest).head? = some c → isDigit c = false := by
  intro c hc
  unfold NumText.expText at hc
  cases he : t.exp with
  | none =>
    rw [he] at hc
    exact h.rest_digit hc
  | some e =>
    rw [he] at hc
    cases hc
    decide

theorem fraction_digit : ∀ c, (t.fractionText ++ (t.expText ++ rest)).head? = some c → isDigit c = false := by
  intro c hc
  unfold NumText.fractionText at hc
  cases hf : t.fraction with
  | none =>
    rw [hf] at hc
    exact behind_digit h c hc
  | some ds =>
    rw [hf] at hc
    cases hc
    decide

/-- What follows the digits of a text without a point is no point. -/
theorem behind_dot (hf : t.fraction = none) : (t.expText ++ rest).head? ≠ some ascDot := by
  unfold NumText.expText
  cases he : t.exp with
  | none => exact h.rest_dot hf he
  | some e => exact fun hc => by cases hc

theorem signs_end : ∀ minus, (chars t.int ++ (t.fractionText ++ (t.expText ++ rest))).head? ≠ some (signChar minus) := by
  intro minus hc
  cases hi : t.int with
  | cons d ds =>
    have hd := isDigit_digitChar (t.int_digits d (by simp [hi]))
    rw [hi] at hc
    have : digitChar d = signChar minus := by simpa [chars] using hc
    rw [this] at hd
    cases minus <;> cases hd
  | nil =>
    unfold NumText.fractionText at hc
    cases hf : t.fraction with
    | some ds =>
      rw [hi, hf] at hc
      cases minus <;> cases hc
    | none =>
      have he : t.exp = none := by
        by_contra hne
        exact t.exp_behind hne (by simp [hi, hf])
      rw [hi, hf] at hc
      unfold NumText.expText at hc
      rw [he] at hc
      exact h.rest_sign hi hf minus hc

/-- The signs of the text and the zeros behind them. -/
theorem head_run : ∃ sign nzero, sign % 2 = t.signs.count true % 2 ∧
    s2nSigns (t.text ++ rest) 0 = (chars t.int ++ (t.fractionText ++ (t.expText ++ rest)), sign) ∧
    skipZeros (chars t.int ++ (t.fractionText ++ (t.expText ++ rest))) 0 =
      (chars t.intDigits ++ (t.fractionText ++ (t.expText ++ rest)), nzero) := by
  obtain ⟨sign, hsign, hpar⟩ := s2nSigns_chars t.signs (signs_end h) 0
  refine ⟨sign, _, by rw [hpar, zero_add], ?_, skipZeros_chars t.int_digits (fraction_digit h) 0⟩
  rw [← hsign]
  simp only [NumText.text, List.append_assoc]

/-- A text of zeros is stored as zero. -/
theorem forceNum_zero (hz : t.digits = []) : ∃ v, forceNum (Mval.ofStr (t.text ++ rest)) = .ok v ∧ v.Number ∧ v.numVal = 0 := by
  by_cases hs : t.text ++ rest = []
  · rw [hs]
    refine ⟨_, rfl, ⟨rfl, by decide⟩, ?_⟩
    rw [numVal_int rfl]
    norm_num
  obtain ⟨sign, nzero, -, hsigns, hzero⟩ := head_run h
  have hall : ∀ d ∈ t.int ++ t.fraction.getD [], d = 0 := by
    have := List.dropWhile_eq_nil_iff.mp hz
    simpa using this
  have hint : t.intDigits = [] := List.dropWhile_eq_nil_iff.mpr fun d hd => by simpa using hall d (List.mem_append_left _ hd)
  rw [hint, chars_nil] at hzero
  have hmant : ∀ y dot, (dot = true ∨ (t.expText ++ rest).head? ≠ some ascDot) →
      (s2nMantissa (chars [] ++ (t.expText ++ rest)) y dot).m1 = 0 := by
    intro y dot hdot
    rw [s2nMantissa_run (digits_nil 10) (behind_digit h) y dot (hdot.imp_right Or.inl)]
    rfl
  cases hf : t.fraction with
  | none =>
    have hnodot := behind_dot h hf
    have hR : t.fractionText ++ (t.expText ++ rest) = t.expText ++ rest := by simp [NumText.fractionText, hf]
    have hskip : skipZeros (t.expText ++ rest) 0 = (t.expText ++ rest, 0) :=
      skipZeros_of_head fun hc => absurd (behind_digit h _ hc) (by decide)
    rw [hR] at hzero hsigns
    have hhead : decide ((t.expText ++ rest).head? = some ascDot) = false := decide_eq_false hnodot
    exact s2n_run_zero hs hsigns hzero hhead hskip rfl (hmant _ false (Or.inr hnodot))
  | some ds =>
    have hds : Digits 10 ds := by simpa [hf] using t.fraction_digits
    have hR : t.fractionText ++ (t.expText ++ rest) = ascDot :: (chars ds ++ (t.expText ++ rest)) := by
      simp [NumText.fractionText, hf]
    have hnil : (ds.dropWhile fun d => d = 0) = [] :=
      List.dropWhile_eq_nil_iff.mpr fun d hd => by simpa using hall d (List.mem_append_right _ (by simpa [hf] using hd))
    have hskip := skipZeros_chars hds (behind_digit h) 0
    rw [hnil] at hskip
    exact s2n_run_zero hs hsigns hzero (by simp [hR]) (by rw [hR]; exact hskip) rfl (hmant _ true (Or.inl rfl))

omit h in
theorem ne_nil_of_digits (hne : t.digits ≠ []) : t.text ++ rest ≠ [] := by
  intro hnil
  obtain ⟨htext, -⟩ := List.append_eq_nil_iff.mp hnil
  simp only [NumText.text, List.append_eq_nil_iff, chars_eq_nil] at htext
  obtain ⟨-, hint, hfrac, -⟩ := htext
  apply hne
  unfold NumText.digits
  cases hf : t.fraction with
  | none => simp [hint]
  | some ds => simp [NumText.fractionText, hf] at hfrac

omit h in
theorem intDigits_digits (t : NumText) : Digits 10 t.intDigits := fun d hd => t.int_digits d ((List.dropWhile_sublist _).subset hd)

omit h in
theorem digits_of_int (hA : t.intDigits ≠ []) : t.digits = t.intDigits ++ t.fraction.getD [] := by
  have h : (t.int ++ t.fraction.getD []).dropWhile (fun d : ℕ => decide (d = 0)) = _ := List.dropWhile_append
  change t.digits = if t.intDigits.isEmpty = true then _ else t.intDigits ++ t.fraction.getD [] at h
  rwa [if_neg (by simpa using hA)] at h

omit h in
theorem digits_of_fraction (hA : t.intDigits = []) : t.digits = (t.fraction.getD []).dropWhile fun d => d = 0 := by
  have h : (t.int ++ t.fraction.getD []).dropWhile (fun d : ℕ => decide (d = 0)) = _ := List.dropWhile_append
  change t.digits = if t.intDigits.isEmpty = true then _ else t.intDigits ++ t.fraction.getD [] at h
  rwa [if_pos (by simp [hA])] at h

omit h in
/-- The digits of the integer part start with neither a zero nor a point. -/
theorem intDigits_head (hA : t.intDigits ≠ []) (r : List UInt8) : decide ((chars t.intDigits ++ r).head? = some ascDot) = false ∧
      skipZeros (chars t.intDigits ++ r) 0 = (chars t.intDigits ++ r, 0) := by
  have hhead := List.head?_dropWhile_not (fun d : ℕ => decide (d = 0)) t.int
  rw [show t.int.dropWhile (fun d => decide (d = 0)) = t.intDigits from rfl] at hhead
  have hdigits := intDigits_digits t
  cases hi : t.intDigits with
  | nil => exact absurd hi hA
  | cons d ds =>
    rw [hi] at hhead hdigits
    have hlt := (digits_cons.mp hdigits).1
    have hd0 : d ≠ 0 := by simpa using hhead
    refine ⟨decide_eq_false fun hc => digitChar_ne_dot hlt (Option.some.inj hc), skipZeros_of_head fun hc => ?_⟩
    exact hd0 ((digitChar_eq_zero_iff hlt).mp (Option.some.inj hc))

section
variable (hne : t.digits ≠ [])
include hne

/-- An integer part alone. -/
theorem runs_integer (hf : t.fraction = none) : Runs t rest := by
  obtain ⟨sign, nzero, hpar, hsigns, hzero⟩ := head_run h
  have hR : t.fractionText ++ (t.expText ++ rest) = t.expText ++ rest := by simp [NumText.fractionText, hf]
  have hA : t.intDigits ≠ [] := by
    intro hnil
    apply hne
    rw [digits_of_fraction hnil, hf]
    rfl
  have hD : t.digits = t.intDigits := by
    rw [digits_of_int hA, hf]
    simp
  have hplace : t.place = t.digits.length := by simp [NumText.place, hf]
  have hexp : t.expSeen rest = expRead (t.expText ++ rest) := by simp [NumText.expSeen, NumText.behind, hf]
  rw [hR] at hzero hsigns
  obtain ⟨hdot, hskip⟩ := intDigits_head hA (t.expText ++ rest)
  have hdigits := intDigits_digits t
  rw [← hD] at hzero hdot hskip hdigits
  have hmant := s2nMantissa_run hdigits (behind_digit h) (-((0 : ℕ) : ℤ)) false (Or.inr (Or.inl (behind_dot h hf)))
  have hle := length_excess_le t.digits
  have hex : s2nExcess false (chars (excess t.digits) ++ (t.expText ++ rest)) false (t.digits.length - (excess t.digits).length) =
      (t.expText ++ rest, t.digits.length) := by
    rw [s2nExcess_chars (excess_digits hdigits), s2nExcess_stop (behind_digit h) (behind_dot h hf), Nat.sub_add_cancel (by omega)]
  obtain ⟨approx, hrun⟩ := s2n_run (ne_nil_of_digits hne) hsigns hzero hdot hskip hmant hex
    (Or.inl (List.length_pos_iff.mpr hne).ne')
  refine ⟨sign, approx, hpar, ?_⟩
  rw [hplace, hexp]
  exact hrun

/-- A fraction with nothing but zeros before the point. -/
theorem runs_fraction (hA : t.intDigits = []) : Runs t rest := by
  obtain ⟨sign, nzero, hpar, hsigns, hzero⟩ := head_run h
  have hD := digits_of_fraction hA
  cases hf : t.fraction with
  | none =>
    rw [hf] at hD
    exact absurd hD hne
  | some ds =>
    rw [hf, Option.getD_some] at hD
    have hds : Digits 10 ds := by simpa [hf] using t.fraction_digits
    have hR : t.fractionText ++ (t.expText ++ rest) = ascDot :: (chars ds ++ (t.expText ++ rest)) := by
      simp [NumText.fractionText, hf]
    have hexp : t.expSeen rest = expRead (t.expText ++ rest) := by simp [NumText.expSeen, NumText.behind, hA]
    have hskip := skipZeros_chars hds (behind_digit h) 0
    have hdigits : Digits 10 t.digits := (digits_spec hne).1
    rw [hR] at hzero hsigns
    rw [hA, chars_nil] at hzero
    rw [← hD, zero_add] at hskip
    have hdot : decide ((ascDot :: (chars ds ++ (t.expText ++ rest))).head? = some ascDot) = true := by simp
    have hmant := s2nMantissa_run hdigits (behind_digit h) (-((ds.length - t.digits.length : ℕ) : ℤ)) true (Or.inl rfl)
    have hex := s2nExcess_dot (excess_digits hdigits) (behind_digit h) (t.digits.length - (excess t.digits).length)
    have hle := length_excess_le t.digits
    have hpos := List.length_pos_iff.mpr hne
    have hlen : t.digits.length ≤ ds.length := by
      rw [hD]
      exact (List.dropWhile_sublist _).length_le
    obtain ⟨approx, hrun⟩ := s2n_run (ne_nil_of_digits hne) hsigns hzero hdot hskip hmant hex (Or.inl (by omega))
    have hplace : t.place = -((ds.length - t.digits.length : ℕ) : ℤ) := by
      simp only [NumText.place, hf, Option.getD_some]
      omega
    refine ⟨sign, approx, hpar, ?_⟩
    rw [hplace, hexp]
    exact hrun

/-- A decimal point behind fewer than 18 digits. -/
theorem runs_point (hA : t.intDigits ≠ []) {ds : List ℕ} (hf : t.fraction = some ds) (hlen : t.intDigits.length < 18) : Runs t rest := by
  obtain ⟨sign, nzero, hpar, hsigns, hzero⟩ := head_run h
  have hD := digits_of_int hA
  rw [hf, Option.getD_some] at hD
  have hds : Digits 10 ds := by simpa [hf] using t.fraction_digits
  have hR : t.fractionText ++ (t.expText ++ rest) = ascDot :: (chars ds ++ (t.expText ++ rest)) := by
    simp [NumText.fractionText, hf]
  have hexp : t.expSeen rest = expRead (t.expText ++ rest) := by
    have : ¬ 18 ≤ t.intDigits.length := by omega
    simp [NumText.expSeen, NumText.behind, this]
  have hdigits : Digits 10 t.digits := (digits_spec hne).1
  rw [hR] at hzero hsigns
  obtain ⟨hdot, hskip⟩ := intDigits_head hA (ascDot :: (chars ds ++ (t.expText ++ rest)))
  obtain ⟨z, hz, hmant⟩ := s2nMantissa_point (intDigits_digits t) hds hlen (behind_digit h) (-((0 : ℕ) : ℤ))
  rw [← hD] at hmant
  have hex := s2nExcess_dot (excess_digits hdigits) (behind_digit h) z
  have hpos := List.length_pos_iff.mpr hA
  obtain ⟨approx, hrun⟩ := s2n_run (ne_nil_of_digits hne) hsigns hzero hdot hskip hmant hex (Or.inl (by omega))
  have hplace : t.place = t.intDigits.length := by
    simp only [NumText.place, hf, Option.getD_some, hD, List.length_append]
    omega
  refine ⟨sign, approx, hpar, ?_⟩
  rw [hplace, hexp]
  exact hrun

/-- A decimal point behind 18 digits or more. -/
theorem runs_late (hA : t.intDigits ≠ []) {ds : List ℕ} (hf : t.fraction = some ds) (hlen : 18 ≤ t.intDigits.length) : Runs t rest := by
  obtain ⟨sign, nzero, hpar, hsigns, hzero⟩ := head_run h
  have hD := digits_of_int hA
  rw [hf, Option.getD_some] at hD
  have hds : Digits 10 ds := by simpa [hf] using t.fraction_digits
  have hR : t.fractionText ++ (t.expText ++ rest) = ascDot :: (chars ds ++ (t.expText ++ rest)) := by
    simp [NumText.fractionText, hf]
  have hexp : t.expSeen rest = expRead ((chars ds ++ (t.expText ++ rest)).dropWhile digitOrDot) := by
    rw [List.dropWhile_append_of_pos fun c hc => by simp [digitOrDot, isDigit_of_mem_chars hds hc]]
    simp [NumText.expSeen, NumText.behind, hf, hlen]
  have hintd := intDigits_digits t
  rw [hR] at hzero hsigns
  obtain ⟨hdot, hskip⟩ := intDigits_head hA (ascDot :: (chars ds ++ (t.expText ++ rest)))
  have hstop : ∀ c, (ascDot :: (chars ds ++ (t.expText ++ rest))).head? = some c → isDigit c = false := by
    rintro c ⟨⟩
    decide
  have hmant := s2nMantissa_run hintd hstop (-((0 : ℕ) : ℤ)) false (Or.inr (Or.inr hlen))
  have hle := length_excess_le t.intDigits
  have hex : s2nExcess false (chars (excess t.intDigits) ++ ascDot :: (chars ds ++ (t.expText ++ rest))) false
      (t.intDigits.length - (excess t.intDigits).length) =
        ((chars ds ++ (t.expText ++ rest)).dropWhile digitOrDot, t.intDigits.length) := by
    rw [s2nExcess_chars (excess_digits hintd), s2nExcess_point, Nat.sub_add_cancel (by omega)]
  obtain ⟨approx, hrun⟩ := s2n_run (ne_nil_of_digits hne) hsigns hzero hdot hskip hmant hex (Or.inl (by omega))
  -- the words are read from the integer part alone
  have htake : t.digits.take 9 = t.intDigits.take 9 := by rw [hD, List.take_append_of_le_length (by omega)]
  have hword : word2 t.digits = word2 t.intDigits := by
    have htake : ((t.intDigits ++ ds).drop 9).take 9 = (t.intDigits.drop 9).take 9 := by
      rw [List.drop_append_of_le_length (by omega), List.take_append_of_le_length (by rw [List.length_drop]; omega)]
    have h0 : 9 - ((t.intDigits ++ ds).drop 9).length = 9 - (t.intDigits.drop 9).length := by
      simp only [List.length_drop, List.length_append]
      omega
    rw [hD, word2, word2, word1, word1, htake, h0]
  have hroom : 9 - t.digits.length = 9 - t.intDigits.length := by
    rw [hD, List.length_append]
    omega
  have hplace : t.place = t.intDigits.length := by
    simp only [NumText.place, hf, Option.getD_some, hD, List.length_append]
    omega
  refine ⟨sign, approx, hpar, ?_⟩
  rw [hplace, hexp, htake, hword, hroom]
  exact hrun

/-- The number `s2n` stores for a string that starts with the text: the first 18 digits, with the exponent it takes. -/
theorem forceNum_text : Stored (signed t.neg ((⟨word1 t.digits, word2 t.digits⟩ : Mantissa).val * (10 : ℚ) ^ (t.expSeen rest + t.place - 18)))
      (forceNum (Mval.ofStr (t.text ++ rest))) := by
  have hrun : Runs t rest := by
    by_cases hA : t.intDigits = []
    · exact runs_fraction h hne hA
    · cases hf : t.fraction with
      | none => exact runs_integer h hne hf
      | some ds =>
        rcases lt_or_ge t.intDigits.length 18 with hlen | hlen
        · exact runs_point h hne hA hf hlen
        · exact runs_late h hne hA hf hlen
  obtain ⟨sign, approx, hpar, hrun⟩ := hrun
  obtain ⟨hdigits, hlead⟩ := digits_spec hne
  have hneg : t.neg = decide (sign % 2 = 1) := by
    unfold NumText.neg
    rw [hpar]
  rw [hrun, hneg]
  exact s2nStore_stored hdigits hlead rfl _ _ _

end

end Run

end NumberPrefixAux

end Gtm
