import Gtm.Lemmas.NumberPromote

/-!
# The shortcuts for two `MV_INT`s

What `eb_int_mul`, `eb_mvint_div` and `eb_int_div` give through `double` arithmetic. The integer part of a rounded quotient is that
of the quotient, and for a product a fraction of thousandths survives the rounding; for a quotient it need not.
-/

namespace Gtm

open Truncation BinaryRound NumberRoundTripAux NumberStoreAux NumberPromoteAux

namespace IntShortcutAux

/-! ## Signs -/

theorem double_signed (neg : Bool) (q : ℚ) : double (signed neg q) = signed neg (double q) := by
  cases neg
  · rfl
  · exact round_neg 53 q

theorem double_nonneg {q : ℚ} (h : 0 ≤ q) : 0 ≤ double q := by
  have := le_round (p := 53) (n := 0) (by norm_num) le_rfl (by simpa using h)
  simpa [double] using this

theorem truncInt_signed (neg : Bool) {q : ℚ} (h : 0 ≤ q) : truncInt (signed neg q) = if neg then -⌊q⌋ else ⌊q⌋ := by
  unfold truncInt
  cases neg with
  | false => rw [signed_false, if_neg h.not_gt, if_neg (by simp)]
  | true =>
    rw [signed_true, if_pos rfl]
    rcases h.eq_or_lt with rfl | hpos
    · simp
    · rw [if_pos (by linarith), neg_neg]

theorem intCast_signed (n : ℤ) : (n : ℚ) = signed (decide (n < 0)) ((|n| : ℤ) : ℚ) := by
  rcases lt_or_ge n 0 with h | h
  · simp [h, abs_of_neg h]
  · simp [not_lt.mpr h, abs_of_nonneg h]

/-- The fraction of a `double` in units of `FLO_HI`, as `DFLOAT2MINT` sees it. -/
def seenFraction (x : ℚ) : ℚ := double (double (x - ⌊x⌋) * floHi)

/-- The words `DFLOAT2MINT` makes of a `double`. -/
theorem dfloat2mint_signed (neg : Bool) {x : ℚ} (h : 0 ≤ x) :
    (dfloat2mint (signed neg x)).m1 = (if neg then -⌊x⌋ else ⌊x⌋) ∧ ((dfloat2mint (signed neg x)).m0 = 0 ↔ seenFraction x < 1) := by
  have hfract : 0 ≤ x - ⌊x⌋ := by linarith [Int.floor_le x]
  have hseen : 0 ≤ seenFraction x := double_nonneg (mul_nonneg (double_nonneg hfract) (by norm_num [floHi]))
  have hm1 := truncInt_signed neg h
  have hsub : signed neg x - (truncInt (signed neg x) : ℤ) = signed neg (x - ⌊x⌋) := by
    rw [hm1]
    cases neg
    · simp only [signed_false, Bool.false_eq_true, if_false]
    · simp only [signed_true, if_true]
      push_cast
      ring
  have hmul : ∀ q : ℚ, signed neg q * floHi = signed neg (q * floHi) := by
    intro q
    cases neg <;> simp
  refine ⟨hm1, ?_⟩
  simp only [dfloat2mint, hsub, double_signed, hmul]
  change truncInt (signed neg (seenFraction x)) = 0 ↔ _
  rw [truncInt_signed neg hseen]
  have hfloor : ⌊seenFraction x⌋ = 0 ↔ seenFraction x < 1 := by
    rw [Int.floor_eq_zero_iff]
    exact ⟨fun hx => hx.2, fun hx => ⟨hseen, hx⟩⟩
  rw [← hfloor]
  cases neg <;> simp

/-- The range the shortcuts accept. -/
theorem in_range_signed (neg : Bool) {x : ℚ} (h : 0 ≤ x) : (signed neg x < floHi ∧ -floHi < signed neg x) ↔ x < floHi := by
  cases neg
  · simp only [signed_false]
    exact ⟨fun hx => hx.1, fun hx => ⟨hx, by linarith⟩⟩
  · simp only [signed_true]
    exact ⟨fun hx => by linarith [hx.2], fun hx => ⟨by linarith, by linarith⟩⟩

/-! ## Rounded quotients -/

/-- The integer part of a rounded quotient. -/
theorem floor_double_div {a b : ℤ} (ha : 0 ≤ a) (hap : a < 9007199254740992) (hb : 0 < b) : ⌊double ((a : ℚ) / b)⌋ = a / b :=
  floor_round_div ha hap hb

theorem double_div_lt {a b : ℤ} (ha : 0 ≤ a) (hap : a < 9007199254740992) (hb : 0 < b) :
    double ((a : ℚ) / b) < floHi ↔ a / b < 1000000000 := by
  rw [← floor_double_div ha hap hb, Int.floor_lt]
  norm_num [floHi]

theorem double_intCast {n : ℤ} (h : |n| < 9007199254740992) : double (n : ℚ) = n := round_intCast h

/-- A fraction is seen when it is large enough for the error of the quotient not to hide it. -/
theorem seenFraction_of_large {a b : ℤ} (ha : 0 ≤ a) (hap : a < 1000000000000) (hb : 0 < b)
    (h : (1 : ℚ) / 2 ^ 29 ≤ ((a % b : ℤ) - 1 / 5000) / b) : 1 ≤ seenFraction (double ((a : ℚ) / b)) := by
  have hbq : (0 : ℚ) < b := by exact_mod_cast hb
  have hpos : 0 < a := by
    rcases ha.eq_or_lt with rfl | hpos
    · rw [Int.zero_emod] at h
      have : ((0 : ℚ) - 1 / 5000) / b < 0 := div_neg_of_neg_of_pos (by norm_num) hbq
      linarith
    · exact hpos
  have hapq : (a : ℚ) < 1000000000000 := by exact_mod_cast hap
  have hsplit : (a : ℚ) = (a / b : ℤ) * b + (a % b : ℤ) := by exact_mod_cast (Int.ediv_mul_add_emod a b).symm
  have hdiv : (a : ℚ) / b = (a / b : ℤ) + (a % b : ℤ) / b := by
    conv_lhs => rw [hsplit]
    field_simp
  have hx : (0 : ℚ) < (a : ℚ) / b := by positivity
  have herr := (abs_le.mp (abs_roundPos_sub 53 hx)).1
  rw [← round_of_nonneg 53 hx.le] at herr
  have hsmall : (a : ℚ) / b / 2 ^ 53 ≤ 1 / 5000 / b := by
    rw [div_div, mul_comm, ← div_div]
    apply div_le_div_of_nonneg_right _ hbq.le
    linarith
  unfold seenFraction
  rw [floor_double_div ha (by omega) hb]
  have hfr : ((1 : ℤ) : ℚ) * 2 ^ (-29 : ℤ) ≤ double ((a : ℚ) / b) - (a / b : ℤ) := by
    rw [sub_div] at h
    unfold double
    linarith
  have h1 := le_roundPos (p := 53) (m := 1) (k := -29) (by norm_num) (by norm_num) hfr
  rw [← round_of_nonneg 53 (le_trans (by norm_num) hfr)] at h1
  have h2 := le_round (p := 53) (n := 1) (q := double (double ((a : ℚ) / b) - (a / b : ℤ)) * floHi) (by norm_num) (by norm_num) (by
    unfold double at h1 ⊢
    norm_num [floHi] at h1 ⊢
    linarith)
  simpa [double] using h2

/-- A fraction of thousandths is seen in a number within the range of an `MV_INT`. -/
theorem seenFraction_thousandths {a : ℤ} (ha : 0 ≤ a) (hlt : a / 1000 < 1000000000) (h : ¬ (1000 : ℤ) ∣ a) :
    1 ≤ seenFraction (double ((a : ℚ) / (1000 : ℤ))) := by
  have hmod : 1 ≤ a % 1000 := by omega
  have hmodq : (1 : ℚ) ≤ (a % 1000 : ℤ) := by exact_mod_cast hmod
  apply seenFraction_of_large ha (by omega) (by norm_num)
  linarith

/-- A remainder of at least two is seen. -/
theorem seenFraction_of_two_le {a b : ℤ} (ha : 0 ≤ a) (hap : a < 1000000000000) (hb : 0 < b) (hb' : b < 1000000000) (h : 2 ≤ a % b) :
    1 ≤ seenFraction (double ((a : ℚ) / b)) := by
  have hbq : (0 : ℚ) < b := by exact_mod_cast hb
  have hbq' : (b : ℚ) < 1000000000 := by exact_mod_cast hb'
  have hmodq : (2 : ℚ) ≤ (a % b : ℤ) := by exact_mod_cast h
  apply seenFraction_of_large ha hap hb
  rw [le_div_iff₀ hbq]
  linarith

/-- A remainder is seen when the divisor is small. -/
theorem seenFraction_of_small {a b : ℤ} (ha : 0 ≤ a) (hap : a < 1000000000000) (hb : 0 < b) (hb' : b ≤ 1000) (h : 1 ≤ a % b) :
    1 ≤ seenFraction (double ((a : ℚ) / b)) := by
  have hbq : (0 : ℚ) < b := by exact_mod_cast hb
  have hbq' : (b : ℚ) ≤ 1000 := by exact_mod_cast hb'
  have hmodq : (1 : ℚ) ≤ (a % b : ℤ) := by exact_mod_cast h
  apply seenFraction_of_large ha hap hb
  rw [le_div_iff₀ hbq]
  linarith

/-- A multiple of a binary place within 53 digits is a `double`. -/
theorem double_scaled {K : ℤ} (s : ℕ) (h0 : 0 ≤ K) (h : K < 2 ^ 53) : double ((K : ℚ) / 2 ^ s) = K / 2 ^ s := by
  have hnonneg : (0 : ℚ) ≤ (K : ℚ) / 2 ^ s := div_nonneg (by exact_mod_cast h0) (by positivity)
  unfold double
  rw [round_of_nonneg 53 hnonneg]
  rcases hnonneg.eq_or_lt with hz | hpos
  · rw [← hz, roundPos_zero]
  · apply roundPos_eq (k := -s) h hpos
    rw [zpow_neg, zpow_natCast, div_eq_mul_inv]

/-- The binary places behind the point that a `double` with this integer part has. -/
def fractionPlaces (n : ℤ) : ℕ := 52 - Nat.log 2 n.toNat

theorem pow_places_not_dvd (s : ℕ) : ¬ (1000000000 : ℤ) ∣ 2 ^ s := by
  intro h
  have h5 : (5 : ℕ) ∣ 2 ^ s := by
    have : (5 : ℤ) ∣ 2 ^ s := dvd_trans (by norm_num) h
    exact_mod_cast this
  have hcop : Nat.Coprime 5 (2 ^ s) := Nat.Coprime.pow_right s (by decide)
  exact absurd (hcop.eq_one_of_dvd h5) (by norm_num)

/-- A power of two is an odd multiple of itself only. -/
theorem odd_mul_eq_pow {M b : ℤ} {s : ℕ} (hM : 0 ≤ M) (h : (2 * M + 1) * b = 2 ^ s) : M = 0 := by
  lift M to ℕ using hM
  have hdvd : 2 * M + 1 ∣ 2 ^ s := by
    have : ((2 * M + 1 : ℕ) : ℤ) ∣ ((2 ^ s : ℕ) : ℤ) := ⟨b, by push_cast; exact h.symm⟩
    exact_mod_cast this
  have hodd : Nat.Coprime 2 (2 * M + 1) := by
    rw [Nat.coprime_iff_gcd_eq_one, Nat.gcd_rec, show (2 * M + 1) % 2 = 1 by omega]
    rfl
  have hcop : Nat.Coprime (2 * M + 1) (2 ^ s) := Nat.Coprime.pow_right s hodd.symm
  have := hcop.eq_one_of_dvd hdvd
  omega

theorem log_quotient {a b : ℤ} (hb : 0 < b) (hab : b ≤ a) : Int.log 2 ((a : ℚ) / b) = Nat.log 2 (a / b).toNat := by
  have hbq : (0 : ℚ) < b := by exact_mod_cast hb
  have hone : (1 : ℚ) ≤ a / b := by
    rw [le_div_iff₀ hbq, one_mul]
    exact_mod_cast hab
  have hfloor : ⌊(a : ℚ) / b⌋ = a / b :=
    floor_div_eq hbq (by exact_mod_cast Int.ediv_mul_le a hb.ne') (by exact_mod_cast Int.lt_ediv_add_one_mul_self a hb)
  rw [Int.log_of_one_le_right _ hone, ← Int.floor_toNat, hfloor]

/-- A remainder of one is seen as long as its share does not fall below half of the first number of places that `FLO_HI` reaches. -/
theorem seenFraction_of_one {a b : ℤ} (hap : a < 1000000000000) (hb : 1 < b) (hab : b ≤ a) (h : a % b = 1) :
    1 ≤ seenFraction (double ((a : ℚ) / b)) ↔ (2 * (2 ^ fractionPlaces (a / b) / 1000000000) + 1) * b ≤ 2 ^ (fractionPlaces (a / b) + 1) := by
  have hb0 : 0 < b := by omega
  have hbq : (0 : ℚ) < b := by exact_mod_cast hb0
  have hq1 : 1 ≤ a / b := by rwa [Int.le_ediv_iff_mul_le hb0, one_mul]
  have hlow : 2 ^ Nat.log 2 (a / b).toNat ≤ (a / b).toNat := Nat.pow_log_le_self 2 (by omega)
  have hbe : b * 2 ^ Nat.log 2 (a / b).toNat ≤ a := by
    have hcast : (2 : ℤ) ^ Nat.log 2 (a / b).toNat ≤ a / b := by
      have : ((2 ^ Nat.log 2 (a / b).toNat : ℕ) : ℤ) ≤ ((a / b).toNat : ℤ) := by exact_mod_cast hlow
      rw [Int.toNat_of_nonneg (by omega)] at this
      exact_mod_cast this
    calc b * 2 ^ Nat.log 2 (a / b).toNat ≤ b * (a / b) := mul_le_mul_of_nonneg_left hcast hb0.le
      _ ≤ a := Int.mul_ediv_self_le hb0.ne'
  have hlog : Nat.log 2 (a / b).toNat ≤ 39 := by
    by_contra hgt
    have : (2 : ℤ) ^ 40 ≤ 2 ^ Nat.log 2 (a / b).toNat := pow_le_pow_right₀ (by norm_num) (by omega)
    have : b * 2 ^ 40 ≤ b * 2 ^ Nat.log 2 (a / b).toNat := mul_le_mul_of_nonneg_left this hb0.le
    omega
  obtain ⟨s, hs⟩ : ∃ s, fractionPlaces (a / b) = s := ⟨_, rfl⟩
  have hse : s + Nat.log 2 (a / b).toNat = 52 := by
    rw [← hs]
    unfold fractionPlaces
    omega
  obtain ⟨K, hK, herr⟩ := round_div_fraction (p := 53) (s := s) hb0 hab (by rw [log_quotient hb0 hab]; push_cast; omega)
  change double ((a : ℚ) / b) = _ at hK
  rw [hs]
  -- the rounded share of the remainder, in integers
  rw [h, Int.cast_one, one_div_mul_eq_div, abs_le, neg_le_sub_iff_le_add] at herr
  have hP : (0 : ℤ) < 2 ^ s := by positivity
  have hPs : (2 : ℤ) ^ s ≤ 2 ^ 52 := pow_le_pow_right₀ (by norm_num) (by omega)
  obtain ⟨P, hPdef⟩ : ∃ P : ℤ, P = 2 ^ s := ⟨_, rfl⟩
  have hPq : (2 : ℚ) ^ s = P := by rw [hPdef]; push_cast; rfl
  have hlo : 2 * P ≤ (2 * K + 1) * b := by
    have h1 := herr.1
    rw [div_le_iff₀ hbq] at h1
    have : 2 * (P : ℚ) ≤ (2 * K + 1) * b := by linarith
    exact_mod_cast this
  have hhi : (2 * K - 1) * b ≤ 2 * P := by
    have h1 := herr.2
    have h2 : (K : ℚ) - 1 / 2 ≤ P / b := by
      rw [hPq] at h1
      linarith
    rw [le_div_iff₀ hbq] at h2
    have : (2 * (K : ℚ) - 1) * b ≤ 2 * P := by linarith
    exact_mod_cast this
  have hK0 : 0 ≤ K := by
    by_contra hneg
    have : (2 * K + 1) * b ≤ 0 := mul_nonpos_of_nonpos_of_nonneg (by omega) hb0.le
    omega
  have hKP : K ≤ P := by
    by_contra hgt
    have : (2 * P + 1) * 2 ≤ (2 * K - 1) * b := mul_le_mul (by omega) (by omega) (by norm_num) (by omega)
    omega
  have hseen : 1 ≤ seenFraction (double ((a : ℚ) / b)) ↔ P ≤ K * 1000000000 := by
    unfold seenFraction
    rw [floor_double_div (by omega) (by omega) hb0, hK, add_sub_cancel_left, double_scaled s hK0 (by omega)]
    have hscale : (K : ℚ) / 2 ^ s * floHi = ((K * 1000000000 : ℤ) : ℚ) / 2 ^ s := by
      unfold floHi
      push_cast
      ring
    rw [hscale]
    constructor
    · intro h1
      by_contra hlt
      rw [double_scaled s (by omega) (by omega), le_div_iff₀ (by positivity), one_mul, hPq] at h1
      exact hlt (by exact_mod_cast h1)
    · intro h1
      have := le_round (p := 53) (n := 1) (q := ((K * 1000000000 : ℤ) : ℚ) / 2 ^ s) (by norm_num) (by norm_num) (by
        rw [Int.cast_one, le_div_iff₀ (by positivity), one_mul, hPq]
        exact_mod_cast h1)
      simpa [double] using this
  rw [hseen, pow_succ, ← hPdef]
  have hnot := pow_places_not_dvd s
  constructor
  · intro h1
    have hKM : P / 1000000000 + 1 ≤ K := by omega
    calc (2 * (P / 1000000000) + 1) * b ≤ (2 * K - 1) * b := mul_le_mul_of_nonneg_right (by omega) hb0.le
      _ ≤ P * 2 := by linarith
  · intro h1
    by_contra hlt
    -- the nearest number of places is not above the bound, so the share is exactly halfway: the divisor is a power of two
    have htop : (2 * K + 1) * b ≤ (2 * (P / 1000000000) + 1) * b := mul_le_mul_of_nonneg_right (by omega) hb0.le
    have heq : (2 * (P / 1000000000) + 1) * b = 2 ^ (s + 1) := by
      omega
    have hM := odd_mul_eq_pow (by omega) heq
    rw [hM, mul_zero, zero_add, one_mul] at heq
    have : (2 : ℤ) ^ 53 ≤ a := by
      calc (2 : ℤ) ^ 53 = 2 ^ (s + 1) * 2 ^ Nat.log 2 (a / b).toNat := by
            rw [← pow_add]
            congr 1
            omega
        _ ≤ a := heq ▸ hbe
    omega

/-! ## What the shortcuts give -/

theorem signed_int (neg : Bool) (n : ℤ) : (if neg then -n else n : ℤ) = signed neg (n : ℚ) := by
  cases neg <;> simp

/-- The product of two `MV_INT`s, where there is one, is exact in thousandths. -/
theorem ebIntMul_some {v1 u1 : ℤ} {w : Mantissa} (h : ebIntMul v1 u1 = some w) : v1 * u1 = 1000 * w.m1 ∧ |w.m1| < 1000000000 := by
  obtain ⟨P, hP⟩ : ∃ P : ℤ, P = |u1 * v1| := ⟨_, rfl⟩
  have hP0 : 0 ≤ P := hP ▸ abs_nonneg _
  obtain ⟨neg, hneg⟩ : ∃ neg, decide (u1 * v1 < 0) = neg := ⟨_, rfl⟩
  have hprod : ((u1 * v1 : ℤ) : ℚ) = signed neg P := by rw [intCast_signed, hneg, hP]
  have hpf : double (double (u1 * v1) / floBias) = signed neg (double (double P / (1000 : ℤ))) := by
    rw [← Int.cast_mul, hprod, double_signed, signed_div_right, double_signed]
    rfl
  have hPq : (0 : ℚ) ≤ P := by exact_mod_cast hP0
  have hrange := in_range_signed neg (double_nonneg (div_nonneg (double_nonneg hPq) (by norm_num : (0 : ℚ) ≤ (1000 : ℤ))))
  unfold ebIntMul at h
  simp only [hpf] at h
  split at h
  · next hcond =>
    have hlt := hrange.mp hcond
    have hsmall : P < 9007199254740992 := by
      by_contra hge
      have h1 := le_round (p := 53) (n := 9007199254740991) (q := (P : ℚ)) (by norm_num) (by norm_num) (by exact_mod_cast (by omega))
      have h2 := le_round (p := 53) (n := 1000000000) (q := double P / (1000 : ℤ)) (by norm_num) (by norm_num) (by
        unfold double
        push_cast at h1 ⊢
        linarith)
      have h3 : (1000000000 : ℚ) ≤ double (double P / (1000 : ℤ)) := by exact_mod_cast h2
      unfold floHi at hlt
      linarith
    rw [double_intCast (by rwa [abs_of_nonneg hP0])] at hlt h
    rw [double_div_lt hP0 hsmall (by norm_num)] at hlt
    obtain ⟨hm1, hm0⟩ := dfloat2mint_signed neg (x := double ((P : ℚ) / (1000 : ℤ)))
      (double_nonneg (div_nonneg hPq (by norm_num)))
    split at h
    · next hz =>
      cases h
      have hdvd : (1000 : ℤ) ∣ P := by
        by_contra hn
        exact absurd (hm0.mp hz) (not_lt.mpr (seenFraction_thousandths hP0 hlt hn))
      rw [floor_double_div hP0 hsmall (by norm_num)] at hm1
      have huv : u1 * v1 = if neg then -P else P := by
        have : ((u1 * v1 : ℤ) : ℚ) = ((if neg then -P else P : ℤ) : ℚ) := by rw [hprod, signed_int]
        exact_mod_cast this
      rw [mul_comm v1, huv, hm1]
      cases neg
      · simp only [Bool.false_eq_true, if_false, abs_lt]
        omega
      · simp only [if_true, abs_lt]
        omega
    · cases h
  · cases h

/-- The quotient of two `MV_INT`s in thousandths, as the shortcuts of the divisions find it. -/
structure Quotient (v1 u1 : ℤ) (neg : Bool) : Prop where
  value : double (double (v1 * floBias) / u1) = signed neg (double (((1000 * |v1| : ℤ) : ℚ) / (|u1| : ℤ)))
  exact : (v1 : ℚ) / u1 = signed neg ((|v1| : ℤ) / (|u1| : ℤ))

theorem quotient_signed {v1 : ℤ} (u1 : ℤ) (hv : |v1| < 1000000000) : Quotient v1 u1 (decide (v1 < 0) ^^ decide (u1 < 0)) := by
  constructor
  · have hmul : (v1 : ℚ) * floBias = signed (decide (v1 < 0)) ((1000 * |v1| : ℤ) : ℚ) := by
      rw [intCast_signed v1]
      unfold floBias
      cases decide (v1 < 0) <;> simp [mul_comm]
    have hsmall : abs (1000 * |v1|) < 9007199254740992 := by
      rw [abs_of_nonneg (by positivity)]
      omega
    rw [hmul, double_signed, double_intCast hsmall, intCast_signed u1, signed_div, double_signed]
  · rw [intCast_signed v1, intCast_signed u1, signed_div]

section Division

variable {v1 u1 : ℤ} {neg : Bool} (hq : Quotient v1 u1 neg) (hv : |v1| < 1000000000) (hu : u1 ≠ 0)
include hq hv hu

/-- Both shortcuts of the divisions take the quotients that are in range, and no others. -/
theorem quotient_in_range : (double (double (v1 * floBias) / u1) < floHi ∧ -floHi < double (double (v1 * floBias) / u1)) ↔
      1000 * |v1| / |u1| < 1000000000 := by
  have hb : 0 < |u1| := abs_pos.mpr hu
  have ha : 0 ≤ 1000 * |v1| := by positivity
  rw [hq.value, in_range_signed neg (double_nonneg (div_nonneg (by exact_mod_cast ha) (by exact_mod_cast hb.le))),
    double_div_lt ha (by omega) hb]

theorem quotient_words :
    (dfloat2mint (double (double (v1 * floBias) / u1))).m1 = (if neg then -(1000 * |v1| / |u1|) else 1000 * |v1| / |u1|) ∧
      ((dfloat2mint (double (double (v1 * floBias) / u1))).m0 = 0 ↔ seenFraction (double (((1000 * |v1| : ℤ) : ℚ) / (|u1| : ℤ))) < 1) := by
  have hb : 0 < |u1| := abs_pos.mpr hu
  have ha : 0 ≤ 1000 * |v1| := by positivity
  have hwords := dfloat2mint_signed neg (x := double (((1000 * |v1| : ℤ) : ℚ) / (|u1| : ℤ)))
    (double_nonneg (div_nonneg (by exact_mod_cast ha) (by exact_mod_cast hb.le)))
  rw [floor_double_div ha (by omega) hb] at hwords
  rw [hq.value]
  exact hwords

theorem ebIntDiv_some {w : Mantissa} (h : ebIntDiv v1 u1 = some w) :
    1000 * |v1| / |u1| < 1000000000 ∧ w.m1 = if neg then -(1000 * |v1| / |u1| / 1000 * 1000) else 1000 * |v1| / |u1| / 1000 * 1000 := by
  have hn : 0 ≤ 1000 * |v1| / |u1| := by positivity
  obtain ⟨hm1, -⟩ := quotient_words hq hv hu
  unfold ebIntDiv at h
  simp only [quotient_in_range hq hv hu] at h
  split at h
  · next hlt =>
    cases h
    refine ⟨hlt, ?_⟩
    rw [hm1]
    cases neg
    · simp only [Bool.false_eq_true, if_false, mvBias]
      rw [Int.tdiv_eq_ediv_of_nonneg hn]
      rfl
    · simp only [if_true, mvBias]
      rw [Int.neg_tdiv, Int.tdiv_eq_ediv_of_nonneg hn, neg_mul]
      rfl
  · cases h

theorem ebMvintDiv_some {w : Mantissa} (h : ebMvintDiv v1 u1 = some w) :
    1000 * |v1| / |u1| < 1000000000 ∧ seenFraction (double (((1000 * |v1| : ℤ) : ℚ) / (|u1| : ℤ))) < 1 ∧
      w.m1 = if neg then -(1000 * |v1| / |u1|) else 1000 * |v1| / |u1| := by
  obtain ⟨hm1, hm0⟩ := quotient_words hq hv hu
  unfold ebMvintDiv at h
  simp only [quotient_in_range hq hv hu] at h
  split at h
  · next hlt =>
    split at h
    · next hz =>
      cases h
      exact ⟨hlt, hm0.mp hz, hm1⟩
    · cases h
  · cases h

theorem ebMvintDiv_none (h : ebMvintDiv v1 u1 = none) :
    1000000000 ≤ 1000 * |v1| / |u1| ∨ 1 ≤ seenFraction (double (((1000 * |v1| : ℤ) : ℚ) / (|u1| : ℤ))) := by
  obtain ⟨-, hm0⟩ := quotient_words hq hv hu
  unfold ebMvintDiv at h
  simp only [quotient_in_range hq hv hu] at h
  split at h
  · split at h
    · cases h
    · next hz => exact Or.inr (not_lt.mp fun hlt => hz (hm0.mpr hlt))
  · next hge => exact Or.inl (not_lt.mp hge)

end Division

end IntShortcutAux

end Gtm
