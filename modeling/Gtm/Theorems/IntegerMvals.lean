import Gtm.Lemmas.AvlKeys
import Gtm.Numeric.Mvalconv

/-!
# Integers of 18 digits in mvals

An integer of up to 18 digits is read back from the mval made of it, and `isint` tells the integers of up to nine digits. No
expression on the way leaves its type.
-/

namespace Gtm

/-- The number is an integer of at most nine digits. -/
def Mval.IsInt9 (v : Mval) : Prop := ∃ z : ℤ, z.natAbs < 10 ^ 9 ∧ v.numVal = z

namespace IntegerMvalsAux

theorem int4_of {x : ℤ} (h : x.natAbs < 2147483648) : int4 x = some x := if_pos ⟨by omega, by omega⟩

theorem int8_of {x : ℤ} (h : x.natAbs < 9223372036854775808) : int8 x = some x := if_pos ⟨by omega, by omega⟩

theorem uint4_of {x : ℕ} (h : x < 4294967296) : uint4 x = some x := if_pos h

/-! ## From an integer -/

/-- The words of the loop are those of the number times a power of ten, and the first digit is not zero. -/
structure Scaled (high low exp : ℕ) (r : ℕ × ℕ × ℕ) (k : ℕ) : Prop where
  value : r.1 * 1000000000 + r.2.1 = (high * 1000000000 + low) * 10 ^ k
  exp : r.2.2 = exp - k
  lead : 100000000 ≤ r.1
  high_lt : r.1 < 1000000000
  low_lt : r.2.1 < 1000000000

theorem scaleWords_spec {n high low exp : ℕ} (hhigh : high < 1000000000) (hlow : low < 1000000000)
    (hn : 100000000 ≤ high * 10 ^ n) : ∃ r k, scaleWords (n + 1) high low exp = some r ∧ k ≤ n ∧ Scaled high low exp r k := by
  induction n generalizing high low exp with
  | zero =>
    have hge : ¬ high < mantLo := by simpa [mantLo] using hn
    exact ⟨_, 0, by rw [scaleWords, if_neg hge], le_refl _, by simp, rfl, by simpa using hn, hhigh, hlow⟩
  | succ n ih =>
    rw [scaleWords]
    by_cases hlt : high < mantLo
    · rw [if_pos hlt]
      simp only [mantLo] at hlt ⊢
      rw [uint4_of (by omega), uint4_of (by omega), Option.bind_some]
      have hgrow : high * 10 ^ (n + 1) ≤ (high * 10 + low / 100000000) * 10 ^ n := by
        calc high * 10 ^ (n + 1) = high * 10 * 10 ^ n := by ring
          _ ≤ (high * 10 + low / 100000000) * 10 ^ n := Nat.mul_le_mul_right _ (Nat.le_add_right _ _)
      obtain ⟨r, k, hrun, hk, hr⟩ := @ih _ (low % 100000000 * 10) (exp - 1) (by omega) (by omega) (hn.trans hgrow)
      refine ⟨r, k + 1, hrun, by omega, ?_, ?_, hr.lead, hr.high_lt, hr.low_lt⟩
      · have hten : (high * 10 + low / 100000000) * 1000000000 + low % 100000000 * 10 = (high * 1000000000 + low) * 10 := by omega
        rw [hr.value, hten]
        ring
      · rw [hr.exp]
        omega
    · rw [if_neg hlt]
      exact ⟨_, 0, rfl, by omega, by simp, rfl, by simpa [mantLo] using hlt, hhigh, hlow⟩

/-! ## To an integer -/

/-- A number of up to nine digits in extended precision. -/
theorem mval2i8Num_low {v : Mval} {i k : ℕ} (hk : k ≤ 9) (hint : v.mvtype.int = false) (he : v.e = 71 - k)
    (hm1 : v.m1 = (i * 10 ^ k : ℕ)) (hlt : v.m1 < 1000000000) : mval2i8Num v = some (if v.sgn then -(i : ℤ) else i) := by
  have hsigned : signedM1 v = some (if v.sgn then -v.m1 else v.m1) := by
    unfold signedM1
    split
    · exact int4_of (by omega)
    · rfl
  have hpow : tenPwr (expIdxBialNat - v.e) = 10 ^ k := by
    congr 1
    simp only [expIdxBialNat, mvXbias]
    omega
  unfold mval2i8Num
  rw [if_neg (by simp [hint]), if_neg (by rw [he]; simp only [expIdxBialNat, mvXbias]; omega),
    if_neg (by rw [he]; simp only [mvXbias]; omega), hsigned, hpow, Option.map_some, hm1]
  congr 1
  split
  · push_cast
    rw [← neg_mul, Int.mul_tdiv_cancel _ (by positivity)]
  · push_cast
    rw [Int.mul_tdiv_cancel _ (by positivity)]

/-- The parts of a number of ten to 18 digits add up to it. -/
theorem mval2i8Parts_high {v : Mval} {i k : ℕ} (hk : k ≤ 8) (he : v.e = 80 - k)
    (hval : v.m1 * 1000000000 + v.m0 = (i * 10 ^ k : ℕ)) (h1 : 0 ≤ v.m1) (hlt1 : v.m1 < 1000000000) (h0 : 0 ≤ v.m0)
    (hlt0 : v.m0 < 1000000000) : ∃ x y, mval2i8Parts v = some (x, y) ∧ 0 ≤ x ∧ 0 ≤ y ∧ x + y = i := by
  have hloop : ∀ {limit : ℕ} (x y : ℤ), 80 ≤ limit → mulWords limit 128 x y v.e = some (x, y, v.e) := by
    intro limit x y hlimit
    rw [mulWords, if_neg (by omega)]
  have hbial : expIdxBialNat = 71 := rfl
  unfold mval2i8Parts
  rw [hbial, show (mantHi : ℤ) = 1000000000 from rfl]
  split
  · rw [int8_of (by omega), Option.bind_some, hloop _ _ (by omega), Option.bind_some]
    dsimp only
    rw [he]
    by_cases hk0 : k = 0
    · subst hk0
      rw [int8_of (by simp [tenPwr]; omega), Option.bind_some, int8_of (by simp [tenPwr]; omega)]
      exact ⟨_, _, rfl, by simp [tenPwr]; omega, by simp [tenPwr]; omega, by simp [tenPwr]; omega⟩
    · rw [if_neg (by omega)]
      refine ⟨_, _, rfl, Int.tdiv_nonneg (by omega) (by positivity), Int.tdiv_nonneg h0 (by positivity), ?_⟩
      rw [Int.tdiv_eq_ediv_of_nonneg (by omega), Int.tdiv_eq_ediv_of_nonneg h0]
      interval_cases k <;> simp only [tenPwr] at * <;> omega
  · obtain hzero : v.m0 = 0 := by omega
    rw [hloop _ _ (by omega), Option.bind_some]
    dsimp only
    have hx : v.m1 * (tenPwr (v.e - 71) : ℕ) = i := by
      rw [he]
      interval_cases k <;> simp only [tenPwr] <;> omega
    have hi : (i : ℤ) < 1000000000000000000 := by
      have : (1 : ℤ) ≤ 10 ^ k := one_le_pow₀ (by norm_num)
      push_cast at hval
      nlinarith
    rw [int8_of (by omega)]
    exact ⟨_, _, rfl, by omega, h0, by omega⟩

theorem mval2i8Num_high {v : Mval} {i k : ℕ} (hi : i < 1000000000000000000) (hk : k ≤ 8) (hint : v.mvtype.int = false) (he : v.e = 80 - k)
    (hval : v.m1 * 1000000000 + v.m0 = (i * 10 ^ k : ℕ)) (h1 : 0 ≤ v.m1) (hlt1 : v.m1 < 1000000000) (h0 : 0 ≤ v.m0)
    (hlt0 : v.m0 < 1000000000) : mval2i8Num v = some (if v.sgn then -(i : ℤ) else i) := by
  obtain ⟨x, y, hrun, hx, hy, hsum⟩ := mval2i8Parts_high hk he hval h1 hlt1 h0 hlt0
  unfold mval2i8Num
  rw [if_neg (by simp [hint]), if_pos (by rw [he]; simp only [expIdxBialNat, mvXbias]; omega), hrun, Option.bind_some]
  dsimp only
  split
  · rw [int8_of (by omega), Option.bind_some, int8_of (by omega)]
    congr 1
    omega
  · rw [int8_of (by omega), hsum]

/-- What `xi82mval` makes of a number below `10 ^ 18` is read back with the sign. -/
theorem xi82mval_back (v : Mval) (hv : v.mvtype = { nm := true }) {i : ℕ} (hi : i < 1000000000000000000) :
    ∃ w, xi82mval v i = some w ∧ mval2i8 w = .ok (some (if v.sgn then -(i : ℤ) else i)) := by
  have hback : ∀ {w : Mval} {z : ℤ}, w.mvtype.nm = true → mval2i8Num w = some z → mval2i8 w = .ok (some z) := by
    intro w z hnm hz
    rw [mval2i8, mvForceNum_of_nm hnm, ← hz]
    rfl
  unfold xi82mval
  rw [show intHi = 1000000 from rfl, show mantHi = 1000000000 from rfl]
  by_cases hsmall : i < 1000000
  · rw [if_pos hsmall]
    have hm1 : ((mvBias : ℤ) * ((if v.sgn then -(i : ℤ) else i) % 2 ^ 32) % 2 ^ 32).bmod (2 ^ 32)
        = 1000 * if v.sgn then -(i : ℤ) else i := by
      simp only [mvBias]
      rw [Int.bmod_def]
      split <;> omega
    refine ⟨_, rfl, hback (by simp [hv]) ?_⟩
    rw [mval2i8Num, hm1]
    exact congrArg some (Int.mul_tdiv_cancel_left _ (by decide))
  · rw [if_neg hsmall]
    by_cases hlt : i < 1000000000
    · obtain ⟨r, k, hrun, hk, hr⟩ := @scaleWords_spec 8 _ _ expIdxBialNat hlt (show 0 < 1000000000 by norm_num) (by omega)
      have hvalue : r.1 * 1000000000 + r.2.1 = i * 10 ^ k * 1000000000 := by
        rw [hr.value]
        ring
      have hlow := hr.low_lt
      refine ⟨v.setWords r, by rw [if_pos hlt, hrun]; rfl, hback (by simp [Mval.setWords, hv])
        (mval2i8Num_low (k := k) (by omega) (by simp [Mval.setWords, hv]) hr.exp ?_ ?_)⟩
      · exact congrArg Nat.cast (show r.1 = i * 10 ^ k by omega)
      · show (r.1 : ℤ) < 1000000000
        exact_mod_cast hr.high_lt
    · obtain ⟨r, k, hrun, hk, hr⟩ := @scaleWords_spec 8 (i / 1000000000) _ (expIdxBialNat + 9) (by omega)
        (Nat.mod_lt i (show 1000000000 > 0 by norm_num)) (by omega)
      have hvalue : r.1 * 1000000000 + r.2.1 = i * 10 ^ k := by
        rw [hr.value, Nat.div_add_mod']
      refine ⟨v.setWords r, by rw [if_neg hlt, if_pos (by omega), hrun]; rfl, hback (by simp [Mval.setWords, hv])
        (mval2i8Num_high hi hk (by simp [Mval.setWords, hv]) hr.exp ?_ ?_ ?_ ?_ ?_)⟩
      · show (r.1 : ℤ) * 1000000000 + r.2.1 = (i * 10 ^ k : ℕ)
        exact_mod_cast hvalue
      · exact Int.natCast_nonneg _
      · show (r.1 : ℤ) < 1000000000
        exact_mod_cast hr.high_lt
      · exact Int.natCast_nonneg _
      · show (r.2.1 : ℤ) < 1000000000
        exact_mod_cast hr.low_lt

theorem i82mval_back (v : Mval) {i : ℤ} (hi : i.natAbs < 1000000000000000000) : ∃ w, i82mval v i = some w ∧ mval2i8 w = .ok (some i) := by
  unfold i82mval
  by_cases hneg : i < 0
  · rw [if_pos hneg, int8_of (by omega)]
    obtain ⟨w, hw, hback⟩ := xi82mval_back { v with mvtype := { nm := true }, sgn := true } rfl (i := (-i).toNat) (by omega)
    refine ⟨w, hw, ?_⟩
    rw [hback, if_pos rfl, show -((-i).toNat : ℤ) = i by omega]
  · rw [if_neg hneg]
    obtain ⟨w, hw, hback⟩ := xi82mval_back { v with mvtype := { nm := true }, sgn := false } rfl (i := i.toNat) (by omega)
    refine ⟨w, hw, ?_⟩
    rw [hback, if_neg (by simp), show (i.toNat : ℤ) = i by omega]

/-! ## `isint` -/

theorem numVal_eq_iff (v : Mval) (z : ℤ) : v.numVal = z ↔ v.scaled = z * 10 ^ 80 := by
  rw [v.numVal_eq_scaled, div_eq_iff (by positivity)]
  exact_mod_cast Iff.rfl

theorem isintDiv_eq {m1 : ℤ} {d : ℕ} (hm : m1.natAbs < 1000000000) : isintDiv m1 d = some (decide ((d : ℤ) ∣ m1), some (m1.tdiv d)) := by
  have hle : (m1.tdiv d * d).natAbs ≤ m1.natAbs := by
    rw [Int.natAbs_mul, Int.natAbs_tdiv]
    exact Nat.div_mul_le_self _ _
  rw [isintDiv, int4_of (by omega), Option.map_some]
  congr 2
  refine decide_eq_decide.2 ⟨fun h => ⟨m1.tdiv d, by rw [mul_comm, h]⟩, fun h => Int.tdiv_mul_cancel h⟩

/-- An `MV_INT` is an integer if it is a whole number of thousands. -/
theorem isint_of_int {v : Mval} (hi : v.mvtype.int = true) (hm : v.m1.natAbs < 1000000000) :
    ((1000 : ℤ) ∣ v.m1 ↔ v.IsInt9) ∧ ((1000 : ℤ) ∣ v.m1 → v.numVal = (v.m1.tdiv 1000 : ℤ)) := by
  have hsc : v.scaled = v.m1 * 10 ^ 77 := by simp [Mval.scaled, hi]
  have hval : (1000 : ℤ) ∣ v.m1 → v.numVal = (v.m1.tdiv 1000 : ℤ) := by
    rintro ⟨c, hc⟩
    rw [numVal_eq_iff, hsc, hc, Int.mul_tdiv_cancel_left _ (by decide)]
    ring
  refine ⟨⟨fun h => ⟨_, ?_, hval h⟩, ?_⟩, hval⟩
  · rw [Int.natAbs_tdiv]
    exact (Nat.div_le_self _ _).trans_lt hm
  · rintro ⟨z, -, hz⟩
    rw [numVal_eq_iff] at hz
    omega

/-- A number in extended precision is an integer of at most nine digits if its exponent says so and what is behind is zero. -/
theorem isint_of_words {v : Mval} (hi : v.mvtype.int = false) (hw : MantWords v.m1 v.m0) :
    (62 < v.e ∧ v.e ≤ 71 ∧ v.m0 = 0 ∧ ((10 ^ (71 - v.e) : ℕ) : ℤ) ∣ v.m1 ↔ v.IsInt9) ∧
      (62 < v.e → v.e ≤ 71 → v.m0 = 0 → ((10 ^ (71 - v.e) : ℕ) : ℤ) ∣ v.m1 →
        v.numVal = ((if v.sgn then -v.m1 else v.m1).tdiv (10 ^ (71 - v.e) : ℕ) : ℤ)) := by
  obtain ⟨h1, h1', h0, h0'⟩ := hw
  simp only [mantLo, mantHi, Nat.cast_ofNat] at h1 h1' h0'
  have hsc : v.scaled = (if v.sgn then -1 else 1) * ((v.m1 * 10 ^ 9 + v.m0) * 10 ^ v.e) := by simp [Mval.scaled, hi, scaledWords]
  have hval : 62 < v.e → v.e ≤ 71 → v.m0 = 0 → ((10 ^ (71 - v.e) : ℕ) : ℤ) ∣ v.m1 →
      v.numVal = ((if v.sgn then -v.m1 else v.m1).tdiv (10 ^ (71 - v.e) : ℕ) : ℤ) := by
    rintro - hhi hm0 ⟨c, hc⟩
    have hpow : (10 : ℤ) ^ (71 - v.e) * 10 ^ v.e = 10 ^ 71 := by
      rw [← pow_add]
      congr 1
      omega
    have hquot : (if v.sgn then -v.m1 else v.m1).tdiv (10 ^ (71 - v.e) : ℕ) = if v.sgn then -c else c := by
      rw [hc]
      split
      · rw [← mul_neg, Int.mul_tdiv_cancel_left _ (by positivity)]
      · rw [Int.mul_tdiv_cancel_left _ (by positivity)]
    rw [numVal_eq_iff, hsc, hquot, hm0, hc]
    push_cast
    split
    · linear_combination (-c * 10 ^ 9) * hpow
    · linear_combination (c * 10 ^ 9) * hpow
  refine ⟨⟨fun h => ⟨_, ?_, hval h.1 h.2.1 h.2.2.1 h.2.2.2⟩, ?_⟩, hval⟩
  · rw [Int.natAbs_tdiv]
    refine (Nat.div_le_self _ _).trans_lt ?_
    split <;> omega
  · rintro ⟨z, hz, hnum⟩
    rw [numVal_eq_iff, hsc] at hnum
    have habs : (v.m1 * 10 ^ 9 + v.m0) * 10 ^ v.e = z.natAbs * 10 ^ 80 := by
      have hpos : (0 : ℤ) < (v.m1 * 10 ^ 9 + v.m0) * 10 ^ v.e := mul_pos (by omega) (by positivity)
      split at hnum <;> omega
    have hlo : 62 < v.e := by
      by_contra hle
      have := pow_le_pow_right₀ (show (1 : ℤ) ≤ 10 by norm_num) (not_lt.1 hle)
      have hpos : (0 : ℤ) < (v.m1 * 10 ^ 9 + v.m0) * 10 ^ v.e := mul_pos (by omega) (by positivity)
      have : (v.m1 * 10 ^ 9 + v.m0) * 10 ^ v.e ≤ (v.m1 * 10 ^ 9 + v.m0) * 10 ^ 62 := mul_le_mul_of_nonneg_left this (by omega)
      omega
    have hhi : v.e ≤ 71 := by
      by_contra hgt
      have := pow_le_pow_right₀ (show (1 : ℤ) ≤ 10 by norm_num) (show 72 ≤ v.e by omega)
      have : (v.m1 * 10 ^ 9 + v.m0) * 10 ^ 72 ≤ (v.m1 * 10 ^ 9 + v.m0) * 10 ^ v.e := mul_le_mul_of_nonneg_left this (by omega)
      omega
    clear hnum hval hsc
    generalize v.e = e at *
    refine ⟨hlo, hhi, ?_, ?_⟩ <;> interval_cases e <;> simp only [Nat.reduceSub, Nat.reducePow] at * <;> omega

/-- What `isint` says of a number. -/
theorem isint_number {v : Mval} (hnm : v.mvtype.nm = true) (happ : v.mvtype.numApprox = false) (hv : v.NumValid) :
    ∃ b iv, isint v = some (b, iv) ∧ (b = true ↔ v.IsInt9) ∧ (b = true → ∃ z : ℤ, iv = some z ∧ v.numVal = z) := by
  unfold isint
  rw [if_neg (by simp [hnm, happ])]
  cases hi : v.mvtype.int with
  | true =>
    have hm : v.m1.natAbs < 1000000000 := by simpa [Mval.NumValid, hi, mantHi] using hv
    obtain ⟨hiff, hval⟩ := isint_of_int hi hm
    rw [isintDiv_eq hm]
    exact ⟨_, _, rfl, decide_eq_true_iff.trans hiff, fun h => ⟨_, rfl, hval (of_decide_eq_true h)⟩⟩
  | false =>
    have hw : MantWords v.m1 v.m0 := by
      simp only [Mval.NumValid, hi, Bool.false_eq_true, if_false] at hv
      exact ⟨hv.1, hv.2.1, hv.2.2.1, hv.2.2.2.1⟩
    obtain ⟨hiff, hval⟩ := isint_of_words hi hw
    obtain ⟨h1, h1', -, -⟩ := hw
    simp only [mantLo, mantHi, Nat.cast_ofNat] at h1 h1'
    rw [if_neg Bool.false_ne_true, show mvXbias = 62 from rfl, show expIdxBialNat = 71 from rfl]
    by_cases hout : 62 ≥ v.e ∨ 71 < v.e ∨ v.m0 ≠ 0
    · rw [if_pos hout]
      refine ⟨_, _, rfl, ⟨(by intros; rename_i h; cases h), fun h => ?_⟩, (by intros; rename_i h; cases h)⟩
      obtain ⟨hlo, hhi, hm0, -⟩ := hiff.2 h
      exact absurd hout (by omega)
    · have hm0 : v.m0 = 0 := by
        by_contra h
        exact hout (.inr (.inr h))
      have hsigned : signedM1 v = some (if v.sgn then -v.m1 else v.m1) := by
        unfold signedM1
        split
        · exact int4_of (by omega)
        · rfl
      have hdvd : ((10 ^ (71 - v.e) : ℕ) : ℤ) ∣ (if v.sgn then -v.m1 else v.m1) ↔ ((10 ^ (71 - v.e) : ℕ) : ℤ) ∣ v.m1 := by
        split
        · exact dvd_neg
        · rfl
      rw [if_neg hout, hsigned, Option.bind_some, isintDiv_eq (by split <;> omega)]
      refine ⟨_, _, rfl, ?_, fun h => ⟨_, rfl, hval (by omega) (by omega) hm0 (hdvd.1 (of_decide_eq_true h))⟩⟩
      rw [decide_eq_true_iff, tenPwr, hdvd, ← hiff]
      exact ⟨fun h => ⟨by omega, by omega, hm0, h⟩, fun h => h.2.2.2⟩

end IntegerMvalsAux

open IntegerMvalsAux

/-- An integer below `10 ^ 18` is read back from the mval that `i82mval` makes of it, and that `xi82mval` makes of its magnitude with
the sign; `isint` accepts the numbers that are integers of at most nine digits, and gives their value. All expressions fit their types. -/
theorem i82mval_reads_back {i : ℤ} (hi : i.natAbs < 10 ^ 18) {u : Mval}
    (hu : u.mvtype.nm = true → u.mvtype.numApprox = false → u.NumValid) (v : Mval) :
    (∃ w, i82mval v i = some w ∧ mval2i8 w = .ok (some i)) ∧
    (∀ sgn : Bool, ∃ w, xi82mval { v with mvtype := { nm := true }, sgn } i.natAbs = some w ∧
      mval2i8 w = .ok (some (if sgn then -(i.natAbs : ℤ) else i.natAbs))) ∧
    ∃ b iv, isint u = some (b, iv) ∧ (b = true ↔ u.mvtype.nm = true ∧ u.mvtype.numApprox = false ∧ u.IsInt9) ∧
      (b = true → ∃ z : ℤ, iv = some z ∧ u.numVal = z) := by
  refine ⟨i82mval_back v hi, fun sgn => xi82mval_back _ rfl hi, ?_⟩
  by_cases hnum : u.mvtype.nm = true ∧ u.mvtype.numApprox = false
  · obtain ⟨b, iv, hrun, hiff, hval⟩ := isint_number hnum.1 hnum.2 (hu hnum.1 hnum.2)
    exact ⟨b, iv, hrun, by rw [hiff, ← and_assoc, and_iff_right hnum], hval⟩
  · refine ⟨false, none, ?_, ⟨(by intros; rename_i h; cases h), fun h => absurd ⟨h.1, h.2.1⟩ hnum⟩, (by intros; rename_i h; cases h)⟩
    rw [isint, if_pos]
    cases hnm : u.mvtype.nm
    · exact .inl (by simp)
    · cases happ : u.mvtype.numApprox
      · exact absurd ⟨hnm, happ⟩ hnum
      · exact .inr rfl

theorem i82mval_reads_back_ten_digits : ∃ w, i82mval literalZero (-1234567890) = some w ∧ mval2i8 w = .ok (some (-1234567890)) :=
  (i82mval_reads_back (u := literalZero) (by decide) (fun _ _ => by decide) literalZero).1

end Gtm
