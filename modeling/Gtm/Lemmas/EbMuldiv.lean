import Gtm.Numeric.EbMuldiv

/-!
# The loops of `eb_mul`

Statements about the limbs of a mantissa and the rows of a product: no intermediate value leaves the range of an `int4`, and the
limbs denote the numbers they were made from.
-/

namespace Gtm

open Limbs

/-- The mantissa as a number of 18 digits. -/
def Mantissa.val (v : Mantissa) : ℤ := v.m1 * 1000000000 + v.m0

/-- The words of a mantissa are words of nine digits. -/
structure Mantissa.Words (v : Mantissa) : Prop where
  m1_nonneg : 0 ≤ v.m1
  m1_lt : v.m1 < 1000000000
  m0_nonneg : 0 ≤ v.m0
  m0_lt : v.m0 < 1000000000

/-- A normalised mantissa has a leading digit. -/
structure Mantissa.Normal (v : Mantissa) : Prop extends v.Words where
  m1_lead : 100000000 ≤ v.m1

theorem Mantissa.Normal.lo {v : Mantissa} (h : v.Normal) : 10 ^ 17 ≤ v.val := by
  have h1 := h.m1_lead
  have h2 := h.m0_nonneg
  unfold Mantissa.val
  omega

theorem Mantissa.Words.hi {v : Mantissa} (h : v.Words) : v.val < 10 ^ 18 := by
  have h1 := h.m1_lt
  have h2 := h.m0_lt
  unfold Mantissa.val
  omega

theorem Mantissa.Words.nonneg {v : Mantissa} (h : v.Words) : 0 ≤ v.val := by
  have h1 := h.m1_nonneg
  have h2 := h.m0_nonneg
  unfold Mantissa.val
  omega

/-- The words of a number of at most 18 digits. -/
theorem Mantissa.words_of_val {v : Mantissa} {N : ℤ} (h0 : 0 ≤ N) (h : N < 10 ^ 18) (h1 : v.m1 = N / 1000000000)
    (h2 : v.m0 = N % 1000000000) : v.Words ∧ v.val = N := by
  refine ⟨⟨?_, ?_, ?_, ?_⟩, ?_⟩
  all_goals
    simp only [Mantissa.val, h1, h2]
    omega

theorem Mantissa.Words.normal {v : Mantissa} (h : v.Words) (hlo : 10 ^ 17 ≤ v.val) : v.Normal := by
  refine ⟨h, ?_⟩
  have h2 := h.m0_lt
  unfold Mantissa.val at hlo
  omega

namespace EbMulAux

theorem int4_eq {x : ℤ} (h : -2147483648 ≤ x) (h' : x < 2147483648) : int4 x = some x := if_pos ⟨h, h'⟩

/-- An expression that fits is evaluated. -/
theorem int4_bind {α : Type} {x : ℤ} (h : -2147483648 ≤ x) (h' : x < 2147483648) (f : ℤ → Option α) : (int4 x >>= f) = f x := by
  rw [int4_eq h h']
  rfl

theorem radix_pos : 0 < radix := by decide

/-! ## Limbs and words -/

/-- The limbs of a mantissa denote it, moved up by the places `a` leaves free. -/
theorem ebLimbs_spec {a b : ℤ} (hab : a = 10000 ∧ b = 1000 ∨ a = 1000 ∧ b = 100 ∨ a = 100 ∧ b = 10) {v : Mantissa} (h : v.Words) :
    ∃ l0 l1 l2 l3 l4, ebLimbs a b v = some [l0, l1, l2, l3, l4] ∧ InRange radix [l0, l1, l2, l3, l4] ∧
      val radix [l0, l1, l2, l3, l4] = v.val * (10000 / a) ∧ l4 = v.m1 / (b * 10000) := by
  obtain ⟨h1, h1', h0, h0'⟩ := h
  have hdiv : ∀ c : ℤ, v.m0.tdiv c = v.m0 / c ∧ v.m1.tdiv c = v.m1 / c ∧ v.m0.tmod c = v.m0 % c ∧ v.m1.tmod c = v.m1 % c :=
    fun c => ⟨Int.tdiv_eq_ediv_of_nonneg h0, Int.tdiv_eq_ediv_of_nonneg h1, Int.tmod_eq_emod_of_nonneg h0, Int.tmod_eq_emod_of_nonneg h1⟩
  have hmod : ∀ c : ℤ, 0 < c → (v.m0 / c).tmod 10000 = v.m0 / c % 10000 ∧ (v.m1 / c).tmod 10000 = v.m1 / c % 10000 :=
    fun c hc => ⟨Int.tmod_eq_emod_of_nonneg (Int.ediv_nonneg h0 hc.le), Int.tmod_eq_emod_of_nonneg (Int.ediv_nonneg h1 hc.le)⟩
  refine ⟨v.m0 % a * (10000 / a), v.m0 / a % 10000, v.m1 % b * (10000 / b) + v.m0 / (a * 10000), v.m1 / b % 10000,
    v.m1 / (b * 10000), ?_, ?_, ?_, rfl⟩
  · unfold ebLimbs
    simp only [hdiv, radix]
    rcases hab with ⟨rfl, rfl⟩ | ⟨rfl, rfl⟩ | ⟨rfl, rfl⟩
    all_goals
      simp only [Int.reduceTDiv, Int.reduceDiv, Int.reduceMul]
      rw [int4_bind (by omega) (by omega), int4_bind (by omega) (by omega), int4_bind (by omega) (by omega),
        (hmod _ (by norm_num)).1, (hmod _ (by norm_num)).2]
      rfl
  · simp only [inRange_cons, inRange_nil, and_true, radix]
    rcases hab with ⟨rfl, rfl⟩ | ⟨rfl, rfl⟩ | ⟨rfl, rfl⟩ <;> omega
  · simp only [val_cons, val_nil, Mantissa.val, radix]
    rcases hab with ⟨rfl, rfl⟩ | ⟨rfl, rfl⟩ | ⟨rfl, rfl⟩ <;> omega

/-- A word assembled from limbs fits when its value and the values on the way do. -/
theorem ebWord_eq {a b f c : ℤ} (ha : 0 ≤ a) (hb : 0 ≤ b) (hb' : b < 10000) (hf : 1 ≤ f) (hc : 0 ≤ c)
    (h : (a * 10000 + b) * f + c < 1000000000) : ebWord a b f c = some ((a * 10000 + b) * f + c) := by
  have h1 : a * 10000 + b ≤ (a * 10000 + b) * f := le_mul_of_one_le_right (by omega) hf
  unfold ebWord
  simp only [radix]
  rw [int4_bind (by omega) (by omega), int4_bind (by omega) (by omega), int4_bind (by omega) (by omega), int4_eq (by omega) (by omega)]

/-! ## The rows of a product -/

/-- One limb of a row. -/
theorem mulStep_spec {m d p carry : ℤ} (hm : 0 ≤ m ∧ m < radix) (hd : 0 ≤ d ∧ d < radix) (hp : 0 ≤ p ∧ p < radix)
    (hc : 0 ≤ carry ∧ carry < radix) :
    ∃ p' carry', mulStep m d p carry = some (p', carry') ∧ (0 ≤ p' ∧ p' < radix) ∧ (0 ≤ carry' ∧ carry' < radix) ∧
      p' + radix * carry' = m * d + p + carry := by
  simp only [radix] at hm hd hp hc
  have hprod : 0 ≤ m * d ∧ m * d ≤ 9999 * 9999 := ⟨mul_nonneg hm.1 hd.1, mul_le_mul (by omega) (by omega) hd.1 (by norm_num)⟩
  have hacc : 0 ≤ m * d + p + carry := by omega
  obtain ⟨hq, hr, hr'⟩ := tdiv_tmod_range radix_pos hacc
  have hsplit := tmod_add_tdiv radix (m * d + p + carry)
  refine ⟨(m * d + p + carry).tmod radix, (m * d + p + carry).tdiv radix, ?_, ⟨hr, hr'⟩, ⟨hq, ?_⟩, hsplit⟩
  · unfold mulStep
    rw [int4_bind (by omega) (by omega), int4_bind (by omega) (by omega), int4_bind (by omega) (by omega)]
    rfl
  · simp only [radix] at hr hr' hsplit ⊢
    omega

/-- A row of the product: the limbs behind it are zeros and only the first of them is written. -/
theorem mulRow_spec {d : ℤ} (hd : 0 ≤ d ∧ d < radix) (ms prod : List ℤ) (carry : ℤ) (hms : InRange radix ms)
    (hprod : InRange radix prod) (hc : 0 ≤ carry ∧ carry < radix) (hlen : ms.length ≤ prod.length)
    (hzero : ∀ x ∈ prod.drop ms.length, x = 0) (hfit : val radix prod + d * val radix ms + carry < radix ^ prod.length) :
    ∃ r, mulRow d ms prod carry = some r ∧ r.length = prod.length ∧ InRange radix r ∧
      val radix r = val radix prod + d * val radix ms + carry ∧ r.drop (ms.length + 1) = prod.drop (ms.length + 1) := by
  induction ms generalizing prod carry with
  | nil =>
    cases prod with
    | nil =>
      have hc0 : carry = 0 := by
        simp only [val_nil, List.length_nil, pow_zero] at hfit
        omega
      exact ⟨[], by simp [mulRow, hc0], rfl, hprod, by simp [hc0], rfl⟩
    | cons p prod =>
      obtain ⟨-, hprod'⟩ := inRange_cons.mp hprod
      have hp : p = 0 := hzero p (by simp)
      exact ⟨carry :: prod, rfl, rfl, inRange_cons.mpr ⟨hc, hprod'⟩, by simp [hp]; ring, rfl⟩
  | cons m ms ih =>
    cases prod with
    | nil => simp at hlen
    | cons p prod =>
      obtain ⟨hm, hms'⟩ := inRange_cons.mp hms
      obtain ⟨hp, hprod'⟩ := inRange_cons.mp hprod
      obtain ⟨p', carry', hstep, hp', hc', hsum⟩ := mulStep_spec hm hd hp hc
      have htotal : val radix (p :: prod) + d * val radix (m :: ms) + carry =
          p' + radix * (val radix prod + d * val radix ms + carry') := by
        rw [val_cons, val_cons]
        linear_combination -hsum
      have hfit' : val radix prod + d * val radix ms + carry' < radix ^ prod.length := by
        rw [htotal, List.length_cons, pow_succ, mul_comm _ radix] at hfit
        have := lt_of_le_of_lt (le_add_of_nonneg_left hp'.1) hfit
        exact lt_of_mul_lt_mul_left this radix_pos.le
      obtain ⟨r, hr, hrlen, hrange, hval, hrest⟩ := ih prod carry' hms' hprod' hc' (by simpa using hlen) (by simpa using hzero) hfit'
      refine ⟨p' :: r, ?_, by simp [hrlen], inRange_cons.mpr ⟨hp', hrange⟩, ?_, by simpa using hrest⟩
      · unfold mulRow
        rw [hstep, Option.bind_eq_bind, Option.bind_some]
        simp only [hr]
        rfl
      · rw [htotal, val_cons, hval]

/-- All rows of the product. -/
theorem mulRows_spec {m1 : List ℤ} (hm1 : InRange radix m1) (m2 prod : List ℤ) (hm2 : InRange radix m2)
    (hprod : InRange radix prod) (hlen : m1.length + m2.length ≤ prod.length + 1) (hzero : ∀ x ∈ prod.drop m1.length, x = 0)
    (hfit : val radix prod + val radix m1 * val radix m2 < radix ^ prod.length) (hne : m1 ≠ []) :
    ∃ r, mulRows m1 m2 prod = some r ∧ r.length = prod.length ∧ InRange radix r ∧
      val radix r = val radix prod + val radix m1 * val radix m2 := by
  have hv1 := val_nonneg radix_pos.le hm1
  have hpos := List.length_pos_iff.mpr hne
  induction m2 generalizing prod with
  | nil => exact ⟨prod, rfl, rfl, hprod, by simp⟩
  | cons d m2 ih =>
    obtain ⟨hd, hm2'⟩ := inRange_cons.mp hm2
    have hv2 := val_nonneg radix_pos.le hm2'
    rw [List.length_cons] at hlen
    -- a row of zeros is skipped, which is the same as adding it
    have hrow : ∃ r, (if d ≠ 0 then mulRow d m1 prod 0 else some prod) = some r ∧ r.length = prod.length ∧ InRange radix r ∧
        val radix r = val radix prod + d * val radix m1 ∧ r.drop (m1.length + 1) = prod.drop (m1.length + 1) := by
      by_cases hd0 : d = 0
      · exact ⟨prod, by simp [hd0], rfl, hprod, by simp [hd0], rfl⟩
      · have hfit' : val radix prod + d * val radix m1 + 0 < radix ^ prod.length := by
          refine lt_of_le_of_lt ?_ hfit
          rw [val_cons]
          have := mul_nonneg hv1 (mul_nonneg radix_pos.le hv2)
          linarith
        obtain ⟨r, hr, h2, h3, h4, h5⟩ := mulRow_spec hd m1 prod 0 hm1 hprod ⟨le_rfl, radix_pos⟩ (by omega) hzero hfit'
        exact ⟨r, by rw [if_pos hd0, hr], h2, h3, by rw [h4, add_zero], h5⟩
    obtain ⟨r, hr, hrlen, hrange, hval, hrest⟩ := hrow
    cases r with
    | nil =>
      rw [List.length_nil] at hrlen
      omega
    | cons p r =>
      obtain ⟨hp, hr'⟩ := inRange_cons.mp hrange
      rw [List.length_cons] at hrlen
      rw [val_cons] at hval
      have htotal : val radix prod + val radix m1 * val radix (d :: m2) = p + radix * (val radix r + val radix m1 * val radix m2) := by
        rw [val_cons]
        linear_combination -hval
      have hfit' : val radix r + val radix m1 * val radix m2 < radix ^ r.length := by
        rw [htotal, ← hrlen, pow_succ, mul_comm _ radix] at hfit
        have := lt_of_le_of_lt (le_add_of_nonneg_left hp.1) hfit
        exact lt_of_mul_lt_mul_left this radix_pos.le
      have hzero' : ∀ x ∈ r.drop m1.length, x = 0 := by
        intro x hx
        rw [List.drop_succ_cons] at hrest
        rw [hrest, ← List.drop_drop] at hx
        exact hzero x (List.mem_of_mem_drop (by rwa [List.drop_drop, Nat.add_comm, ← List.drop_drop] at hx))
      obtain ⟨s, hs, hslen, hsrange, hsval⟩ := ih r hm2' hr' (by omega) hzero' hfit'
      refine ⟨p :: s, ?_, by simp [hslen, hrlen], inRange_cons.mpr ⟨hp, hsrange⟩, by rw [htotal, val_cons, hsval]⟩
      unfold mulRows
      rw [hr, Option.bind_eq_bind, Option.bind_some]
      simp only [hs]
      rfl

end EbMulAux

end Gtm

/-!
## The loops of `eb_div`

Statements about the digits of a quotient: the estimate from the top limbs is never too small, and adding the divisor back brings
it down to the digit.
-/

namespace Gtm

open Limbs EbMulAux

namespace EbDivAux

/-! ## One digit -/

/-- One limb of a subtraction. -/
theorem subStep_spec {q x y borrow : ℤ} (hq : 0 ≤ q ∧ q < 100000) (hx : 0 ≤ x ∧ x < radix) (hy : 0 ≤ y ∧ y < radix)
    (hb : 0 ≤ borrow ∧ borrow ≤ q + 1) :
    ∃ y' borrow', subStep q x y borrow = some (y', borrow') ∧ (0 ≤ y' ∧ y' < radix) ∧ (0 ≤ borrow' ∧ borrow' ≤ q + 1) ∧
      y' - radix * borrow' = y - q * x - borrow := by
  simp only [radix] at hx hy ⊢
  have hprod : 0 ≤ q * x ∧ q * x ≤ q * 9999 := ⟨mul_nonneg hq.1 hx.1, mul_le_mul_of_nonneg_left (by omega) hq.1⟩
  have hsum : 0 ≤ q * x + borrow := by omega
  have hdiv : (q * x + borrow).tdiv 10000 = (q * x + borrow) / 10000 := Int.tdiv_eq_ediv_of_nonneg hsum
  have hmod : (q * x + borrow).tmod 10000 = (q * x + borrow) % 10000 := Int.tmod_eq_emod_of_nonneg hsum
  unfold subStep
  simp only [radix]
  rw [int4_bind (by omega) (by omega), int4_bind (by omega) (by omega), hmod, int4_bind (by omega) (by omega)]
  by_cases hneg : y - (q * x + borrow) % 10000 < 0
  · rw [if_pos hneg, int4_bind (by omega) (by omega), int4_bind (by omega) (by omega)]
    exact ⟨_, _, rfl, by omega, by omega, by omega⟩
  · rw [if_neg hneg]
    exact ⟨_, _, rfl, by omega, by omega, by omega⟩

/-- `q` times the divisor is subtracted from as many limbs as the divisor has. -/
theorem subLoop_spec {q : ℤ} (hq : 0 ≤ q ∧ q < 100000) (xx yx : List ℤ) (borrow : ℤ) (hlen : xx.length = yx.length)
    (hxx : InRange radix xx) (hyx : InRange radix yx) (hb : 0 ≤ borrow ∧ borrow ≤ q + 1) :
    ∃ yx' borrow', subLoop q xx yx borrow = some (yx', borrow') ∧ yx'.length = yx.length ∧ InRange radix yx' ∧
      (0 ≤ borrow' ∧ borrow' ≤ q + 1) ∧ val radix yx' - radix ^ yx.length * borrow' = val radix yx - q * val radix xx - borrow := by
  induction xx generalizing yx borrow with
  | nil =>
    obtain rfl : yx = [] := List.eq_nil_of_length_eq_zero hlen.symm
    exact ⟨[], borrow, rfl, rfl, hyx, hb, by simp⟩
  | cons x xx ih =>
    cases yx with
    | nil => simp at hlen
    | cons y yx =>
      obtain ⟨hx, hxx'⟩ := inRange_cons.mp hxx
      obtain ⟨hy, hyx'⟩ := inRange_cons.mp hyx
      obtain ⟨y', b', hstep, hy', hb', hval⟩ := subStep_spec hq hx hy hb
      obtain ⟨ys, b, hrun, hlen', hrange, hbr, hrest⟩ := ih yx b' (by simpa using hlen) hxx' hyx' hb'
      refine ⟨y' :: ys, b, ?_, by simp [hlen'], inRange_cons.mpr ⟨hy', hrange⟩, hbr, ?_⟩
      · unfold subLoop
        rw [hstep, Option.bind_eq_bind, Option.bind_some]
        simp only [hrun]
        rfl
      · rw [val_cons, val_cons, val_cons, List.length_cons]
        linear_combination hval + radix * hrest

/-- The divisor is added to as many limbs as it has. -/
theorem addLoop_spec (xx yx : List ℤ) (carry : ℤ) (hlen : xx.length = yx.length) (hxx : InRange radix xx)
    (hyx : InRange radix yx) (hc : 0 ≤ carry ∧ carry ≤ 1) :
    ∃ yx' carry', addLoop xx yx carry = some (yx', carry') ∧ yx'.length = yx.length ∧ InRange radix yx' ∧
      (0 ≤ carry' ∧ carry' ≤ 1) ∧ val radix yx' + radix ^ yx.length * carry' = val radix yx + val radix xx + carry := by
  induction xx generalizing yx carry with
  | nil =>
    obtain rfl : yx = [] := List.eq_nil_of_length_eq_zero hlen.symm
    exact ⟨[], carry, rfl, rfl, hyx, hc, by simp⟩
  | cons x xx ih =>
    cases yx with
    | nil => simp at hlen
    | cons y yx =>
      obtain ⟨hx, hxx'⟩ := inRange_cons.mp hxx
      obtain ⟨hy, hyx'⟩ := inRange_cons.mp hyx
      have hsum : 0 ≤ y + (x + carry) := by omega
      obtain ⟨hq0, hr0, hr1⟩ := tdiv_tmod_range radix_pos hsum
      have hsplit := tmod_add_tdiv radix (y + (x + carry))
      have hq1 : (y + (x + carry)).tdiv radix ≤ 1 := by
        simp only [radix] at hx hy hr0 hr1 hsplit ⊢
        omega
      obtain ⟨ys, c, hrun, hlen', hrange, hcr, hrest⟩ := ih yx _ (by simpa using hlen) hxx' hyx' ⟨hq0, hq1⟩
      refine ⟨_ :: ys, c, ?_, by simp [hlen'], inRange_cons.mpr ⟨⟨hr0, hr1⟩, hrange⟩, hcr, ?_⟩
      · simp only [radix] at hx hy
        unfold addLoop
        rw [int4_bind (by omega) (by omega), int4_bind (by omega) (by omega)]
        simp only [hrun]
        rfl
      · rw [val_cons, val_cons, val_cons, List.length_cons]
        linear_combination hsplit + radix * hrest

section Digit

variable {xx : List ℤ} {W : ℤ} (hxx : InRange radix xx) (hX : 0 < val radix xx)
include hxx hX

/-- Adding the divisor back ends at the quotient digit and the remainder. The estimate comes down by one in each round. -/
theorem addBack_spec (fuel : ℕ) (q top : ℤ) (yx : List ℤ) (hlen : xx.length = yx.length) (hyx : InRange radix yx)
    (hval : val radix yx + radix ^ xx.length * top = W - q * val radix xx) (hq : q < 100000) (htop : -1000000 ≤ top ∧ top < 1000000)
    (hW : 0 ≤ W) (hle : W / val radix xx ≤ q) (hfuel : q < W / val radix xx + fuel) :
    ∃ yx', addBack xx fuel q yx top = some (W / val radix xx, yx', 0) ∧ yx'.length = xx.length ∧ InRange radix yx' ∧
      val radix yx' = W % val radix xx := by
  have hq0 : 0 ≤ W / val radix xx := Int.ediv_nonneg hW hX.le
  have hdm := Int.mul_ediv_add_emod W (val radix xx)
  have hmod := Int.emod_nonneg W hX.ne'
  have hmodlt := Int.emod_lt_of_pos W hX
  have hpow : val radix xx < radix ^ xx.length := val_lt radix_pos.le hxx
  induction fuel generalizing q top yx with
  | zero =>
    omega
  | succ fuel ih =>
    have hy0 := val_nonneg radix_pos.le hyx
    have hylt := val_lt radix_pos.le hyx
    rw [← hlen] at hylt
    unfold addBack
    by_cases hneg : top < 0
    · -- the remainder is negative: the estimate is above the digit
      have hWneg : W - q * val radix xx < 0 := by
        nlinarith
      have hgt : W / val radix xx < q := by
        by_contra hcon
        have hqe : q = W / val radix xx := by omega
        rw [hqe] at hWneg
        linarith [mul_comm (W / val radix xx) (val radix xx)]
      obtain ⟨ys, c, hrun, hlen', hrange, hc, hsum⟩ := addLoop_spec xx yx 0 hlen hxx hyx (by norm_num)
      have hval' : val radix ys + radix ^ xx.length * (top + c) = W - (q - 1) * val radix xx := by
        rw [← hlen] at hsum
        linear_combination hsum + hval
      obtain ⟨yx', hrec, h1, h2, h3⟩ :=
        ih (q - 1) (top + c) ys (by omega) hrange hval' (by omega) (by omega) (by omega) (by push_cast at hfuel; omega)
      refine ⟨yx', ?_, h1, h2, h3⟩
      rw [if_pos hneg, int4_bind (by omega) (by omega), hrun, Option.bind_eq_bind, Option.bind_some]
      simp only
      rw [int4_bind (by omega) (by omega)]
      exact hrec
    · have hqe : q = W / val radix xx := by
        apply le_antisymm _ hle
        rw [Int.le_ediv_iff_mul_le hX]
        have : 0 ≤ radix ^ xx.length * top := mul_nonneg (pow_nonneg radix_pos.le _) (by omega)
        linarith
      have hrem : val radix yx + radix ^ xx.length * top = W % val radix xx := by
        rw [hval, hqe]
        linarith [mul_comm (W / val radix xx) (val radix xx)]
      have htop0 : top = 0 := by
        by_contra hne
        have h1 : 1 ≤ top := by omega
        have : radix ^ xx.length ≤ radix ^ xx.length * top := le_mul_of_one_le_right (pow_nonneg radix_pos.le _) h1
        linarith
      subst htop0
      refine ⟨yx, by rw [if_neg hneg, hqe], hlen.symm, hyx, by simpa using hrem⟩

end Digit

/-- A number lies between its top limb and the next, as many places up as there are limbs below. -/
theorem val_snoc_bounds {xs : List ℤ} {x : ℤ} (h : InRange radix xs) :
    x * radix ^ xs.length ≤ val radix (xs ++ [x]) ∧ val radix (xs ++ [x]) < (x + 1) * radix ^ xs.length := by
  have h0 := val_nonneg radix_pos.le h
  have h1 := val_lt radix_pos.le h
  rw [val_append, val_cons, val_nil]
  constructor <;> linarith [mul_comm x (radix ^ xs.length)]

theorem inRange_append {ds es : List ℤ} : InRange radix (ds ++ es) ↔ InRange radix ds ∧ InRange radix es := by
  simp only [InRange, List.mem_append]
  exact ⟨fun h => ⟨fun d hd => h d (Or.inl hd), fun d hd => h d (Or.inr hd)⟩, fun h d hd => hd.elim (h.1 d) (h.2 d)⟩

/-- One digit of the quotient: the dividend `W` is the remainder with `top` as its highest limb. -/
theorem divDigit_spec {xs ys : List ℤ} {x y top : ℤ} (hlen : xs.length = ys.length) (hxs : InRange radix (xs ++ [x]))
    (hys : InRange radix (ys ++ [y])) (htop : 0 ≤ top ∧ top < radix) (hx : 1000 ≤ x)
    (hW : val radix (ys ++ [y]) + radix ^ (ys.length + 1) * top < val radix (xs ++ [x]) * radix) :
    ∃ yx, divDigit (xs ++ [x]) (ys ++ [y]) top = some ((val radix (ys ++ [y]) + radix ^ (ys.length + 1) * top) / val radix (xs ++ [x]), yx) ∧
      yx.length = ys.length + 1 ∧ InRange radix yx ∧
      val radix yx = (val radix (ys ++ [y]) + radix ^ (ys.length + 1) * top) % val radix (xs ++ [x]) := by
  obtain ⟨hxs', hx'⟩ := inRange_append.mp hxs
  obtain ⟨hys', hy'⟩ := inRange_append.mp hys
  obtain ⟨-, hxlt⟩ := (inRange_cons.mp hx').1
  obtain ⟨hy0, hylt⟩ := (inRange_cons.mp hy').1
  obtain ⟨hXlo, hXhi⟩ := val_snoc_bounds (x := x) hxs'
  obtain ⟨-, hYhi⟩ := val_snoc_bounds (x := y) hys'
  have hpow : 0 < radix ^ ys.length := pow_pos radix_pos _
  have hY0 := val_nonneg radix_pos.le hys
  have hX : 0 < val radix (xs ++ [x]) := lt_of_lt_of_le (mul_pos (by omega) (pow_pos radix_pos _)) hXlo
  have hlast : (xs ++ [x]).getLastD 0 = x ∧ (ys ++ [y]).getLastD 0 = y := by simp
  have hlenx : (xs ++ [x]).length = (ys ++ [y]).length := by simp [hlen]
  have hleny : (ys ++ [y]).length = ys.length + 1 := by simp
  have hW0 : 0 ≤ val radix (ys ++ [y]) + radix ^ (ys.length + 1) * top := add_nonneg hY0 (mul_nonneg (pow_nonneg radix_pos.le _) htop.1)
  -- the two limbs the estimate is taken from
  have hWhi : val radix (ys ++ [y]) + radix ^ (ys.length + 1) * top < (top * radix + y + 1) * radix ^ ys.length := by
    linear_combination hYhi
  rw [hlen] at hXlo hXhi
  have hest := div_le_estimate hpow hW0 (by omega) hWhi hXlo
  generalize hWdef : val radix (ys ++ [y]) + radix ^ (ys.length + 1) * top = W at hW hW0 hWhi hest ⊢
  have hq0 : 0 ≤ W / val radix (xs ++ [x]) := Int.ediv_nonneg hW0 hX.le
  have hqlt : W / val radix (xs ++ [x]) < radix := Int.ediv_lt_of_lt_mul hX (by rw [mul_comm]; exact hW)
  have hnum : 0 ≤ top * radix + y := add_nonneg (mul_nonneg htop.1 radix_pos.le) hy0
  have htdiv : (top * radix + y).tdiv x = (top * radix + y) / x := Int.tdiv_eq_ediv_of_nonneg hnum
  have hestlt : (top * radix + y) / x < 100000 := by
    apply Int.ediv_lt_of_lt_mul (by omega)
    simp only [radix] at *
    omega
  have hsub : ∃ yx, subDigit (xs ++ [x]) ((top * radix + y) / x) (ys ++ [y]) top = some (W / val radix (xs ++ [x]), yx, 0) ∧
      yx.length = ys.length + 1 ∧ InRange radix yx ∧ val radix yx = W % val radix (xs ++ [x]) := by
    unfold subDigit
    by_cases hz : (top * radix + y) / x = 0
    · have hlt : top * radix + y < x := by
        by_contra hge
        have h1 : 1 ≤ (top * radix + y) / x := (Int.le_ediv_iff_mul_le (by omega)).mpr (by omega)
        omega
      have htop0 : top = 0 := by
        simp only [radix] at *
        omega
      have hq : W / val radix (xs ++ [x]) = 0 := le_antisymm (hz ▸ hest) hq0
      have hWlt : W < val radix (xs ++ [x]) := by
        by_contra hge
        have h1 : 1 ≤ W / val radix (xs ++ [x]) := (Int.le_ediv_iff_mul_le hX).mpr (by omega)
        omega
      refine ⟨ys ++ [y], by rw [if_neg (not_not_intro hz), hz, hq, htop0], hleny, hys, ?_⟩
      rw [Int.emod_eq_of_lt hW0 hWlt, ← hWdef, htop0, mul_zero, add_zero]
    · obtain ⟨yx, b, hrun, hl, hr, hb, hv⟩ := subLoop_spec ⟨le_trans hq0 hest, hestlt⟩ (xs ++ [x]) (ys ++ [y]) 0 hlenx hxs hys (by omega)
      simp only [radix] at htop
      have hval : val radix yx + radix ^ (xs ++ [x]).length * (top - b) = W - (top * radix + y) / x * val radix (xs ++ [x]) := by
        rw [← hWdef, hlenx, hleny]
        rw [hleny] at hv
        linear_combination hv
      obtain ⟨yx', hback, h1, h2, h3⟩ := addBack_spec hxs hX (((top * radix + y) / x).toNat + 1) ((top * radix + y) / x) (top - b) yx
        (by rw [hl, hlenx]) hr hval hestlt (by omega) hW0 hest (by push_cast; omega)
      refine ⟨yx', ?_, by rw [h1, hlenx, hleny], h2, h3⟩
      rw [if_pos hz, hrun, Option.bind_eq_bind, Option.bind_some]
      simp only
      rw [int4_bind (by omega) (by omega)]
      exact hback
  obtain ⟨yx, hrun, h1, h2, h3⟩ := hsub
  refine ⟨yx, ?_, h1, h2, h3⟩
  unfold divDigit
  rw [hlast.1, hlast.2]
  simp only [radix] at htop hylt
  rw [int4_bind (by simp only [radix]; omega) (by simp only [radix]; omega),
    int4_bind (by simp only [radix]; omega) (by simp only [radix]; omega), htdiv, hrun]
  simp only [Option.bind_eq_bind, Option.bind_some, guard, hq0, hqlt, and_self, if_true]
  rfl

/-- All digits: what is left of the dividend is the remainder `yx` followed by the limbs `low`. -/
theorem divDigits_spec {xs : List ℤ} {x : ℤ} (hxs : InRange radix (xs ++ [x])) (hx : 1000 ≤ x) (low yx : List ℤ)
    (hlow : InRange radix low) (hyx : InRange radix yx) (hlen : yx.length = xs.length + 1) (hlt : val radix yx < val radix (xs ++ [x])) :
    ∃ qs, divDigits (xs ++ [x]) low yx = some qs ∧ qs.length = low.length ∧ InRange radix qs ∧
      val radix qs.reverse = (val radix low.reverse + radix ^ low.length * val radix yx) / val radix (xs ++ [x]) := by
  induction low generalizing yx with
  | nil =>
    have hy0 := val_nonneg radix_pos.le hyx
    exact ⟨[], rfl, rfl, by simp, by simpa using (Int.ediv_eq_zero_of_lt hy0 hlt).symm⟩
  | cons l low ih =>
    obtain ⟨hl, hlow'⟩ := inRange_cons.mp hlow
    obtain ⟨ys, t, rfl⟩ : ∃ ys t, yx = ys ++ [t] := by
      refine ⟨yx.dropLast, yx.getLast (by rintro rfl; simp at hlen), (List.dropLast_append_getLast _).symm⟩
    obtain ⟨zs, y, hzs⟩ : ∃ zs y, l :: ys = zs ++ [y] :=
      ⟨(l :: ys).dropLast, (l :: ys).getLast (by simp), (List.dropLast_append_getLast _).symm⟩
    obtain ⟨hys, ht⟩ := inRange_append.mp hyx
    obtain ⟨ht', -⟩ := inRange_cons.mp ht
    have hlys : InRange radix (zs ++ [y]) := hzs ▸ inRange_cons.mpr ⟨hl, hys⟩
    have hlenz : zs.length = ys.length := by
      have := congrArg List.length hzs
      simpa using this.symm
    have hlen' : ys.length = xs.length := by simpa using hlen
    have hdividend : val radix (zs ++ [y]) + radix ^ (zs.length + 1) * t = l + radix * val radix (ys ++ [t]) := by
      rw [← hzs, hlenz, val_cons, val_append, val_cons, val_nil]
      ring
    have hXpos : 0 < val radix (xs ++ [x]) := lt_of_le_of_lt (val_nonneg radix_pos.le hyx) hlt
    obtain ⟨yx', hrun, hl1, hr1, hv1⟩ := divDigit_spec (by rw [hlenz, hlen']) hxs hlys ht' hx (by
      rw [hdividend]
      calc l + radix * val radix (ys ++ [t]) < radix + radix * val radix (ys ++ [t]) := by linarith [hl.2]
        _ = radix * (val radix (ys ++ [t]) + 1) := by ring
        _ ≤ radix * val radix (xs ++ [x]) := mul_le_mul_of_nonneg_left hlt radix_pos.le
        _ = _ := mul_comm _ _)
    rw [hdividend] at hrun hv1
    obtain ⟨qs, hqs, hql, hqr, hqv⟩ := ih yx' hlow' hr1 (by rw [hl1, hlenz, hlen']) (hv1 ▸ Int.emod_lt_of_pos _ hXpos)
    have hW0 : 0 ≤ l + radix * val radix (ys ++ [t]) := add_nonneg hl.1 (mul_nonneg radix_pos.le (val_nonneg radix_pos.le hyx))
    have hq0 : 0 ≤ (l + radix * val radix (ys ++ [t])) / val radix (xs ++ [x]) := Int.ediv_nonneg hW0 hXpos.le
    have hq1 : (l + radix * val radix (ys ++ [t])) / val radix (xs ++ [x]) < radix := by
      apply Int.ediv_lt_of_lt_mul hXpos
      calc l + radix * val radix (ys ++ [t]) < radix + radix * val radix (ys ++ [t]) := by linarith [hl.2]
        _ = radix * (val radix (ys ++ [t]) + 1) := by ring
        _ ≤ radix * val radix (xs ++ [x]) := mul_le_mul_of_nonneg_left hlt radix_pos.le
    refine ⟨_ :: qs, ?_, by simp [hql], inRange_cons.mpr ⟨⟨hq0, hq1⟩, hqr⟩, ?_⟩
    · unfold divDigits
      rw [List.dropLast_concat, List.getLastD_concat, hzs, hrun, Option.bind_eq_bind, Option.bind_some]
      simp only [hqs]
      rfl
    · rw [hv1] at hqv
      rw [List.reverse_cons, List.reverse_cons, val_append radix qs.reverse, val_append radix low.reverse, hqv, List.length_reverse,
        List.length_reverse, hql, val_cons, val_nil, val_cons, val_nil, List.length_cons]
      have hdm := Int.mul_ediv_add_emod (l + radix * val radix (ys ++ [t])) (val radix (xs ++ [x]))
      have hsplit : val radix low.reverse + radix ^ low.length * (l + radix * 0) + radix ^ (low.length + 1) * val radix (ys ++ [t]) =
            val radix low.reverse + radix ^ low.length * ((l + radix * val radix (ys ++ [t])) % val radix (xs ++ [x])) +
              radix ^ low.length * ((l + radix * val radix (ys ++ [t])) / val radix (xs ++ [x])) * val radix (xs ++ [x]) := by
        linear_combination -(radix ^ low.length) * hdm
      rw [hsplit, Int.add_mul_ediv_right _ _ hXpos.ne']
      ring

end EbDivAux

end Gtm
