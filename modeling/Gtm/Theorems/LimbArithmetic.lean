import Gtm.Lemmas.EbMuldiv

/-!
# Products and quotients of mantissas

`eb_mul` and `eb_div` on normalised mantissas of 18 digits: the leading 18 digits of the exact product and of the exact quotient,
normalised, with the scale that goes with them. That a result is there at all says that no intermediate value left the range of an
`int4`, that no assertion failed and that the correction of each estimated digit came to an end.
-/

namespace Gtm

open Limbs EbMulAux EbDivAux

namespace LimbArithmeticAux

/-- A list of nine limbs. -/
theorem nine_limbs {r : List ℤ} (h : r.length = 9) : ∃ a b c d e f g i j, r = [a, b, c, d, e, f, g, i, j] := by
  rcases r with _ | ⟨a, _ | ⟨b, _ | ⟨c, _ | ⟨d, _ | ⟨e, _ | ⟨f, _ | ⟨g, _ | ⟨i, _ | ⟨j, _ | ⟨k, r⟩⟩⟩⟩⟩⟩⟩⟩⟩⟩ <;> simp at h
  exact ⟨a, b, c, d, e, f, g, i, j, rfl⟩

/-- A list of five limbs. -/
theorem five_limbs {r : List ℤ} (h : r.length = 5) : ∃ a b c d e, r = [a, b, c, d, e] := by
  rcases r with _ | ⟨a, _ | ⟨b, _ | ⟨c, _ | ⟨d, _ | ⟨e, _ | ⟨k, r⟩⟩⟩⟩⟩⟩ <;> simp at h
  exact ⟨a, b, c, d, e, rfl⟩

/-- The words assembled from the limbs of a product are its leading digits. -/
theorem ebMul_words {v u : Mantissa} (hv : v.Words) (hu : u.Words) : ∃ scale p, ebMul v u = some (scale, p) ∧ p.Words ∧
      (10 ^ 35 ≤ v.val * u.val ∧ scale = 0 ∧ p.val = v.val * u.val / 10 ^ 18 ∨
        v.val * u.val < 10 ^ 35 ∧ scale = -1 ∧ p.val = v.val * u.val / 10 ^ 17) := by
  obtain ⟨a0, a1, a2, a3, a4, hva, hra, hvala, -⟩ := ebLimbs_spec (a := 10000) (b := 1000) (by norm_num) hv
  obtain ⟨b0, b1, b2, b3, b4, hub, hrb, hvalb, -⟩ := ebLimbs_spec (a := 10000) (b := 1000) (by norm_num) hu
  have hprod : v.val * u.val < 10 ^ 36 := by
    calc v.val * u.val ≤ v.val * 10 ^ 18 := mul_le_mul_of_nonneg_left hu.hi.le hv.nonneg
      _ < 10 ^ 18 * 10 ^ 18 := mul_lt_mul_of_pos_right hv.hi (by norm_num)
      _ = 10 ^ 36 := by norm_num
  have hvals : val radix [a0, a1, a2, a3, a4] * val radix [b0, b1, b2, b3, b4] = v.val * u.val := by
    rw [hvala, hvalb]
    norm_num
  have hzeros : val radix (List.replicate 9 0) = 0 := val_zeros radix 9
  obtain ⟨r, hr, hlen, hrange, hval⟩ := mulRows_spec hra [b0, b1, b2, b3, b4] (List.replicate 9 0) hrb
    (inRange_zeros radix_pos 9) (by simp) (by simp) (by rw [hvals, hzeros]; simp only [List.length_replicate, radix]; omega) (by simp)
  rw [hvals, hzeros] at hval
  obtain ⟨p0, p1, p2, p3, p4, p5, p6, p7, p8, rfl⟩ := nine_limbs (by simpa using hlen)
  generalize v.val * u.val = P at *
  simp only [inRange_cons, inRange_nil, and_true, val_cons, val_nil, radix] at hrange hval
  have hdiv : ∀ x c : ℤ, 0 ≤ x → x.tdiv c = x / c ∧ x.tmod c = x % c := fun x c hx =>
    ⟨Int.tdiv_eq_ediv_of_nonneg hx, Int.tmod_eq_emod_of_nonneg hx⟩
  unfold ebMul
  simp only [radix] at hva hub hr ⊢
  norm_num only at hva hub ⊢
  rw [hva, hub]
  simp only [Option.bind_eq_bind, Option.bind_some, hr, hdiv p4 _ (by omega), hdiv p6 _ (by omega)]
  by_cases hbig : p8 ≥ 1000
  · rw [if_pos hbig, ebWord_eq (by omega) (by omega) (by omega) (by omega) (by omega) (by omega), Option.bind_some,
      ebWord_eq (by omega) (by omega) (by omega) (by omega) (by omega) (by omega), Option.bind_some]
    obtain ⟨hw, hpv⟩ := Mantissa.words_of_val (v := ⟨(p8 * 10000 + p7) * 10 + p6 / 1000, (p6 % 1000 * 10000 + p5) * 100 + p4 / 100⟩)
      (N := P / 10 ^ 18) (by omega) (by omega) (by simp only; omega) (by simp only; omega)
    exact ⟨0, _, rfl, hw, Or.inl ⟨by omega, rfl, hpv⟩⟩
  · rw [if_neg hbig, ebWord_eq (by omega) (by omega) (by omega) (by omega) (by omega) (by omega), Option.bind_some,
      ebWord_eq (by omega) (by omega) (by omega) (by omega) (by omega) (by omega), Option.bind_some]
    obtain ⟨hw, hpv⟩ := Mantissa.words_of_val (v := ⟨(p8 * 10000 + p7) * 100 + p6 / 100, (p6 % 100 * 10000 + p5) * 1000 + p4 / 10⟩)
      (N := P / 10 ^ 17) (by omega) (by omega) (by simp only; omega) (by simp only; omega)
    exact ⟨-1, _, rfl, hw, Or.inr ⟨by omega, rfl, hpv⟩⟩

/-- The comparison of the words is the comparison of the mantissas. -/
theorem le_iff_val {x y : Mantissa} (hx : x.Words) (hy : y.Words) : (x.m1 < y.m1 ∨ x.m1 = y.m1 ∧ x.m0 ≤ y.m0) ↔ x.val ≤ y.val := by
  obtain ⟨-, -, hx0, hx1⟩ := hx
  obtain ⟨-, -, hy0, hy1⟩ := hy
  unfold Mantissa.val
  omega

/-- The last part of `eb_div`: the digits `Q` of the quotient, of which there are twenty, are cut to eighteen. -/
theorem ebDiv_assemble {q0 q1 q2 q3 q4 Q : ℤ} (hrange : InRange radix [q4, q3, q2, q1, q0]) (hQ : val radix [q0, q1, q2, q3, q4] = Q) :
    ∃ w0 w1, ebWord (q2.tmod 1000) q1 100 (q0.tdiv 100) = some w0 ∧ ebWord q4 q3 10 (q2.tdiv 1000) = some w1 ∧
      (⟨w1, w0⟩ : Mantissa).Words ∧ (⟨w1, w0⟩ : Mantissa).val = Q / 100 := by
  simp only [inRange_cons, inRange_nil, and_true, val_cons, val_nil, radix] at hrange hQ
  have hdiv : ∀ x c : ℤ, 0 ≤ x → x.tdiv c = x / c ∧ x.tmod c = x % c := fun x c hx =>
    ⟨Int.tdiv_eq_ediv_of_nonneg hx, Int.tmod_eq_emod_of_nonneg hx⟩
  rw [(hdiv q0 _ (by omega)).1, (hdiv q2 _ (by omega)).1, (hdiv q2 _ (by omega)).2]
  refine ⟨_, _, ebWord_eq (by omega) (by omega) (by omega) (by omega) (by omega) (by omega),
    ebWord_eq (by omega) (by omega) (by omega) (by omega) (by omega) (by omega), ?_⟩
  exact Mantissa.words_of_val (by omega) (by omega) (by simp only; omega) (by simp only; omega)

/-- `eb_div` once the dividend has been broken up at the place `a` that belongs to its scale: it is moved up so far that it is
below the divisor times the radix. -/
theorem ebDiv_digits {x y : Mantissa} {a b : ℤ} (hab : a = 1000 ∧ b = 100 ∨ a = 100 ∧ b = 10) (hx : x.Normal) (hy : y.Words)
    (hlt : y.val * (10000 / a) < x.val * 100) :
    ∃ yx xx q0 q1 q2 q3 q4, ebLimbs a b y = some yx ∧ ebLimbs 100 10 x = some xx ∧ yx.getLastD 0 ≤ xx.getLastD 0 ∧
      divDigits xx (List.replicate 5 0) yx = some [q4, q3, q2, q1, q0] ∧ InRange radix [q4, q3, q2, q1, q0] ∧
      val radix [q0, q1, q2, q3, q4] = y.val * (10000 / a) * 10 ^ 20 / (x.val * 100) := by
  obtain ⟨y0, y1, y2, y3, y4, hye, hyr, hyv, -⟩ := ebLimbs_spec (a := a) (b := b) (Or.inr hab) hy
  obtain ⟨x0, x1, x2, x3, x4, hxe, hxr, hxv, hx4⟩ := ebLimbs_spec (a := 100) (b := 10) (by norm_num) hx.toWords
  have hlead := hx.m1_lead
  have hx4' : 1000 ≤ x4 := by omega
  norm_num only at hxv
  obtain ⟨qs, hqs, hlen, hqr, hqv⟩ := @divDigits_spec [x0, x1, x2, x3] x4 hxr hx4' (List.replicate 5 0)
    [y0, y1, y2, y3, y4] (inRange_zeros radix_pos 5) hyr rfl (by
      change val radix [y0, y1, y2, y3, y4] < val radix [x0, x1, x2, x3, x4]
      rw [hyv, hxv]
      exact hlt)
  obtain ⟨q4, q3, q2, q1, q0, rfl⟩ := five_limbs (by simpa using hlen)
  refine ⟨_, _, q0, q1, q2, q3, q4, hye, hxe, ?_, hqs, hqr, ?_⟩
  · -- the top limbs compare as the numbers do
    rw [← hyv, ← hxv] at hlt
    simp only [inRange_cons, inRange_nil, and_true, val_cons, val_nil, radix] at hxr hyr hlt
    change y4 ≤ x4
    omega
  · rw [List.reverse_replicate, val_zeros, List.length_replicate, hyv] at hqv
    change val radix [q0, q1, q2, q3, q4] = _ / val radix [x0, x1, x2, x3, x4] at hqv
    rw [hqv, hxv, mul_comm]
    norm_num [radix]

/-- The words assembled from the digits of a quotient are its leading digits. -/
theorem ebDiv_words {x y : Mantissa} (hx : x.Normal) (hy : y.Words) (hy' : 10 ^ 17 ≤ y.val ∨ y.val = 0) :
    ∃ scale q, ebDiv x y = some (scale, q) ∧ q.Words ∧ (x.val ≤ y.val ∧ scale = 1 ∧ q.val = y.val * 10 ^ 17 / x.val ∨
        y.val < x.val ∧ scale = 0 ∧ q.val = y.val * 10 ^ 18 / x.val) := by
  have hX := hx.lo
  have hX' := hx.hi
  have hY' := hy.hi
  by_cases hle : x.val ≤ y.val
  · obtain ⟨yx, xx, q0, q1, q2, q3, q4, hye, hxe, htop, hrun, hrange, hval⟩ :=
      ebDiv_digits (a := 1000) (b := 100) (by norm_num) hx hy (by norm_num only; omega)
    obtain ⟨w0, w1, hw0, hw1, hwords, hq⟩ := ebDiv_assemble hrange rfl
    rw [hval] at hq
    have hquot : y.val * (10000 / 1000) * 10 ^ 20 / (x.val * 100) / 100 = y.val * 10 ^ 17 / x.val := by
      rw [Int.ediv_ediv_of_nonneg (by omega), show y.val * (10000 / 1000) * 10 ^ 20 = y.val * 10 ^ 17 * 10000 by norm_num; ring,
        show x.val * 100 * 100 = x.val * 10000 by ring, Int.mul_ediv_mul_of_pos_left _ _ (by norm_num)]
    rw [hquot] at hq
    have hlo : 10 ^ 17 ≤ y.val * 10 ^ 17 / x.val := by
      rw [Int.le_ediv_iff_mul_le (by omega)]
      omega
    have hnorm := hwords.normal (hq ▸ hlo)
    refine ⟨1, _, ?_, hwords, Or.inl ⟨hle, rfl, hq⟩⟩
    unfold ebDiv
    simp only [le_iff_val hx.toWords hy, hle, decide_true, if_true]
    simp only [radix] at hye hxe ⊢
    norm_num only at hye hxe ⊢
    rw [hye, hxe]
    have hguard : (mantLo : ℤ) ≤ w1 ∧ w1 < mantHi := ⟨hnorm.m1_lead, hwords.m1_lt⟩
    simp only [Option.bind_eq_bind, Option.bind_some, hrun, hw0, hw1, guard, htop, hguard, and_self, true_or, if_true]
    rfl
  · have hlt : y.val < x.val := not_le.mp hle
    obtain ⟨yx, xx, q0, q1, q2, q3, q4, hye, hxe, htop, hrun, hrange, hval⟩ :=
      ebDiv_digits (a := 100) (b := 10) (by norm_num) hx hy (by norm_num only; omega)
    obtain ⟨w0, w1, hw0, hw1, hwords, hq⟩ := ebDiv_assemble hrange rfl
    rw [hval] at hq
    have hquot : y.val * (10000 / 100) * 10 ^ 20 / (x.val * 100) / 100 = y.val * 10 ^ 18 / x.val := by
      rw [Int.ediv_ediv_of_nonneg (by omega), show y.val * (10000 / 100) * 10 ^ 20 = y.val * 10 ^ 18 * 10000 by norm_num; ring,
        show x.val * 100 * 100 = x.val * 10000 by ring, Int.mul_ediv_mul_of_pos_left _ _ (by norm_num)]
    rw [hquot] at hq
    have hguard : (mantLo : ℤ) ≤ w1 ∧ w1 < mantHi ∨ w1 = 0 ∧ w0 = 0 ∧ y.m1 = 0 ∧ y.m0 = 0 := by
      rcases hy' with hlo | hzero
      · have hlo' : 10 ^ 17 ≤ y.val * 10 ^ 18 / x.val := by
          rw [Int.le_ediv_iff_mul_le (by omega)]
          omega
        exact Or.inl ⟨(hwords.normal (hq ▸ hlo')).m1_lead, hwords.m1_lt⟩
      · right
        rw [hzero, zero_mul, Int.zero_ediv] at hq
        obtain ⟨h1, -, h0, -⟩ := hwords
        obtain ⟨h1', -, h0', -⟩ := hy
        unfold Mantissa.val at hq hzero
        simp only at hq h1 h0
        omega
    refine ⟨0, _, ?_, hwords, Or.inr ⟨hlt, rfl, hq⟩⟩
    unfold ebDiv
    simp only [le_iff_val hx.toWords hy, hle, decide_false, Bool.false_eq_true, if_false]
    simp only [radix] at hye hxe ⊢
    norm_num only at hye hxe ⊢
    rw [hye, hxe]
    simp only [Option.bind_eq_bind, Option.bind_some, hrun, hw0, hw1, guard, htop, hguard, if_true]
    rfl

/-- The leading digits of a product of normalised mantissas are normalised. -/
theorem product_normal {v u p : Mantissa} {scale : ℤ} (hv : v.Normal) (hu : u.Normal) (hp : p.Words)
    (hval : 10 ^ 35 ≤ v.val * u.val ∧ scale = 0 ∧ p.val = v.val * u.val / 10 ^ 18 ∨
      v.val * u.val < 10 ^ 35 ∧ scale = -1 ∧ p.val = v.val * u.val / 10 ^ 17) : p.Normal := by
  have hprod : 10 ^ 34 ≤ v.val * u.val := by
    calc (10 : ℤ) ^ 34 = 10 ^ 17 * 10 ^ 17 := by norm_num
      _ ≤ v.val * u.val := mul_le_mul hv.lo hu.lo (by norm_num) hv.toWords.nonneg
  apply hp.normal
  rcases hval with ⟨h, -, hp⟩ | ⟨h, -, hp⟩
  all_goals
    omega

/-- The leading digits of a quotient of normalised mantissas are normalised. -/
theorem quotient_normal {x y q : Mantissa} {scale : ℤ} (hx : x.Normal) (hy : y.Normal) (hq : q.Words)
    (hval : x.val ≤ y.val ∧ scale = 1 ∧ q.val = y.val * 10 ^ 17 / x.val ∨
      y.val < x.val ∧ scale = 0 ∧ q.val = y.val * 10 ^ 18 / x.val) : q.Normal := by
  have hX := hx.lo
  have hX' := hx.hi
  have hY := hy.lo
  apply hq.normal
  rcases hval with ⟨h, -, hq⟩ | ⟨h, -, hq⟩
  all_goals
    rw [hq, Int.le_ediv_iff_mul_le (by omega)]
    omega

end LimbArithmeticAux

open LimbArithmeticAux

/-- `eb_mul` gives the leading 18 digits of the product, and scale `-1` where the product of the fractions is below a tenth. -/
theorem ebMul_truncates {v u : Mantissa} (hv : v.Normal) (hu : u.Normal) :
    ∃ scale p, ebMul v u = some (scale, p) ∧ p.Normal ∧
      (10 ^ 35 ≤ v.val * u.val ∧ scale = 0 ∧ p.val = v.val * u.val / 10 ^ 18 ∨
        v.val * u.val < 10 ^ 35 ∧ scale = -1 ∧ p.val = v.val * u.val / 10 ^ 17) := by
  obtain ⟨scale, p, hrun, hw, hval⟩ := ebMul_words hv.toWords hu.toWords
  exact ⟨scale, p, hrun, product_normal hv hu hw hval, hval⟩

theorem ebMul_truncates_nines :
    ∃ scale p, ebMul ⟨999999999, 999999999⟩ ⟨100000000, 1⟩ = some (scale, p) ∧ p.Normal ∧
      (10 ^ 35 ≤ Mantissa.val ⟨999999999, 999999999⟩ * Mantissa.val ⟨100000000, 1⟩ ∧ scale = 0 ∧
          p.val = Mantissa.val ⟨999999999, 999999999⟩ * Mantissa.val ⟨100000000, 1⟩ / 10 ^ 18 ∨
        Mantissa.val ⟨999999999, 999999999⟩ * Mantissa.val ⟨100000000, 1⟩ < 10 ^ 35 ∧ scale = -1 ∧
          p.val = Mantissa.val ⟨999999999, 999999999⟩ * Mantissa.val ⟨100000000, 1⟩ / 10 ^ 17) :=
  ebMul_truncates ⟨⟨by decide, by decide, by decide, by decide⟩, by decide⟩ ⟨⟨by decide, by decide, by decide, by decide⟩, by decide⟩

/-- `eb_div` gives the leading 18 digits of the quotient, and scale `1` where the quotient of the fractions is not below one. -/
theorem ebDiv_truncates {x y : Mantissa} (hx : x.Normal) (hy : y.Normal) :
    ∃ scale q, ebDiv x y = some (scale, q) ∧ q.Normal ∧
      (x.val ≤ y.val ∧ scale = 1 ∧ q.val = y.val * 10 ^ 17 / x.val ∨
        y.val < x.val ∧ scale = 0 ∧ q.val = y.val * 10 ^ 18 / x.val) := by
  obtain ⟨scale, q, hrun, hw, hval⟩ := ebDiv_words hx hy.toWords (Or.inl hy.lo)
  exact ⟨scale, q, hrun, quotient_normal hx hy hw hval, hval⟩

theorem ebDiv_truncates_nines :
    ∃ scale q, ebDiv ⟨100099999, 999999999⟩ ⟨999999999, 999999999⟩ = some (scale, q) ∧ q.Normal ∧
      (Mantissa.val ⟨100099999, 999999999⟩ ≤ Mantissa.val ⟨999999999, 999999999⟩ ∧ scale = 1 ∧
          q.val = Mantissa.val ⟨999999999, 999999999⟩ * 10 ^ 17 / Mantissa.val ⟨100099999, 999999999⟩ ∨
        Mantissa.val ⟨999999999, 999999999⟩ < Mantissa.val ⟨100099999, 999999999⟩ ∧ scale = 0 ∧
          q.val = Mantissa.val ⟨999999999, 999999999⟩ * 10 ^ 18 / Mantissa.val ⟨100099999, 999999999⟩) :=
  ebDiv_truncates ⟨⟨by decide, by decide, by decide, by decide⟩, by decide⟩ ⟨⟨by decide, by decide, by decide, by decide⟩, by decide⟩

end Gtm
