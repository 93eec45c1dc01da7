import Gtm.Lemmas.IntShortcut
import Gtm.Lemmas.NumberAdd
import Gtm.Lemmas.NumberCanonical

/-!
# Results are canonical

The arithmetic routines and `s2n` give canonical numbers: an `MV_INT` wherever the value fits one. On such numbers `is_equ` and
`numcmp` agree with the equality of the values, as long as none is marked as read from a string that is not canonic: such a number
is compared by its string.
-/

namespace Gtm

open Truncation NumberRoundTripAux NumberStoreAux NumberPromoteAux NumberAddAux NumberCanonicalAux IntShortcutAux

namespace NumberFormsAux

/-! ## Comparisons -/

variable {u v r q : Mval} {w : Mantissa}

/-- The words of two numbers of one sign compare as equal when they are the same. -/
theorem numcmpWords_eq_zero_iff {sgn : ℤ} (hsgn : sgn ≠ 0) (hne : u.m1 ≠ 0 ∨ v.m1 ≠ 0) :
    numcmpWords sgn u v = 0 ↔ u.e = v.e ∧ u.m1 = v.m1 ∧ u.m0 = v.m0 := by
  constructor
  · intro h
    unfold numcmpWords at h
    split_ifs at h
    all_goals first | omega | exact ⟨by omega, by omega, by omega⟩
  · rintro ⟨he, h1, h0⟩
    have hu : u.m1 ≠ 0 := by omega
    unfold numcmpWords
    rw [if_neg (by omega), if_neg (by omega), if_neg (by omega), if_neg (by omega), if_neg hu, if_neg (by omega), if_neg (by omega)]

/-- `numcmp` behind the promotion. -/
theorem numcmpNums_promoted (hints : ¬ (u.mvtype.int ∧ v.mvtype.int)) : numcmpNums u v =
    if (if (promoteInt u).sgn then -1 else 1 : ℤ) ≠ (if (promoteInt v).sgn then -1 else 1) then if (promoteInt u).sgn then -1 else 1
    else numcmpWords (if (promoteInt u).sgn then -1 else 1) (promoteInt u) (promoteInt v) := by
  unfold numcmpNums
  rw [if_neg (by simpa using hints)]
  rfl

/-- `numcmp` behind the promotion finds two equal numbers when the words are the same. -/
theorem numcmpNums_eq_zero_iff (hints : ¬ (u.mvtype.int ∧ v.mvtype.int)) (hne : (promoteInt u).m1 ≠ 0 ∨ (promoteInt v).m1 ≠ 0) :
    numcmpNums u v = 0 ↔ (promoteInt u).sgn = (promoteInt v).sgn ∧ (promoteInt u).e = (promoteInt v).e ∧
      (promoteInt u).m1 = (promoteInt v).m1 ∧ (promoteInt u).m0 = (promoteInt v).m0 := by
  rw [numcmpNums_promoted hints]
  generalize promoteInt u = x at *
  generalize promoteInt v = y at *
  have hsgn : (if x.sgn then -1 else 1 : ℤ) ≠ 0 := by
    cases x.sgn <;> decide
  have hcond : ((if x.sgn then -1 else 1 : ℤ) = if y.sgn then -1 else 1) ↔ x.sgn = y.sgn := by
    cases x.sgn <;> cases y.sgn <;> simp
  by_cases hs : x.sgn = y.sgn
  · rw [if_neg (not_not.mpr (hcond.mpr hs)), numcmpWords_eq_zero_iff hsgn hne]
    exact ⟨fun h => ⟨hs, h⟩, fun h => h.2⟩
  · rw [if_pos fun h => hs (hcond.mp h)]
    exact ⟨fun h => absurd h hsgn, fun h => absurd h.1 hs⟩

/-- A number that is zero is an `MV_INT`. -/
theorem int_of_zero (hv : v.Number) (h : v.numVal = 0) : v.mvtype.int = true := by
  cases hint : v.mvtype.int with
  | true => rfl
  | false => exact absurd h (number_ne_zero hv hint)

/-- `numcmp` is zero on two numbers of one value only. -/
theorem numcmp_eq_zero_iff (hu : u.Number) (hv : v.Number) : numcmp u v = .ok 0 ↔ u.numVal = v.numVal := by
  have hrun : numcmp u v = .ok 0 ↔ numcmpNums u v = 0 := by
    unfold numcmp
    rw [mvForceNum_of_nm hu.nm, mvForceNum_of_nm hv.nm]
    exact ⟨Except.ok.inj, congrArg _⟩
  rw [hrun]
  by_cases hints : u.mvtype.int ∧ v.mvtype.int
  · rw [numVal_int hints.1, numVal_int hints.2, div_left_inj' (by norm_num)]
    unfold numcmpNums
    rw [if_pos (by simpa using hints)]
    constructor
    · intro h
      split at h
      · cases h
      · split at h
        · next heq => exact_mod_cast heq
        · cases h
    · intro h
      have heq : u.m1 = v.m1 := by exact_mod_cast h
      rw [if_neg (by omega), if_pos heq]
  · have hzero : ∀ {w : Mval}, w.Number → w.numVal = 0 → promoteInt w = literalZero := by
      intro w hw h
      have hint := int_of_zero hw h
      unfold promoteInt
      rw [if_pos hint, promote_zero ((int_eq_zero_iff hint).mp h)]
    have hlead : ∀ {w : Mval} {q : ℚ}, Extended w q → w.m1 ≠ 0 ∧ w.e ≠ 0 := by
      intro w q hw
      have h1 := hw.normal.m1_lead
      have h2 := hw.exp_lo
      simp only [Mval.mant, expLo] at h1 h2
      exact ⟨by omega, by omega⟩
    by_cases hu0 : u.numVal = 0
    · have hv0 : v.numVal ≠ 0 := fun h => hints ⟨int_of_zero hu hu0, int_of_zero hv h⟩
      have hx := hlead (promoteInt_extended hv hv0)
      rw [numcmpNums_eq_zero_iff hints (Or.inr hx.1), hzero hu hu0, hu0]
      exact ⟨fun h => absurd h.2.1.symm hx.2, fun h => absurd h.symm hv0⟩
    · have hx := promoteInt_extended hu hu0
      rw [numcmpNums_eq_zero_iff hints (Or.inl (hlead hx).1)]
      by_cases hv0 : v.numVal = 0
      · rw [hzero hv hv0, hv0]
        exact ⟨fun h => absurd h.2.1 (hlead hx).2, fun h => absurd h hu0⟩
      · have hy := promoteInt_extended hv hv0
        constructor
        · rintro ⟨hs, he, h1, h0⟩
          rw [← hx.value, ← hy.value, numVal_mant hx.int, numVal_mant hy.int, hs, he]
          simp only [Mval.mant, h1, h0]
        · intro h
          exact sameNumber_mant hx.normal hy.normal hx.int hy.int (by rw [hx.value, hy.value, h])

/-- `is_equ` on two canonical numbers that are not marked. -/
theorem isEqu_iff (hu : u.Canonical) (hv : v.Canonical) (hua : u.mvtype.numApprox = false)
    (hva : v.mvtype.numApprox = false) : isEqu u v = true ↔ u.numVal = v.numVal := by
  have hsame : isEqu u v = true ↔ SameNumber u v := by
    unfold isEqu
    rw [if_pos (by simp [hu.nm, hv.nm, hua, hva])]
    cases hui : u.mvtype.int <;> cases hvi : v.mvtype.int
    · simp only [Bool.false_and, Bool.false_eq_true, if_false, Bool.or_self, Bool.and_eq_true, decide_eq_true_eq]
      exact ⟨fun ⟨⟨⟨h1, h2⟩, h3⟩, h4⟩ => ⟨hui.trans hvi.symm, h3, fun _ => ⟨h1, h2, h4⟩⟩,
        fun h => ⟨⟨⟨(h.rest hvi).1, (h.rest hvi).2.1⟩, h.m1⟩, (h.rest hvi).2.2⟩⟩
    · simp only [Bool.false_and, Bool.false_eq_true, if_false, Bool.or_true, if_true, false_iff]
      exact fun h => by simpa [hui, hvi] using h.int
    · simp only [Bool.and_false, Bool.false_eq_true, if_false, Bool.or_false, if_true, false_iff]
      exact fun h => by simpa [hui, hvi] using h.int
    · simp only [Bool.and_self, if_true, decide_eq_true_eq]
      exact ⟨fun h => ⟨hui.trans hvi.symm, h, fun hf => by rw [hvi] at hf; cases hf⟩, fun h => h.m1⟩
  rw [hsame]
  exact ⟨SameNumber.numVal_eq, hu.same hv⟩

/-! ## Products and quotients -/

theorem literalZero_canonical : literalZero.Canonical := literalZero_number.canonical_of_int rfl

/-- What a shortcut leaves, when its word is in range. -/
theorem intResult_canonical (h : |w.m1| < 1000000000) (p : Mval) : (intResult w p).Canonical := by
  refine Mval.Number.canonical_of_int ⟨rfl, ?_⟩ rfl
  rw [Int.abs_eq_natAbs] at h
  unfold Mval.NumValid
  change w.m1.natAbs < mantHi
  exact_mod_cast h

theorem abs_signed_int {neg : Bool} {n : ℤ} (h : 0 ≤ n) : |if neg then -n else n| = n := by
  cases neg
  · exact abs_of_nonneg h
  · rw [if_pos rfl, abs_neg, abs_of_nonneg h]

theorem promoteInt_of_int (h : v.mvtype.int = true) : promoteInt v = promote v := if_pos h

/-- A product of two `MV_INT`s, or of two numbers that are not zero. -/
theorem opMul_canonical {p : Mval} (hu : u.Number) (hv : v.Number)
    (hzero : u.mvtype.int ∧ v.mvtype.int ∨ u.numVal ≠ 0 ∧ v.numVal ≠ 0) (h : opMul u v p = .ok r) : r.Canonical := by
  rw [opMul_of_nm hu.nm hv.nm] at h
  by_cases hne : u.numVal ≠ 0 ∧ v.numVal ≠ 0
  · cases hrun : (if u.mvtype.int ∧ v.mvtype.int then ebIntMul u.m1 v.m1 else none) with
    | none =>
      rw [hrun] at h
      exact (mulPromoted_stored (promoteInt_extended hu hne.1) (promoteInt_extended hv hne.2) p).2 r h
    | some w =>
      rw [hrun] at h
      cases h
      split at hrun
      · exact intResult_canonical (ebIntMul_some hrun).2 p
      · cases hrun
  · obtain ⟨hui, hvi⟩ := hzero.resolve_right hne
    rw [if_pos ⟨hui, hvi⟩] at h
    cases hrun : ebIntMul u.m1 v.m1 with
    | none =>
      rw [hrun, promoteInt_of_int hui, promoteInt_of_int hvi] at h
      obtain ⟨hwu, heu, hzu⟩ := promote_words hu hui
      obtain ⟨hwv, hev, hzv⟩ := promote_words hv hvi
      have hval : (promote u).mant.val * (promote v).mant.val = 0 ∧ (promote u).e + (promote v).e < expLo + mvXbias + 1 := by
        rw [not_and_or, not_not, not_not, int_eq_zero_iff hui, int_eq_zero_iff hvi] at hne
        simp only [expLo, mvXbias]
        rcases hne with h | h
        · rw [(hzu h).1]
          exact ⟨zero_mul _, by omega⟩
        · rw [(hzv h).1]
          exact ⟨mul_zero _, by omega⟩
      change mulPromoted (promote u) (promote v) p = .ok r at h
      rw [mulPromoted_zero hwu hwv hval.1 hval.2] at h
      cases h
      exact literalZero_canonical
    | some w =>
      rw [hrun] at h
      cases h
      exact intResult_canonical (ebIntMul_some hrun).2 p

/-- A divisor that is accepted is not zero. -/
theorem divisor_ne_zero (hv : v.Number) (h : ¬ (v.mvtype.int ∧ v.m1 = 0)) : v.numVal ≠ 0 := by
  intro h0
  have hint := int_of_zero hv h0
  exact h ⟨hint, (int_eq_zero_iff hint).mp h0⟩

/-- A quotient is there only for a divisor other than zero. -/
theorem opDiv_divisor (hu : u.Number) (hv : v.Number) (h : opDiv u v q = .ok r) : ¬ (v.mvtype.int ∧ v.m1 = 0) := by
  intro hdiv
  unfold opDiv at h
  rw [forceNum_of_nm hu.nm, forceNum_of_nm hv.nm] at h
  change (if v.mvtype.int ∧ v.m1 = 0 then _ else _) = _ at h
  rw [if_pos hdiv] at h
  cases h

theorem opIdiv_divisor (hu : u.Number) (hv : v.Number) (h : opIdiv u v q = .ok r) : ¬ (v.mvtype.int ∧ v.m1 = 0) := by
  intro hdiv
  unfold opIdiv at h
  rw [forceNum_of_nm hu.nm, forceNum_of_nm hv.nm] at h
  change (if v.mvtype.int ∧ v.m1 = 0 then _ else _) = _ at h
  rw [if_pos hdiv] at h
  cases h

/-- A quotient of two `MV_INT`s, or of two numbers that are not zero. -/
theorem opDiv_canonical (hu : u.Number) (hv : v.Number)
    (hzero : u.mvtype.int ∧ v.mvtype.int ∨ u.numVal ≠ 0 ∧ v.numVal ≠ 0) (h : opDiv u v q = .ok r) : r.Canonical := by
  have hdiv := opDiv_divisor hu hv h
  have hvne := divisor_ne_zero hv hdiv
  rw [opDiv_of_nm hu.nm hv.nm q hdiv] at h
  cases hrun : (if u.mvtype.int ∧ v.mvtype.int then ebMvintDiv u.m1 v.m1 else none) with
  | some w =>
    rw [hrun] at h
    cases h
    split at hrun
    · next hints =>
      have hne : v.m1 ≠ 0 := fun h0 => hdiv ⟨hints.2, h0⟩
      obtain ⟨hlt, -, hm1⟩ := ebMvintDiv_some (quotient_signed v.m1 (hu.int_bound hints.1)) (hu.int_bound hints.1) hne hrun
      refine intResult_canonical ?_ q
      rw [hm1, abs_signed_int (by positivity)]
      exact hlt
    · cases hrun
  | none =>
    rw [hrun] at h
    change divPromoted (promoteInt u) (promoteInt v) q = .ok r at h
    have hy := promoteInt_extended hv hvne
    by_cases hune : u.numVal ≠ 0
    · exact (divPromoted_stored (promoteInt_extended hu hune) hy q).2 r h
    · obtain ⟨hui, hvi⟩ := hzero.resolve_right fun hn => hune hn.1
      obtain ⟨hwu, -, hzu⟩ := promote_words hu hui
      have hz := hzu ((int_eq_zero_iff hui).mp (not_not.mp hune))
      rw [promoteInt_of_int hui, promoteInt_of_int hvi] at h
      rw [promoteInt_of_int hvi] at hy
      obtain ⟨-, -, hlo⟩ := promote_nonzero hv hvi fun h0 => hvne ((int_eq_zero_iff hvi).mpr h0)
      rw [divPromoted_zero hwu hz.1 hy.normal (by rw [hz.2]; simp only [mvXbias, expLo]; omega)] at h
      cases h
      exact literalZero_canonical

/-- An integer quotient. -/
theorem opIdiv_canonical (hu : u.Number) (hv : v.Number) (h : opIdiv u v q = .ok r) : r.Canonical := by
  have hdiv := opIdiv_divisor hu hv h
  have hvne := divisor_ne_zero hv hdiv
  rw [opIdiv_of_nm hu.nm hv.nm q hdiv] at h
  cases hrun : (if u.mvtype.int ∧ v.mvtype.int then ebIntDiv u.m1 v.m1 else none) with
  | some w =>
    rw [hrun] at h
    cases h
    split at hrun
    · next hints =>
      have hne : v.m1 ≠ 0 := fun h0 => hdiv ⟨hints.2, h0⟩
      obtain ⟨hlt, hm1⟩ := ebIntDiv_some (quotient_signed v.m1 (hu.int_bound hints.1)) (hu.int_bound hints.1) hne hrun
      have hnn : 0 ≤ 1000 * |u.m1| / |v.m1| := by positivity
      refine intResult_canonical ?_ q
      rw [hm1, abs_signed_int (by omega)]
      omega
    · cases hrun
  | none =>
    rw [hrun] at h
    change idivPromoted (promoteInt u) (promoteInt v) q = .ok r at h
    have hy := promoteInt_extended hv hvne
    by_cases hune : u.numVal ≠ 0
    · exact (idivPromoted_stored (promoteInt_extended hu hune) hy q).2 r h
    · have hui := int_of_zero hu (not_not.mp hune)
      obtain ⟨-, -, hzu⟩ := promote_words hu hui
      have hz := hzu ((int_eq_zero_iff hui).mp (not_not.mp hune))
      have hlo := hy.exp_lo
      rw [promoteInt_of_int hui, idivPromoted_below (by rw [hz.2]; simp only [expLo] at hlo; omega)] at h
      cases h
      exact literalZero_canonical

/-! ## The mark of an approximation -/

theorem addStore_exact {sgn : Bool} {exp : ℤ} {s : Mval} (h : addStore sgn w exp s = .ok r) : r.mvtype.numApprox = false := by
  unfold addStore at h
  simp only at h
  split at h
  · cases h
    rfl
  · split at h
    · cases h
    · split at h
      · cases h
        rfl
      · cases h
        rfl

theorem mulStore_exact {sgn : Bool} {exp : ℤ} {p : Mval} (h : mulStore sgn w exp p = .ok r) : r.mvtype.numApprox = false := by
  unfold mulStore at h
  simp only at h
  split at h
  · cases h
  · split at h
    · cases h
      rfl
    · split at h
      · cases h
        rfl
      · cases h
        rfl

theorem idivPromoted_exact (h : idivPromoted u v q = .ok r) : r.mvtype.numApprox = false := by
  unfold idivPromoted at h
  simp only at h
  split at h
  · cases h
    rfl
  · split at h
    · cases h
    · split at h
      · cases h
        rfl
      · split at h
        · cases h
        · split at h
          · cases h
          · cases h
            rfl

theorem mvForceCanonical_exact (v : Mval) : (mvForceCanonical v).mvtype.numApprox = false := by
  unfold mvForceCanonical
  split
  · rfl
  · next h => simpa using h

theorem resultIsV_exact (v : Mval) (subtraction : Bool) (result : Mval) : (resultIsV v subtraction result).mvtype.numApprox = false := by
  unfold resultIsV
  split
  · split <;> rfl
  · exact mvForceCanonical_exact v

theorem addMvals_exact {subtraction : Bool} {result : Mval} (h : addMvals u v subtraction result = .ok r) : r.mvtype.numApprox = false := by
  unfold addMvals at h
  simp only at h
  split at h
  · cases h
    exact resultIsV_exact _ _ _
  · split at h
    · cases h
      exact mvForceCanonical_exact _
    · split at h
      · cases h
        exact mvForceCanonical_exact _
      · split at h
        · cases h
          exact resultIsV_exact _ _ _
        · unfold addAligned at h
          simp only at h
          split at h
          · exact addStore_exact h
          · split at h
            · cases h
              rfl
            · exact addStore_exact h

theorem addInts_exact (m : ℤ) (s : Mval) : (addInts m s).mvtype.numApprox = false := by
  unfold addInts
  split <;> rfl

end NumberFormsAux

open NumberFormsAux

/-- The numbers that the arithmetic routines and `s2n` leave. The operands of a sum or a difference are canonical, since either may
be copied; a product or a quotient is one of two `MV_INT`s or of two numbers that are not zero. -/
inductive NumberResult : Mval → Prop where
  | add {u v s r : Mval} : u.Canonical → v.Canonical → opAdd u v s = .ok r → NumberResult r
  | sub {u v s r : Mval} : u.Canonical → v.Canonical → opSub u v s = .ok r → NumberResult r
  | mul {u v p r : Mval} : u.Number → v.Number → (u.mvtype.int ∧ v.mvtype.int ∨ u.numVal ≠ 0 ∧ v.numVal ≠ 0) →
      opMul u v p = .ok r → NumberResult r
  | div {u v q r : Mval} : u.Number → v.Number → (u.mvtype.int ∧ v.mvtype.int ∨ u.numVal ≠ 0 ∧ v.numVal ≠ 0) →
      opDiv u v q = .ok r → NumberResult r
  | idiv {u v q r : Mval} : u.Number → v.Number → opIdiv u v q = .ok r → NumberResult r
  | read {s : List UInt8} {r : S2nResult} : s2n (Mval.ofStr s) = .ok r → NumberResult r.mval

theorem NumberResult.canonical {a : Mval} (h : NumberResult a) : a.Canonical := by
  cases h with
  | add hu hv h => exact (opAdd_stored hu.toNumber hv.toNumber _).2 hu hv _ h
  | sub hu hv h => exact (opSub_stored hu.toNumber hv.toNumber _).2 hu hv _ h
  | mul hu hv hz h => exact opMul_canonical hu hv hz h
  | div hu hv hz h => exact opDiv_canonical hu hv hz h
  | idiv hu hv h => exact opIdiv_canonical hu hv h
  | read h => exact s2n_canonical h rfl

/-- Only `s2n` marks a number. -/
theorem NumberResult.of_marked {a : Mval} (h : NumberResult a) (ha : a.mvtype.numApprox = true) :
    ∃ s r, s2n (Mval.ofStr s) = .ok r ∧ r.mval = a := by
  have hexact : a.mvtype.numApprox = false → ∃ s r, s2n (Mval.ofStr s) = .ok r ∧ r.mval = a := fun hf => by rw [ha] at hf; cases hf
  cases h with
  | @add u v s _ hu hv h =>
    apply hexact
    unfold opAdd at h
    rw [forceNum_of_nm hu.nm, forceNum_of_nm hv.nm] at h
    change (if u.mvtype.int ∧ v.mvtype.int then .ok (addInts (u.m1 + v.m1) s) else addMvals u v false s) = .ok a at h
    split at h
    · cases h
      exact addInts_exact _ _
    · exact addMvals_exact h
  | @sub u v s _ hu hv h =>
    apply hexact
    unfold opSub at h
    rw [forceNum_of_nm hu.nm, forceNum_of_nm hv.nm] at h
    change (if u.mvtype.int ∧ v.mvtype.int then .ok (addInts (u.m1 - v.m1) s) else addMvals u v true s) = .ok a at h
    split at h
    · cases h
      exact addInts_exact _ _
    · exact addMvals_exact h
  | mul hu hv hz h =>
    apply hexact
    rw [opMul_of_nm hu.nm hv.nm] at h
    split at h
    · cases h
      rfl
    · unfold mulPromoted at h
      split at h
      · cases h
      · exact mulStore_exact h
  | div hu hv hz h =>
    apply hexact
    rw [opDiv_of_nm hu.nm hv.nm _ (opDiv_divisor hu hv h)] at h
    split at h
    · cases h
      rfl
    · unfold divPromoted at h
      split at h
      · cases h
      · exact mulStore_exact h
  | idiv hu hv h =>
    apply hexact
    rw [opIdiv_of_nm hu.nm hv.nm _ (opIdiv_divisor hu hv h)] at h
    split at h
    · cases h
      rfl
    · exact idivPromoted_exact h
  | read h => exact ⟨_, _, h, rfl⟩

/-- Every result is canonical, `numcmp` finds two results equal when their values are, and so does `is_equ` on two results that are
not marked; only what `s2n` reads can be marked. -/
theorem results_canonical {a b : Mval} (ha : NumberResult a) (hb : NumberResult b) :
    a.Canonical ∧ (numcmp a b = .ok 0 ↔ a.numVal = b.numVal) ∧
      (a.mvtype.numApprox = false → b.mvtype.numApprox = false → (isEqu a b = true ↔ a.numVal = b.numVal)) ∧
      (a.mvtype.numApprox = true → ∃ s r, s2n (Mval.ofStr s) = .ok r ∧ r.mval = a) :=
  ⟨ha.canonical, numcmp_eq_zero_iff ha.canonical.toNumber hb.canonical.toNumber, isEqu_iff ha.canonical hb.canonical, ha.of_marked⟩

theorem results_canonical_sum : ∃ a b, (opAdd (thousandths 500) (thousandths 500) literalZero = .ok a ∧ s2n (Mval.ofStr [0x31]) = .ok b) ∧
    a.Canonical ∧ (numcmp a b.mval = .ok 0 ↔ a.numVal = b.mval.numVal) ∧
      (a.mvtype.numApprox = false → b.mval.mvtype.numApprox = false → (isEqu a b.mval = true ↔ a.numVal = b.mval.numVal)) ∧
      (a.mvtype.numApprox = true → ∃ s r, s2n (Mval.ofStr s) = .ok r ∧ r.mval = a) :=
  have hhalf : (thousandths 500).Canonical := Mval.Number.canonical_of_int ⟨rfl, by decide⟩ rfl
  ⟨_, _, ⟨rfl, rfl⟩, results_canonical (.add hhalf hhalf (s := literalZero) rfl) (.read (s := [0x31]) rfl)⟩

/-- `01` and `1` are the same number to `numcmp` and different ones to `is_equ`. -/
theorem isEqu_compares_text : ∃ a b, s2n (Mval.ofStr [ascZero, 0x31]) = .ok a ∧ s2n (Mval.ofStr [0x31]) = .ok b ∧
    a.mval.numVal = b.mval.numVal ∧ numcmp a.mval b.mval = .ok 0 ∧ isEqu a.mval b.mval = false :=
  ⟨_, _, rfl, rfl, rfl, rfl, by decide⟩

end Gtm
