import Gtm.Lemmas.NumberCanonical

/-!
# Numbers and their strings

`n2s` and `s2n` are inverse to each other on canonical numbers, and the two recognisers of canonic strings agree: `s2n` leaves
`MV_NUM_APPROX` clear on the strings that `val_iscan` accepts, which are those `n2s` writes.
-/

namespace Gtm

open Positional NumberRoundTripAux NumberCanonicalAux

namespace NumberStringsAux

/-- A string that `n2s` wrote, read into an mval that is not marked as a number. -/
theorem s2n_written {v : Mval} (hv : v.NumValid) {u : Mval} (hstr : u.str = n2sStr v) (hint : u.mvtype.int = false)
    (happ : u.mvtype.numApprox = false) : ∃ r, s2n u = .ok r ∧ r.mval.mvtype.numApprox = false ∧ r.mval.numVal = v.numVal := by
  by_cases h0 : v.numVal = 0
  · obtain ⟨r, hr, hra, -, hval⟩ := s2n_zero u (hstr.trans (n2sStr_of_zero hv h0)) happ
    exact ⟨r, hr, hra, hval.trans h0.symm⟩
  · obtain ⟨e, ds, hs, hn⟩ := n2sStr_decStr hv.mantValid h0
    obtain ⟨r, hr, hra, -, hval⟩ := s2n_decStr (canonic_of_numValid hv hn) (decide (v.numVal < 0)) u (hstr.trans hs) hint happ
    refine ⟨r, hr, hra, ?_⟩
    rw [hval, ← hn.value]
    by_cases hneg : v.numVal < 0
    · simp [hneg, abs_of_neg hneg]
    · simp [hneg, abs_of_nonneg (not_lt.mp hneg)]

/-- A mark of an integer stays. -/
theorem s2n_int {u : Mval} {r : S2nResult} (h : s2n u = .ok r) (hu : u.mvtype.int = true) : r.mval.mvtype.int = true := by
  rcases s2n_stored h with ⟨m1, m0, k, i, sign, x, approx, hst, -⟩ | ⟨hint, -, -⟩
  · generalize r.mval = w at hst ⊢
    unfold s2nStore at hst
    simp only at hst
    split at hst
    · cases hst
      rfl
    · split at hst
      · cases hst
        rfl
      · split at hst
        · cases hst
        · cases hst
          exact hu
  · exact hint

/-- `val_iscan` accepts what `n2s` writes. -/
theorem valIscanStr_n2sStr {v : Mval} (hv : v.NumValid) : valIscanStr (n2sStr v) = true := by
  by_cases h0 : v.numVal = 0
  · rw [n2sStr_of_zero hv h0]
    decide
  · obtain ⟨e, ds, hs, hn⟩ := n2sStr_decStr hv.mantValid h0
    rw [hs]
    exact valIscanStr_decStr (canonic_of_numValid hv hn) _

/-- `s2n` reads a string that `val_iscan` accepts as exact. -/
theorem exact_of_valIscanStr {s : List UInt8} {r : S2nResult} (h : s2n (Mval.ofStr s) = .ok r) (hs : valIscanStr s = true) :
    r.mval.mvtype.numApprox = false := by
  rcases canonic_of_valIscanStr hs with rfl | ⟨neg, e, ds, rfl, hcan⟩
  · obtain ⟨r', hr', happ, -⟩ := s2n_zero (Mval.ofStr [ascZero]) rfl rfl
    rw [h] at hr'
    cases hr'
    exact happ
  · obtain ⟨r', hr', happ, -⟩ := s2n_decStr hcan neg (Mval.ofStr (decStr neg e ds)) rfl rfl rfl
    rw [h] at hr'
    cases hr'
    exact happ

end NumberStringsAux

open NumberStringsAux

/-- `s2n` gives back the number whose string `n2s` wrote, into the mval itself or into one that holds the string only, and the
string is canonic. -/
theorem s2n_n2s_same {v : Mval} (hv : v.Canonical) :
    (∃ r, s2n (n2s v) = .ok r ∧ SameNumber r.mval v) ∧ (∃ r, s2n (Mval.ofStr (n2s v).str) = .ok r ∧ SameNumber r.mval v) ∧
      valIscan (n2s v) = true := by
  have hvalid := hv.toNumber.valid
  refine ⟨?_, ?_, valIscanStr_n2sStr hvalid⟩
  · obtain ⟨r, hr, -, hvalid', hval⟩ := s2n_n2s hvalid
    refine ⟨r, hr, Mval.Canonical.same ?_ hv hval⟩
    cases hint : v.mvtype.int with
    | true => exact Mval.Number.canonical_of_int ⟨(s2n_again hr).2.2.1, hvalid'⟩ (s2n_int hr hint)
    | false => exact s2n_canonical hr hint
  · obtain ⟨r, hr, -, hval⟩ := s2n_written hvalid (u := Mval.ofStr (n2s v).str) rfl rfl rfl
    exact ⟨r, hr, (s2n_canonical hr rfl).same hv hval⟩

theorem s2n_n2s_same_thousandth :
    (∃ r, s2n (n2s (thousandths 1)) = .ok r ∧ SameNumber r.mval (thousandths 1)) ∧
      (∃ r, s2n (Mval.ofStr (n2s (thousandths 1)).str) = .ok r ∧ SameNumber r.mval (thousandths 1)) ∧
      valIscan (n2s (thousandths 1)) = true :=
  s2n_n2s_same (Mval.Number.canonical_of_int ⟨rfl, by decide⟩ rfl)

/-- The recognisers of canonic strings agree with each other and with what `n2s` writes. -/
theorem exact_iff_valIscan_iff_n2s {s : List UInt8} {r : S2nResult} (h : s2n (Mval.ofStr s) = .ok r) :
    (r.mval.mvtype.numApprox = false ↔ valIscan (Mval.ofStr s) = true) ∧ (valIscan (Mval.ofStr s) = true ↔ (n2s r.mval).str = s) := by
  have hscan : valIscan (Mval.ofStr s) = valIscanStr s := rfl
  have hwrite : r.mval.mvtype.numApprox = false → n2sStr r.mval = s := n2sStr_of_exact h rfl rfl
  have hread : n2sStr r.mval = s → valIscanStr s = true := by
    intro hs
    have := valIscanStr_n2sStr (s2n_numValid h rfl)
    rwa [hs] at this
  rw [hscan]
  exact ⟨⟨fun ha => hread (hwrite ha), exact_of_valIscanStr h⟩, ⟨fun hs => hwrite (exact_of_valIscanStr h hs), hread⟩⟩

theorem exact_iff_valIscan_iff_n2s_leading_zero :
    ∃ r, s2n (Mval.ofStr [ascZero, 0x31]) = .ok r ∧
      (r.mval.mvtype.numApprox = false ↔ valIscan (Mval.ofStr [ascZero, 0x31]) = true) ∧
      (valIscan (Mval.ofStr [ascZero, 0x31]) = true ↔ (n2s r.mval).str = [ascZero, 0x31]) :=
  ⟨_, rfl, exact_iff_valIscan_iff_n2s rfl⟩

end Gtm
