import Gtm.Lemmas.NumberAdd

/-!
# Sums and differences

`op_add` and `op_sub` on any two numbers: each operand is cut to the places of the larger exponent, and the sum to 18 digits. What
is stored for it is in valid representation, an `MV_INT` where it fits, zero below the least exponent, and there is an error from the
highest exponent on.
-/

namespace Gtm

open Truncation NumberStoreAux NumberAddAux

/-- The sum and the difference of two numbers. A copy of an operand is an `MV_INT` where it fits as far as the operand is. -/
theorem opAdd_opSub_stored {u v : Mval} (hu : u.Number) (hv : v.Number) (s : Mval) :
    Stored (alignedSum 10 18 u.numVal v.numVal) (opAdd u v s) ∧ Stored (alignedSum 10 18 u.numVal (-v.numVal)) (opSub u v s) ∧
      (u.Canonical → v.Canonical → ∀ r, opAdd u v s = .ok r ∨ opSub u v s = .ok r → (r.mvtype.int = true ↔ FitsInt r.numVal)) := by
  obtain ⟨hadd, hadd'⟩ := opAdd_stored hu hv s
  obtain ⟨hsub, hsub'⟩ := opSub_stored hu hv s
  refine ⟨hadd, hsub, fun hcu hcv r hr => ?_⟩
  rcases hr with hr | hr
  · exact (hadd' hcu hcv r hr).int_iff
  · exact (hsub' hcu hcv r hr).int_iff

theorem opAdd_opSub_stored_large :
    Stored (alignedSum 10 18 ({ mvtype := { nm := true }, e := 83, m1 := 123456789, m0 := 1 } : Mval).numVal (thousandths (-7)).numVal)
        (opAdd { mvtype := { nm := true }, e := 83, m1 := 123456789, m0 := 1 } (thousandths (-7)) literalZero) ∧
      Stored (alignedSum 10 18 ({ mvtype := { nm := true }, e := 83, m1 := 123456789, m0 := 1 } : Mval).numVal (-(thousandths (-7)).numVal))
        (opSub { mvtype := { nm := true }, e := 83, m1 := 123456789, m0 := 1 } (thousandths (-7)) literalZero) ∧
      (({ mvtype := { nm := true }, e := 83, m1 := 123456789, m0 := 1 } : Mval).Canonical → (thousandths (-7)).Canonical → ∀ r,
        opAdd { mvtype := { nm := true }, e := 83, m1 := 123456789, m0 := 1 } (thousandths (-7)) literalZero = .ok r ∨
          opSub { mvtype := { nm := true }, e := 83, m1 := 123456789, m0 := 1 } (thousandths (-7)) literalZero = .ok r →
        (r.mvtype.int = true ↔ FitsInt r.numVal)) :=
  opAdd_opSub_stored ⟨rfl, by decide⟩ ⟨rfl, by decide⟩ literalZero

end Gtm
