import Gtm.Numeric.S2n

/-!
# Numbers forced and compared

`MV_FORCE_NUM`, `promote` of `promodemo.c`, `numcmp.c` and `is_equ.c`, which the arithmetic routines share with the literals of
the compiler.
-/

namespace Gtm

/-- The errors evaluation and folding raise. -/
inductive RtErr where
  | numoflow
  | divzero
  | negfracpwr
  | patnotfound
  | badchar
deriving DecidableEq, Repr

/-- `literal_zero` and `literal_one`. -/
def literalZero : Mval := { mvtype := { nm := true, int := true, str := true }, str := [ascZero] }
def literalOne : Mval := { mvtype := { nm := true, int := true, str := true }, m1 := mvBias, str := [0x31] }

/-- `MV_FORCE_NUM` at run time. -/
def mvForceNum (v : Mval) : Except RtErr Mval :=
  if v.mvtype.nm then .ok v
  else match s2n v with
    | .ok r => .ok r.mval
    | .error .numoflow => .error .numoflow

theorem mvForceNum_of_nm {v : Mval} (h : v.mvtype.nm = true) : mvForceNum v = .ok v := by rw [mvForceNum, if_pos h]

/-- The digits of a magnitude below `MANT_HI`: the search of `promote` through `ten_pwr`. -/
def promoteExp : Nat → Nat → Nat → Nat
  | 0, _, exp => exp
  | n + 1, m1, exp => if tenPwr exp ≤ m1 then promoteExp n m1 (exp + 1) else exp

/-- The number of digits, which `promote` counts. -/
theorem promoteExp_spec {n m e : Nat} (hlo : e = 0 ∨ 10 ^ (e - 1) ≤ m) (hhi : m < 10 ^ (e + n)) :
    m < 10 ^ promoteExp n m e ∧ (promoteExp n m e = 0 ∨ 10 ^ (promoteExp n m e - 1) ≤ m) ∧ promoteExp n m e ≤ e + n := by
  induction n generalizing e with
  | zero => exact ⟨hhi, hlo, le_refl _⟩
  | succ n ih =>
    rw [promoteExp]
    split
    · next h =>
      have := ih (e := e + 1) (.inr h) (by rwa [Nat.add_right_comm, Nat.add_assoc])
      exact ⟨this.1, this.2.1, by omega⟩
    · next h => exact ⟨not_le.1 h, hlo, by omega⟩

/-- `promote`: a number in thousandths as a mantissa and an exponent. -/
def promote (v : Mval) : Mval :=
  if v.m1 = 0 then literalZero
  else
    let exp := promoteExp 9 v.m1.natAbs 0
    { v with
      mvtype := { nm := true }
      sgn := v.m1 < 0
      e := mvXbias - 3 + exp
      m1 := (v.m1.natAbs * tenPwr (9 - exp) : Nat)
      m0 := 0 }

/-- The magnitudes part of `numcmp`, for a sign. -/
def numcmpWords (sgn : Int) (u v : Mval) : Int :=
  if u.e < v.e then -sgn else if v.e < u.e then sgn
  else if u.m1 < v.m1 then -sgn else if v.m1 < u.m1 then sgn
  else if u.m1 = 0 then 0
  else if u.m0 < v.m0 then -sgn else if v.m0 < u.m0 then sgn else 0

/-- `numcmp` once both operands are numbers. -/
def numcmpNums (u v : Mval) : Int :=
  if u.mvtype.int && v.mvtype.int then (if v.m1 < u.m1 then 1 else if u.m1 = v.m1 then 0 else -1)
  else
    let u := if u.mvtype.int then promote u else u
    let v := if v.mvtype.int then promote v else v
    let uSgn : Int := if u.sgn then -1 else 1
    let vSgn : Int := if v.sgn then -1 else 1
    if uSgn ≠ vSgn then uSgn else numcmpWords uSgn u v

/-- `numcmp`. -/
def numcmp (u v : Mval) : Except RtErr Int := do
  let u ← mvForceNum u
  let v ← mvForceNum v
  return numcmpNums u v

/-- `is_equ`. -/
def isEqu (u v : Mval) : Bool :=
  if u.mvtype.nm && v.mvtype.nm && !(u.mvtype.numApprox || v.mvtype.numApprox) then
    if u.mvtype.int && v.mvtype.int then u.m1 = v.m1
    else if u.mvtype.int || v.mvtype.int then false
    else u.sgn = v.sgn && u.e = v.e && u.m1 = v.m1 && u.m0 = v.m0
  else (mvForceStr u).str = (mvForceStr v).str

end Gtm
