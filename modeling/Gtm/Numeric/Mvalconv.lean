import Gtm.Numeric.Compare
import Gtm.Numeric.EbMuldiv

/-!
# Integers as mvals

The conversions between 64-bit integers and mvals and the test for an integer (`mvalconv.c`). An expression that does not fit its
type has no value. The one product of unsigned numbers that goes round, that of `MV_BIAS` for a negative number, is reduced to
32 bits and read as an `int4` again.
-/

namespace Gtm

/-- `EXP_IDX_BIAL`. -/
def expIdxBialNat : Nat := 9 + mvXbias
/-- `INT_HI`. -/
def intHi : Nat := 1000000

/-- The value of an expression of type `uint4`. -/
def uint4 (x : Nat) : Option Nat := if x < 2 ^ 32 then some x else none

/-- The value of an expression of type `gtm_int64_t`. -/
def int8 (x : Int) : Option Int := if -2 ^ 63 ≤ x ∧ x < 2 ^ 63 then some x else none

/-! ## From an integer -/

/-- The loop that brings the highest digit to its place; in the branch of a number below `MANT_HI` the low word is zero. -/
def scaleWords : Nat → Nat → Nat → Nat → Option (Nat × Nat × Nat)
  | 0, _, _, _ => none
  | n + 1, high, low, exp =>
    if high < mantLo then
      (uint4 (high * 10 + low / mantLo)).bind fun high' => (uint4 (low % mantLo * 10)).bind fun low' => scaleWords n high' low' (exp - 1)
    else some (high, low, exp)

/-- The fields for the words of a number. -/
def Mval.setWords (v : Mval) (words : Nat × Nat × Nat) : Mval := { v with e := words.2.2, m0 := words.2.1, m1 := words.1 }

/-- `xi82mval`. -/
def xi82mval (v : Mval) (i : Nat) : Option Mval :=
  if i < intHi then
    some { v with
      mvtype := { v.mvtype with int := true }
      m1 := (mvBias * ((if v.sgn then -(i : Int) else i) % 2 ^ 32) % 2 ^ 32).bmod (2 ^ 32) }
  else if i < mantHi then (scaleWords 9 i 0 expIdxBialNat).map v.setWords
  else if i < mantHi * mantHi then (scaleWords 9 (i / mantHi) (i % mantHi) (expIdxBialNat + 9)).map v.setWords
  else some { v with mvtype := { str := true }, str := (toString (if v.sgn then -(i : Int) else i)).toUTF8.toList }

/-- `i82mval`. -/
def i82mval (v : Mval) (i : Int) : Option Mval :=
  if i < 0 then (int8 (-i)).bind fun absi => xi82mval { v with mvtype := { nm := true }, sgn := true } absi.toNat
  else xi82mval { v with mvtype := { nm := true }, sgn := false } i.toNat

/-! ## To an integer -/

/-- The words and the exponent while the exponent is above the limit; `y` is zero where the source has only `x`. -/
def mulWords (limit : Nat) : Nat → Int → Int → Nat → Option (Int × Int × Nat)
  | 0, _, _, _ => none
  | n + 1, x, y, exp =>
    if exp > limit then (int8 (x * mantHi)).bind fun x => (int8 (y * mantHi)).bind fun y => mulWords limit n x y (exp - 9)
    else some (x, y, exp)

/-- The parts of a number with an exponent above `EXP_IDX_BIAL`. -/
def mval2i8Parts (v : Mval) : Option (Int × Int) :=
  if v.m0 > 0 then
    (int8 (v.m1 * mantHi)).bind fun x => (mulWords (expIdxBialNat + 18) 128 x v.m0 v.e).bind fun (x, y, exp) =>
      if exp ≥ expIdxBialNat + 9 then
        (int8 (x * tenPwr (exp - expIdxBialNat - 9))).bind fun x => (int8 (y * tenPwr (exp - expIdxBialNat - 9))).map fun y => (x, y)
      else some (x.tdiv (tenPwr (expIdxBialNat + 9 - exp)), y.tdiv (tenPwr (expIdxBialNat + 9 - exp)))
  else
    (mulWords (expIdxBialNat + 9) 128 v.m1 v.m0 v.e).bind fun (x, y, exp) =>
      (int8 (x * tenPwr (exp - expIdxBialNat))).map fun x => (x, y)

/-- The first word with its sign, cut behind the digits of the integer. -/
def signedM1 (v : Mval) : Option Int := if v.sgn then int4 (-v.m1) else some v.m1

/-- `mval2i8` behind `MV_FORCE_NUM`. -/
def mval2i8Num (v : Mval) : Option Int :=
  if v.mvtype.int then some (v.m1.tdiv mvBias)
  else if v.e > expIdxBialNat then
    (mval2i8Parts v).bind fun (x, y) => if v.sgn then (int8 (-x)).bind fun x => int8 (x - y) else int8 (x + y)
  else if v.e < mvXbias then some 0
  else (signedM1 v).map fun m1 => m1.tdiv (tenPwr (expIdxBialNat - v.e))

/-- `mval2i8`. -/
def mval2i8 (v : Mval) : Except RtErr (Option Int) := (mvForceNum v).map mval2i8Num

/-- The end of `isint`: whether the division has no remainder, and `*intval`. -/
def isintDiv (m1 : Int) (divisor : Nat) : Option (Bool × Option Int) :=
  (int4 (m1.tdiv divisor * divisor)).map fun p => (decide (p = m1), some (m1.tdiv divisor))

/-- `isint`: the result, and `*intval` where it is set. -/
def isint (v : Mval) : Option (Bool × Option Int) :=
  if ¬ v.mvtype.nm ∨ v.mvtype.numApprox then some (false, none)
  else if v.mvtype.int then isintDiv v.m1 mvBias
  else if mvXbias ≥ v.e ∨ expIdxBialNat < v.e ∨ v.m0 ≠ 0 then some (false, none)
  else (signedM1 v).bind fun m1 => isintDiv m1 (tenPwr (expIdxBialNat - v.e))

end Gtm
