import Gtm.Lib.BinaryRound
import Gtm.Lib.Limbs
import Gtm.Numeric.S2n

/-!
# Extended precision multiplication and division

`eb_muldiv.c`: products and quotients of mantissas of two nine-digit words, by limbs of four digits, and the shortcuts for two
`MV_INT`s through `double` arithmetic. An array of limbs is a list, the least significant limb first, and a loop that works on
`prod[i + j]` or `yx[i + j]` for all `j` walks over the list from index `i` on. The value of an expression that does not fit an
`int4` and a failed assertion are both `none`.
-/

namespace Gtm

/-! ## Constants of `eb_muldiv.c` -/

def radix : Int := 10000
/-- `FLO_HI`. -/
def floHi : ℚ := 1000000000
/-- `FLO_BIAS`. -/
def floBias : ℚ := 1000

/-- The two words of a mantissa, `m[1]` and `m[0]`. -/
structure Mantissa where
  m1 : Int
  m0 : Int
deriving DecidableEq, Repr

/-- The value of an expression of type `int4`. -/
def int4 (x : Int) : Option Int := if -2147483648 ≤ x ∧ x < 2147483648 then some x else none

/-- A mantissa broken up into limbs: `a` is the place in `m[0]` and `b` the place in `m[1]` from which a limb is taken whole. -/
def ebLimbs (a b : Int) (v : Mantissa) : Option (List Int) := do
  let l0 ← int4 (v.m0.tmod a * radix.tdiv a)
  let l2 ← int4 (v.m1.tmod b * radix.tdiv b)
  let l2 ← int4 (l2 + v.m0.tdiv (a * radix))
  return [l0, (v.m0.tdiv a).tmod radix, l2, (v.m1.tdiv b).tmod radix, v.m1.tdiv (b * radix)]

/-- `(a * RADIX + b) * f + c`: a word assembled from limbs. -/
def ebWord (a b f c : Int) : Option Int := do
  let w ← int4 (a * radix)
  let w ← int4 (w + b)
  let w ← int4 (w * f)
  int4 (w + c)

/-! ## `eb_mul` -/

/-- One limb of a row: `acc = m1[i]*m2[j] + prod[i+j] + carry`, split into the limb and the carry. -/
def mulStep (m d p carry : Int) : Option (Int × Int) := do
  let acc ← int4 (m * d)
  let acc ← int4 (acc + p)
  let acc ← int4 (acc + carry)
  return (acc.tmod radix, acc.tdiv radix)

/-- The loop on `i`: the multiple `d` of `m1` is added to `prod`, which starts at index `j` here. The last carry is stored in the
limb behind the row; behind the last limb there must be none. -/
def mulRow (d : Int) : List Int → List Int → Int → Option (List Int)
  | m :: m1, p :: prod, carry => do
    let (p, carry) ← mulStep m d p carry
    let prod ← mulRow d m1 prod carry
    return p :: prod
  | _ :: _, [], _ => none
  | [], _ :: prod, carry => some (carry :: prod)
  | [], [], carry => if carry = 0 then some [] else none

/-- The loop on `j`. -/
def mulRows (m1 : List Int) : List Int → List Int → Option (List Int)
  | [], prod => some prod
  | d :: m2, prod => do
    match ← (if d ≠ 0 then mulRow d m1 prod 0 else some prod) with
    | p :: prod => return p :: (← mulRows m1 m2 prod)
    | [] => none

/-- `eb_mul`: the scale and the mantissa of the product. -/
def ebMul (v u : Mantissa) : Option (Int × Mantissa) := do
  let m1 ← ebLimbs radix (radix / 10) v
  let m2 ← ebLimbs radix (radix / 10) u
  match ← mulRows m1 m2 (List.replicate 9 0) with
  | [_, _, _, _, p4, p5, p6, p7, p8] =>
    if p8 ≥ radix / 10 then
      -- assemble back 4-4-1/3-4-2
      let w0 ← ebWord (p6.tmod 1000) p5 100 (p4.tdiv 100)
      let w1 ← ebWord p8 p7 10 (p6.tdiv 1000)
      return (0, ⟨w1, w0⟩)
    else
      -- assemble back 3-4-2/2-4-3
      let w0 ← ebWord (p6.tmod 100) p5 1000 (p4.tdiv 10)
      let w1 ← ebWord p8 p7 100 (p6.tdiv 100)
      return (-1, ⟨w1, w0⟩)
  | _ => none

/-! ## `eb_div` -/

/-- One limb of the subtraction of `qx[i]` times `x`, with the new borrow. -/
def subStep (q x y borrow : Int) : Option (Int × Int) := do
  let prod ← int4 (q * x)
  let prod ← int4 (prod + borrow)
  let y ← int4 (y - prod.tmod radix)
  if y < 0 then
    return (← int4 (y + radix), ← int4 (prod.tdiv radix + 1))
  else return (y, prod.tdiv radix)

/-- The loop on `j` that multiplies `x` by `qx[i]` and subtracts it from the remainder. -/
def subLoop (q : Int) : List Int → List Int → Int → Option (List Int × Int)
  | x :: xx, y :: yx, borrow => do
    let (y, borrow) ← subStep q x y borrow
    let (yx, borrow) ← subLoop q xx yx borrow
    return (y :: yx, borrow)
  | _, yx, borrow => some (yx, borrow)

/-- The loop on `j` that adds `x` to the remainder. -/
def addLoop : List Int → List Int → Int → Option (List Int × Int)
  | x :: xx, y :: yx, carry => do
    let s ← int4 (x + carry)
    let y ← int4 (y + s)
    let (yx, carry) ← addLoop xx yx (y.tdiv radix)
    return (y.tmod radix :: yx, carry)
  | _, yx, carry => some (yx, carry)

/-- `while (yx[i+5] < 0)`: the estimate was too high. `none` is also a loop that has not ended after `fuel` rounds. -/
def addBack (xx : List Int) : Nat → Int → List Int → Int → Option (Int × List Int × Int)
  | 0, _, _, _ => none
  | fuel + 1, q, yx, top =>
    if top < 0 then do
      let q ← int4 (q - 1)
      let (yx, carry) ← addLoop xx yx 0
      let top ← int4 (top + carry)
      addBack xx fuel q yx top
    else some (q, yx, top)

/-- `x` times the estimate `q` is subtracted from the remainder, and the estimate is corrected. -/
def subDigit (xx : List Int) (q : Int) (yx : List Int) (top : Int) : Option (Int × List Int × Int) :=
  if q ≠ 0 then do
    let (yx, borrow) ← subLoop q xx yx 0
    let top ← int4 (top - borrow)
    addBack xx (q.toNat + 1) q yx top
  else some (q, yx, top)

/-- One pass of the loop on `i`: `qx[i]` and the remainder `yx[i .. i+4]`, behind which `top` is `yx[i+5]`. -/
def divDigit (xx yx : List Int) (top : Int) : Option (Int × List Int) := do
  let est ← int4 (top * radix)
  let est ← int4 (est + yx.getLastD 0)
  let (q, yx, top) ← subDigit xx (est.tdiv (xx.getLastD 0)) yx top
  guard (0 ≤ q ∧ q < radix)
  guard (top = 0)
  return (q, yx)

/-- The loop on `i`: `low` holds the limbs of `yx` below the remainder `yx`, the next one first, and the digits come out from
`qx[4]` down. -/
def divDigits (xx : List Int) : List Int → List Int → Option (List Int)
  | [], _ => some []
  | l :: low, yx => do
    let (q, yx) ← divDigit xx (l :: yx.dropLast) (yx.getLastD 0)
    return q :: (← divDigits xx low yx)

/-- `eb_div`: the scale and the mantissa of the quotient `y / x`. -/
def ebDiv (x y : Mantissa) : Option (Int × Mantissa) := do
  let le : Bool := x.m1 < y.m1 ∨ x.m1 = y.m1 ∧ x.m0 ≤ y.m0
  -- 3-4-2/2-4-3 or 4-4-1/3-4-2
  let yx ← ebLimbs (if le then radix / 10 else radix / 100) (if le then radix / 100 else radix / 1000) y
  let xx ← ebLimbs (radix / 100) (radix / 1000) x
  guard (yx.getLastD 0 ≤ xx.getLastD 0)
  match ← divDigits xx (List.replicate 5 0) yx with
  | [q4, q3, q2, q1, q0] =>
    let w0 ← ebWord (q2.tmod 1000) q1 100 (q0.tdiv 100)
    let w1 ← ebWord q4 q3 10 (q2.tdiv 1000)
    guard ((mantLo : Int) ≤ w1 ∧ w1 < mantHi ∨ w1 = 0 ∧ w0 = 0 ∧ y.m1 = 0 ∧ y.m0 = 0)
    return (if le then 1 else 0, ⟨w1, w0⟩)
  | _ => none

/-! ## Two `MV_INT`s -/

/-- The result of an operation on `double`s. -/
def double (q : ℚ) : ℚ := BinaryRound.round 53 q

/-- Conversion of a `double` to an integer type. -/
def truncInt (q : ℚ) : Int := if q < 0 then -⌊-q⌋ else ⌊q⌋

/-- `DFLOAT2MINT`: the words `X[1]` and `X[0]`. -/
def dfloat2mint (df : ℚ) : Mantissa :=
  let x1 := truncInt df
  ⟨x1, truncInt (double (double (df - x1) * floHi))⟩

/-- `eb_int_mul`: the product in thousandths, unless promotion is needed. -/
def ebIntMul (v1 u1 : Int) : Option Mantissa :=
  let pf := double (double (u1 * v1) / floBias)
  if pf < floHi ∧ -floHi < pf then
    let tp := dfloat2mint pf
    if tp.m0 = 0 then some tp else none
  else none

/-- `eb_mvint_div`: the quotient in thousandths, unless promotion is needed. -/
def ebMvintDiv (v u : Int) : Option Mantissa :=
  let qf := double (double (v * floBias) / u)
  if qf < floHi ∧ -floHi < qf then
    let tq := dfloat2mint qf
    if tq.m0 = 0 then some tq else none
  else none

/-- `eb_int_div`: the integer quotient in thousandths, unless promotion is needed. -/
def ebIntDiv (v1 u1 : Int) : Option Mantissa :=
  let qf := double (double (v1 * floBias) / u1)
  if qf < floHi ∧ -floHi < qf then
    let q := dfloat2mint qf
    some { q with m1 := q.m1.tdiv mvBias * mvBias }
  else none

end Gtm
