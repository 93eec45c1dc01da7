import Gtm.Lib.LexOrder

/-!
# Mvals: numbers and their canonical strings

The `mval` of `mdef.h` with its numeric and string parts, the conversion of a number to its canonical string (`n2s.c`), the test
for a canonic numeric string (`val_iscan.c`) and the conversion of a string to a number (`s2n.c`). A pointer that walks over a
string is the rest of the string it points to; a limit `d` ahead of a pointer `c` is the distance `d - c`.
-/

namespace Gtm

/-! ## Constants of `arit.h` and `mdef.h` -/

def mvBias : Nat := 1000
def mvBiasPwr : Nat := 3
def mvXbias : Nat := 62
/-- `EXPLO`: the least biased exponent of a number. -/
def expLo : Nat := 20
/-- `EXPHI`: the first biased exponent that overflows. -/
def expHi : Nat := 110
def mantLo : Nat := 100000000
def mantHi : Nat := 1000000000
def maxDigitsInInt : Nat := 10
def packedDigits : Nat := maxDigitsInInt - 1
def numDecDg2l : Nat := 18
def maxDigitsInExp : Nat := 2

/-- The ASCII codes the conversions read and write. -/
def ascZero : UInt8 := 0x30
def ascNine : UInt8 := 0x39
def ascDot : UInt8 := 0x2e
def ascMinus : UInt8 := 0x2d
def ascPlus : UInt8 := 0x2b
def ascE : UInt8 := 0x45

/-- The character of a decimal digit. -/
def digitChar (d : Nat) : UInt8 := UInt8.ofNat (d + 48)

/-- `DIGIT(x)`. -/
def isDigit (c : UInt8) : Bool := ascZero ≤ c && c ≤ ascNine

/-- The value of a digit character, `*c - '0'`. -/
def digitVal (c : UInt8) : Nat := c.toNat - 48

/-! ## The data -/

/-- The `mvtype` bits the conversions read and write. -/
structure MvType where
  nm : Bool := false
  int : Bool := false
  str : Bool := false
  numApprox : Bool := false
deriving DecidableEq, Repr

/-- An `mval`: type bits, sign and biased exponent of a non-integer number, the two mantissa words and the string. -/
structure Mval where
  mvtype : MvType
  sgn : Bool := false
  e : Nat := 0
  m0 : Int := 0
  m1 : Int := 0
  str : List UInt8 := []
deriving DecidableEq, Repr

/-- An `mval` holding a string and nothing else. -/
def Mval.ofStr (s : List UInt8) : Mval := { mvtype := { str := true }, str := s }

/-- The numeric part is in the range the arithmetic routines keep: an `MV_INT` in thousandths below `MANT_HI`, or a mantissa
with a non-zero leading digit and an exponent from `EXPLO` to below `EXPHI`. -/
def Mval.NumValid (v : Mval) : Prop :=
  if v.mvtype.int then v.m1.natAbs < mantHi
  else (mantLo : Int) ≤ v.m1 ∧ v.m1 < mantHi ∧ 0 ≤ v.m0 ∧ v.m0 < mantHi ∧ expLo ≤ v.e ∧ v.e < expHi

instance (v : Mval) : Decidable v.NumValid :=
  inferInstanceAs (Decidable (if v.mvtype.int then v.m1.natAbs < mantHi
    else (mantLo : Int) ≤ v.m1 ∧ v.m1 < mantHi ∧ 0 ≤ v.m0 ∧ v.m0 < mantHi ∧ expLo ≤ v.e ∧ v.e < expHi))

/-- The numeric part with a mantissa as in `NumValid`, and any exponent. -/
def Mval.MantValid (v : Mval) : Prop :=
  if v.mvtype.int then v.m1.natAbs < mantHi
  else (mantLo : Int) ≤ v.m1 ∧ v.m1 < mantHi ∧ 0 ≤ v.m0 ∧ v.m0 < mantHi

theorem Mval.NumValid.mantValid {v : Mval} (h : v.NumValid) : v.MantValid := by
  unfold Mval.NumValid at h
  unfold Mval.MantValid
  split
  · next hi =>
    rw [if_pos hi] at h
    exact h
  · next hi =>
    rw [if_neg hi] at h
    exact ⟨h.1, h.2.1, h.2.2.1, h.2.2.2.1⟩

/-- Outcomes of the numeric conversions that are errors. -/
inductive NumErr where
  | numoflow
deriving DecidableEq, Repr

/-! ## `n2s` -/

/-- The integer digits of the `MV_INT` branch, pushed from the right; `fuel` is the room left in `lcl_buf`. -/
def n2sIntPart : Nat → Nat → List UInt8 → List UInt8
  | 0, _, out => out
  | fuel + 1, m0, out => if m0 > 0 then n2sIntPart fuel (m0 / 10) (digitChar (m0 % 10) :: out) else out

/-- The fraction digits of the `MV_INT` branch after the last non-zero one has been pushed. -/
def n2sFracRest : Nat → Nat → List UInt8 → List UInt8
  | 0, _, out => out
  | n + 1, m1, out => n2sFracRest n (m1 / 10) (digitChar (m1 % 10) :: out)

/-- The fraction digits of the `MV_INT` branch: trailing zeros are skipped, then the rest is pushed. -/
def n2sFracPart : Nat → Nat → List UInt8
  | 0, _ => [digitChar 0]
  | n + 1, m1 => if m1 % 10 ≠ 0 then n2sFracRest n (m1 / 10) [digitChar (m1 % 10)] else n2sFracPart n (m1 / 10)

/-- The string of an `MV_INT` magnitude in thousandths. -/
def n2sInt (m1 : Nat) : List UInt8 :=
  let m0 := m1 / mvBias
  let f := m1 - m0 * mvBias
  n2sIntPart maxDigitsInInt m0 (if f > 0 then ascDot :: n2sFracPart mvBiasPwr f else [])

/-- One pass of the digit loop of the non-integer branch: up to nine digits of `m1`, with the decimal point where `exp` reaches
zero, ending early when only zeros of a fraction are left. -/
def n2sPass : Nat → Int → Nat → Nat → List UInt8 → Int × List UInt8
  | 0, exp, _, _, out => (exp, out)
  | n + 1, exp, m1, m0, out =>
    if exp = 0 then
      if m0 = 0 ∧ m1 = 0 then (exp - 1, out)
      else n2sPass n (exp - 1) ((m1 - m1 / mantLo * mantLo) * 10) m0 (out ++ [ascDot, digitChar (m1 / mantLo)])
    else if exp - 1 < 0 ∧ m0 = 0 ∧ m1 = 0 then (exp - 1, out)
    else n2sPass n (exp - 1) ((m1 - m1 / mantLo * mantLo) * 10) m0 (out ++ [digitChar (m1 / mantLo)])

/-- The outer loop `for (; m1; m1 = m0, m0 = 0)`: `m0` is zero after the first round, so there are at most two. -/
def n2sDigits (exp : Int) (m1 m0 : Nat) (out : List UInt8) : Int × List UInt8 :=
  if m1 = 0 then (exp, out)
  else
    let (exp, out) := n2sPass packedDigits exp m1 m0 out
    if m0 = 0 then (exp, out) else n2sPass packedDigits exp m0 0 out

/-- The string of a non-integer number. -/
def n2sApprox (sgn : Bool) (e m1 m0 : Nat) : List UInt8 :=
  let exp : Int := e - mvXbias
  let out := if sgn then [ascMinus] else []
  let out := if exp < 0 then out ++ ascDot :: List.replicate exp.natAbs ascZero else out
  let (exp, out) := n2sDigits exp m1 m0 out
  out ++ List.replicate exp.toNat ascZero

/-- The string `n2s` builds for the number. -/
def n2sStr (v : Mval) : List UInt8 :=
  if v.m1 = 0 then [ascZero]
  else if v.mvtype.int then (if v.m1 < 0 then [ascMinus] else []) ++ n2sInt v.m1.natAbs
  else n2sApprox v.sgn v.e v.m1.toNat v.m0.toNat

/-- `n2s`: the mval with the string of its number. -/
def n2s (v : Mval) : Mval := { v with mvtype := { v.mvtype with str := true, numApprox := false }, str := n2sStr v }

/-- `MV_FORCE_STR`. -/
def mvForceStr (v : Mval) : Mval := if v.mvtype.str then v else n2s v

/-! ## `val_iscan` -/

/-- A run of digits with the count of its digits and of the zeros it ends in. -/
def iscanDigits : List UInt8 → Nat → Nat → List UInt8 × Nat × Nat
  | [], zeroes, n => ([], zeroes, n)
  | c :: r, zeroes, n =>
    if isDigit c then iscanDigits r (if c = ascZero then zeroes + 1 else 0) (n + 1) else (c :: r, zeroes, n)

/-- A run of `'0'` characters with its length. -/
def skipZeros : List UInt8 → Nat → List UInt8 × Nat
  | [], n => ([], n)
  | c :: r, n => if c = ascZero then skipZeros r (n + 1) else (c :: r, n)

/-- The scan behind the sign: the unread rest, whether a point was seen, the significant digits and the exponent; `none` when
the string cannot start a number. -/
def iscanBody (s : List UInt8) : Option (List UInt8 × Bool × Nat × Int) :=
  match s with
  | [] => none
  | c :: r =>
    if c ≤ ascNine ∧ ascZero < c then
      let (r1, z1, n1) := iscanDigits s 0 0
      match r1 with
      | d :: r2 =>
        if d = ascDot then
          let (r3, z3, n3) := iscanDigits r2 z1 n1
          some (r3, true, n3 - z3, n1)
        else some (r1, false, n1 - z1, n1)
      | [] => some (r1, false, n1 - z1, n1)
    else if c = ascDot then
      let (r1, k) := skipZeros r 0
      let (r2, _, n2) := iscanDigits r1 0 0
      some (r2, true, n2, -k)
    else none

/-- `val_iscan` on the string of an mval. -/
def valIscanStr (s : List UInt8) : Bool :=
  if s.length = 0 then false
  else if s = [ascZero] then true
  else
    let body := match s with
      | c :: r => if c = ascMinus then r else s
      | [] => s
    match iscanBody body with
    | none => false
    | some (rest, dot, sigdigs, exp) =>
      let exp := exp + mvXbias
      !(rest ≠ [] || (dot && (s.getLast? = some ascZero || s.getLast? = some ascDot)) || numDecDg2l < sigdigs ||
        exp < expLo || expHi ≤ exp)

/-- `val_iscan`. -/
def valIscan (v : Mval) : Bool := valIscanStr (mvForceStr v).str

end Gtm
