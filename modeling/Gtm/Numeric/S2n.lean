import Gtm.Numeric.Mval

/-!
# Strings to numbers

`s2n.c`: the number at the start of a string, as an `MV_INT` in thousandths where it fits, otherwise as an exponent and two
mantissa words of nine digits. `MV_NUM_APPROX` is set when the string is not the canonical form of the number.
-/

namespace Gtm

/-- `ten_pwr[n]`. -/
def tenPwr (n : Nat) : Nat := 10 ^ n

/-- A run of at most `b` digits appended to a mantissa word `m`: the rest, the room left, the word, the zeros it ends in (`i`)
and the count of digits (`z`). -/
def s2nDigits : Nat → List UInt8 → Nat → Nat → Nat → List UInt8 × Nat × Nat × Nat × Nat
  | b + 1, c :: r, m, i, z =>
    if isDigit c then s2nDigits b r (m * 10 + digitVal c) (if c = ascZero then i + 1 else 0) (z + 1)
    else (c :: r, b + 1, m, i, z)
  | b, r, m, i, z => (r, b, m, i, z)

/-- What reading one mantissa word leaves behind. -/
structure S2nWord where
  rest : List UInt8
  /-- `d - c`: the digits the word has room for. -/
  room : Nat
  m : Nat
  i : Nat
  z : Nat
  y : Int
  dot : Bool

/-- One mantissa word: digits, a decimal point if none was seen before, and digits again, nine in all. -/
def s2nWord (r : List UInt8) (i z : Nat) (y : Int) (dot : Bool) : S2nWord :=
  let (r, b, m, i, z) := s2nDigits 9 r 0 i z
  let (r, y, dot) : List UInt8 × Int × Bool :=
    if b > 0 ∧ r.head? = some ascDot ∧ dot = false then (r.tail, (z : Int), true) else (r, y, dot)
  let (r, b, m, i, _) := s2nDigits b r m i 0
  { rest := r, room := b, m := m, i := i, z := z, y := y, dot := dot }

/-- Both mantissa words with the decimal point. -/
structure S2nMantissa where
  m1 : Nat
  m0 : Nat
  k : Nat
  i : Nat
  z : Nat
  y : Int
  dot : Bool
  rest : List UInt8

/-- The mantissa words: the second one is read only when the string goes on, and zeros behind it are skipped. -/
def s2nMantissa (r : List UInt8) (y : Int) (dot : Bool) : S2nMantissa :=
  let w1 := s2nWord r 0 0 y dot
  if w1.rest = [] then ⟨w1.m, 0, w1.room, w1.i, w1.z, w1.y, w1.dot, []⟩
  else
    let w2 := s2nWord w1.rest 0 w1.z w1.y w1.dot
    let (rest, trail) := skipZeros w2.rest 0
    ⟨w1.m, w2.m * tenPwr w2.room, w1.room, w1.i, w2.z + trail, w2.y, w2.dot, rest⟩

/-- The signs in front of a number: `1` for each minus and `2` for each plus. -/
def s2nSigns : List UInt8 → Nat → List UInt8 × Nat
  | [], sign => ([], sign)
  | c :: r, sign =>
    if c = ascMinus then s2nSigns r (sign + 1) else if c = ascPlus then s2nSigns r (sign + 2) else (c :: r, sign)

/-- The digits behind both mantissa words: those of the integer part are counted in `z`. -/
def s2nExcess (dot : Bool) : List UInt8 → Bool → Nat → List UInt8 × Nat
  | [], _, z => ([], z)
  | c :: r, dotseen, z =>
    if (c = ascDot ∧ dot = false) ∨ isDigit c then
      let dotseen := dotseen || c = ascDot
      s2nExcess dot r dotseen (if dotseen then z else z + 1)
    else (c :: r, z)

/-- The digits of an exponent, of which three count: the rest, the value and the number of digits that counted. -/
def s2nExpDigits : List UInt8 → Nat → Nat → List UInt8 × Nat × Nat
  | [], x, n => ([], x, n)
  | c :: r, x, n =>
    if isDigit c then
      if maxDigitsInExp + 1 > n then s2nExpDigits r (x * 10 + digitVal c) (n + 1) else s2nExpDigits r x n
    else (c :: r, x, n)

/-- The exponent behind an `E`: its value and the rest, which is the whole input when no digit follows. -/
def s2nExp (r : List UInt8) (digit : Bool) : Int × List UInt8 × Bool :=
  match r with
  | c :: s :: r' =>
    if c = ascE ∧ digit then
      let exneg := s = ascMinus
      let d := if s = ascMinus ∨ s = ascPlus then r' else s :: r'
      let (r1, k) := skipZeros d 0
      let (r2, x, n) := s2nExpDigits r1 0 0
      if n = 0 ∧ k = 0 then (0, r, true) else (if exneg then -(x : Int) else x, r2, true)
    else (0, r, false)
  | [c] => (0, r, c = ascE ∧ digit)
  | [] => (0, r, false)

/-- What `s2n` leaves: the mval, the place where the number ended and the literal flag of the compiler. -/
structure S2nResult where
  mval : Mval
  rest : List UInt8
  intlit : Bool

/-- `m[1]` as an `MV_INT` in thousandths: digits are added or, for a negative `j`, dropped. -/
def s2nThousandths (m1 : Nat) (j : Int) : Nat := if j < 0 then m1 / tenPwr j.natAbs else m1 * tenPwr j.toNat

/-- The numeric part of the mval, once the digits have been read: `x` the decimal exponent, `k` the room left in `m[1]`, `i` the
zeros `m[1]` ends in. -/
def s2nStore (u : Mval) (m1 m0 k i sign : Nat) (x : Int) (approx : Bool) : Except NumErr Mval :=
  let j := x + k - 6
  let neg : Bool := sign % 2 = 1
  let t := { u.mvtype with nm := true, numApprox := u.mvtype.numApprox || approx }
  if m0 = 0 ∧ x ≤ 6 ∧ 0 ≤ i + j then
    let m : Int := s2nThousandths m1 j
    .ok { u with mvtype := { t with int := true }, m1 := if neg then -m else m, m0 := m0 }
  else
    let m : Nat := m1 * tenPwr k
    let x := x + mvXbias
    if x < expLo ∨ m = 0 then
      .ok { u with mvtype := { u.mvtype with nm := true, int := true, numApprox := true }, m1 := 0, m0 := m0 }
    else if expHi ≤ x then .error .numoflow
    else .ok { u with mvtype := t, e := x.toNat, sgn := neg, m1 := m, m0 := m0 }

/-- `s2n`, at run time. -/
def s2n (u : Mval) : Except NumErr S2nResult :=
  if u.str = [] then
    .ok { mval := { mvtype := { nm := true, int := true, str := true, numApprox := true } }, rest := [], intlit := true }
  else
    let (r, sign) := s2nSigns u.str 0
    let (r, nzero) := skipZeros r 0
    let dot : Bool := r.head? = some ascDot
    let (r, lead) := skipZeros (if dot then r.tail else r) 0
    let mant := s2nMantissa r (-lead) dot
    let tail : Bool := mant.rest ≠ [] || (mant.dot && (u.str.getLast? = some ascZero || u.str.getLast? = some ascDot))
    let (r, z) := s2nExcess mant.dot mant.rest mant.dot mant.z
    let digit : Bool := z ≠ 0 || mant.y ≠ 0 || nzero ≠ 0
    let (x, r, exp) := s2nExp r digit
    let intlit : Bool := sign ≠ 0 || mant.dot || exp
    if digit then
      let approx : Bool := tail || 1 < sign || (nzero ≠ 0 && u.str.length ≠ 1)
      (s2nStore u mant.m1 mant.m0 mant.k mant.i sign (x + if mant.dot then mant.y else z) approx).map
        fun v => { mval := v, rest := r, intlit := intlit }
    else
      let v := { u with mvtype := { u.mvtype with nm := true, int := true, numApprox := true }, m1 := 0, m0 := mant.m0 }
      .ok { mval := v, rest := r, intlit := intlit }

end Gtm
