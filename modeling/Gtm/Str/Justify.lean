import Gtm.Numeric.Arith
import Gtm.Str.PieceCache

/-!
# Numbers as justified text

`$JUSTIFY` with a number of decimals writes a number rounded, with blanks on its left (`op_fnj3.c`); `$FNUMBER` writes it with the signs and
commas that a format asks for, and rounds it with `op_fnj3` first if it is told to (`op_fnfnumber.c`). Magnitudes are natural numbers. A
size that overflows an `int` has no value.
-/

namespace Gtm

namespace Justify

open ZPiece

/-- `MAX_NUM_SIZE`. -/
def maxNumSize : Nat := 64

/-- The errors of both functions. -/
inductive JustErr where
  | maxstrlen
  | justfract
  | numoflow
  | fnumarg (fmt : List UInt8) (at_ : Nat)
  | fnarginc (fmt : List UInt8)
deriving DecidableEq

/-- How many bytes were reserved at `stringpool.free`, and what has been written there. -/
structure Written where
  reserved : Int
  out : List UInt8
deriving DecidableEq

/-! ## `op_fnj3` -/

/-- `fives_table`. -/
def fivesTable (i : Nat) : Nat := 5 * tenPwr (8 - i)

def ascBlank : UInt8 := 0x20

/-- `for (digs = 6; n < 100000000; n *= 10, digs--)`. -/
def fnj3Norm : Nat → Nat → Nat → Nat × Nat
  | 0, n, digs => (n, digs)
  | fuel + 1, n, digs => if n < mantLo then fnj3Norm fuel (n * 10) (digs - 1) else (n, digs)

/-- The loop over the integer digits of an `MV_INT`: the digits, and what is left of the number. -/
def fnj3IntDigits : Nat → Nat → List UInt8 × Nat
  | 0, n => ([], n)
  | digs + 1, n =>
    let n1 := n / mantLo
    let (out, n) := fnj3IntDigits digs ((n - n1 * mantLo) * 10)
    (digitChar n1 :: out, n)

/-- The decimals of an `MV_INT`, and zeros behind the last one. -/
def fnj3IntFract : Nat → Nat → List UInt8
  | 0, _ => []
  | digs + 1, n =>
    if n ≠ 0 then
      let n1 := n / mantLo
      digitChar n1 :: fnj3IntFract digs ((n - n1 * mantLo) * 10)
    else List.replicate (digs + 1) ascZero

/-- The branch for an `MV_INT`. -/
def fnj3Int (m1 : Int) (width fract : Nat) : Option (List UInt8) := do
  let sign : Bool := m1 < 0
  let n := m1.natAbs
  let n := if fract < 3 then n + fivesTable (fract + 6) else n
  let (n, digs, sign) : Nat × Nat × Bool :=
    if n < 1000 then
      if sign ∧ fract < 4 ∧ n / tenPwr (3 - fract) = 0 then (0, 0, false) else (n * 1000000, 0, sign)
    else if mantHi ≤ n then (n, 7, sign)
    else
      let (n, digs) := fnj3Norm 9 n 6
      (n, digs, sign)
  let w ← int4 (width - (if sign then 1 else 0) - (if fract ≠ 0 then 1 else 0) - fract - digs)
  let w := if digs = 0 then w - 1 else w
  let out := List.replicate w.toNat ascBlank ++ if sign then [ascMinus] else []
  let (out, n) : List UInt8 × Nat :=
    if digs = 0 then (out ++ [ascZero], n)
    else if digs = 7 then
      let (ds, n) := fnj3IntDigits 6 (n - mantHi)
      (out ++ digitChar 1 :: ds, n)
    else
      let (ds, n) := fnj3IntDigits digs n
      (out ++ ds, n)
  return if fract ≠ 0 then out ++ ascDot :: fnj3IntFract fract n else out

/-- The words of the mantissa that have not been written, and how many digits have been. -/
structure Fnj3Words where
  n : Nat
  m : Nat
  digsUsed : Nat

/-- The loops over the digits of a mantissa: the digits, how many of them are not there, and what is left. -/
def fnj3Digits : Nat → Fnj3Words → List UInt8 × Nat × Fnj3Words
  | 0, s => ([], 0, s)
  | digs + 1, s =>
    if s.n ≠ 0 ∨ s.m ≠ 0 then
      let n1 := s.n / mantLo
      let digsUsed := s.digsUsed + 1
      let s : Fnj3Words := if digsUsed = 9 then ⟨s.m, 0, digsUsed⟩ else ⟨(s.n - n1 * mantLo) * 10, s.m, digsUsed⟩
      let (out, left, s) := fnj3Digits digs s
      (digitChar n1 :: out, left, s)
    else ([], digs + 1, s)

/-- The mantissa and its exponent after a carry out of the first word. -/
def fnj3Carry (n m : Nat) (digs : Int) : Nat × Nat × Int :=
  if mantHi ≤ n then (n / 10, m / 10 + (n - n / 10 * 10) * mantLo, digs + 1) else (n, m, digs)

/-- Half of the last place that is kept added to a mantissa. -/
def fnj3Round (w : Int) (n m : Nat) (digs : Int) : Nat × Nat × Int :=
  if w < 18 ∧ 0 ≤ w then
    if w < 9 then
      fnj3Carry (n + fivesTable w.toNat) m digs
    else
      let m := m + fivesTable (w - 9).toNat
      if mantHi ≤ m then fnj3Carry (n + 1) (m - mantHi) digs else (n, m, digs)
  else (n, m, digs)

/-- The branch for any other number. -/
def fnj3Approx (sgn : Bool) (e m1 m0 : Nat) (width fract : Nat) : Option (List UInt8) := do
  let digs : Int := e - mvXbias
  let w ← int4 (digs + fract)
  let (n, m, digs) := fnj3Round w m1 m0 digs
  let (sign, n, m) : Bool × Nat × Nat := if digs ≤ -(fract : Int) then (false, 0, 0) else (sgn, n, m)
  let w ← int4 (width - fract - (if fract ≠ 0 then 1 else 0) - (if sign then 1 else 0) - (if digs < 1 then 1 else digs))
  let out := List.replicate w.toNat ascBlank ++ if sign then [ascMinus] else []
  let (out, digs, s) : List UInt8 × Int × Fnj3Words :=
    if digs < 1 then (out ++ [ascZero], digs, ⟨n, m, 0⟩)
    else
      let (ds, left, s) := fnj3Digits digs.toNat ⟨n, m, 0⟩
      (out ++ ds ++ List.replicate left ascZero, left, s)
  if fract ≠ 0 then
    let zeros := if digs < 0 then min digs.natAbs fract else 0
    let (ds, left, _) := fnj3Digits (fract - zeros) s
    return out ++ ascDot :: (List.replicate zeros ascZero ++ ds ++ List.replicate left ascZero)
  else return out

/-- `op_fnj3`. -/
def opFnj3 (src : Mval) (width fract : Int) : Option (Except JustErr Written) :=
  let width := if width < 0 then 0 else width
  if (maxStrlen : Int) < width then some (.error .maxstrlen)
  else if fract < 0 then some (.error .justfract)
  else do
    let w ← int4 (width + maxNumSize + 2 + fract)
    if (maxStrlen : Int) < w then return .error .maxstrlen
    else match mvForceNum src with
      | .error _ => return .error .numoflow
      | .ok v =>
        let out ← if v.mvtype.int then fnj3Int v.m1 width.toNat fract.toNat
          else fnj3Approx v.sgn v.e v.m1.toNat v.m0.toNat width.toNat fract.toNat
        return .ok ⟨w, out⟩

/-! ## `op_fnfnumber` -/

/-- `fncode`. -/
structure FnCode where
  plus : Bool := false
  minus : Bool := false
  trail : Bool := false
  comma : Bool := false
  paren : Bool := false
deriving DecidableEq

def ascComma : UInt8 := 0x2c
def ascOpen : UInt8 := 0x28
def ascClose : UInt8 := 0x29

/-- The codes of a format, or the place of the first character that is none. -/
def fnCode : List UInt8 → Nat → FnCode → Except Nat FnCode
  | [], _, code => .ok code
  | c :: ff, i, code =>
    if c = ascPlus then fnCode ff (i + 1) { code with plus := true }
    else if c = ascMinus then fnCode ff (i + 1) { code with minus := true }
    else if c = ascComma then fnCode ff (i + 1) { code with comma := true }
    else if c = 0x54 ∨ c = 0x74 then fnCode ff (i + 1) { code with trail := true }
    else if c = 0x50 ∨ c = 0x70 then fnCode ff (i + 1) { code with paren := true }
    else .error i

/-- The number of characters before the decimal point. The string of a number is not empty. -/
def wholeLen : List UInt8 → Nat
  | [] => 0
  | c :: t => if c = ascDot then 0 else wholeLen t + 1

/-- The groups of three characters, with commas between them, and the rest. -/
def commaGroups : Nat → Bool → List UInt8 → List UInt8
  | 0, _, ch => ch
  | x + 1, comma, ch => (if comma then [ascComma] else []) ++ ch.take 3 ++ commaGroups x true (ch.drop 3)

/-- A number without its sign, with commas. -/
def commaText (ch : List UInt8) : List UInt8 :=
  let x := wholeLen ch
  ch.take (x % 3) ++ commaGroups (x / 3) (decide (0 < x % 3)) (ch.drop (x % 3))

/-- What is in front of a number, what is behind it, and whether the number is in the middle of them with commas. -/
def fnumberText (code : FnCode) (neg isZero : Bool) (ch : List UInt8) : List UInt8 :=
  let paren := code.paren && neg
  let out := if code.paren then [if neg then ascOpen else ascBlank] else []
  let sign : Option UInt8 := if neg ∧ ¬ code.paren then some ascMinus else none
  let sign := if code.plus ∧ sign = none ∧ ¬ isZero then some ascPlus else sign
  let sign := if code.minus ∧ sign = some ascMinus then none else sign
  let out := if code.trail then out else out ++ sign.toList
  let out := out ++ if code.comma then commaText ch else ch
  let out := if code.trail then out ++ [sign.getD ascBlank] else out
  if code.paren then out ++ [if paren then ascClose else ascBlank] else out

/-- The value that is formatted, as a string. What is left of its number after `op_fnj3` is not read. -/
def fnumberDst (src : Mval) (fract : Option Int) : Option (Except JustErr Mval) :=
  match fract with
  | some fract => (opFnj3 src 0 fract).map fun r => r.map fun w => Mval.ofStr w.out
  | none =>
    match mvForceNum src with
    | .error _ => some (.error .numoflow)
    | .ok v => some (.ok (mvForceStr (mvForceCanonical v)))

/-- What `op_fnfnumber` makes of a string: the result, and what it reserves and writes itself. -/
def fnumberFormat (fmt : List UInt8) (dst : Mval) : Except JustErr (List UInt8 × Written) :=
  if fmt = [] then .ok (dst.str, ⟨0, []⟩)
  else
    match fnCode fmt 0 {} with
    | .error i => .error (.fnumarg fmt i)
    | .ok code =>
      if code.paren ∧ (code.plus ∨ code.minus ∨ code.trail) then .error (.fnarginc fmt)
      else
        let neg : Bool := dst.str.head? = some ascMinus
        let ch := if neg then dst.str.tail else dst.str
        if code.plus ∧ ¬ neg then
          match mvForceNum dst with
          | .error _ => .error .numoflow
          | .ok v =>
            let out := fnumberText code neg (v.mvtype.int ∧ v.m1 = 0) ch
            .ok (out, ⟨2 * maxNumSize, out⟩)
        else
          let out := fnumberText code neg false ch
          .ok (out, ⟨2 * maxNumSize, out⟩)

/-- `op_fnfnumber`, for a format that has a value or not. -/
def opFnfnumber (src : Mval) (fmt : Option (List UInt8)) (fract : Option Int) : Option (Except JustErr (List UInt8 × Written)) :=
  match fmt with
  | none => some (.error (.fnumarg [] 0))
  | some fmt => (fnumberDst src fract).map fun r => r.bind (fnumberFormat fmt)

end Justify

end Gtm
