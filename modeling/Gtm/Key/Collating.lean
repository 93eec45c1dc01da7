import Gtm.Key.Subscript
import Gtm.Lib.Positional

/-!
# What a subscript means

The abstract side of the subscript encoding: a subscript is a number or a string that is not the canonical form of a number, and
subscripts are ordered as M collates them. `Mval.subsc` says which subscript an mval is.
-/

namespace Gtm

open Positional

/-- A subscript value: a number, or a string that is not a canonic number. -/
inductive Subsc where
  | num (q : ℚ)
  | str (s : List UInt8)
deriving DecidableEq

/-- The collation order of subscripts: numbers by value, before every string but the empty one; strings bytewise; the empty
string before the numbers under standard null collation, between numbers and the other strings otherwise. -/
def Subsc.Lt (stdNullColl : Bool) : Subsc → Subsc → Prop
  | .num p, .num q => p < q
  | .num _, .str s => s ≠ [] ∨ stdNullColl = false
  | .str s, .num _ => s = [] ∧ stdNullColl = true
  | .str s, .str t => s < t

/-- The value of the numeric part of an mval. -/
def Mval.numVal (v : Mval) : ℚ :=
  if v.mvtype.int then v.m1 / 1000
  else (if v.sgn then -1 else 1) * ((v.m1 * 10 ^ 9 + v.m0) / 10 ^ 18) * 10 ^ ((v.e : ℤ) - mvXbias)

/-- The magnitude a digit string with an optional decimal point denotes. -/
def decAbs (s : List UInt8) : ℚ :=
  let i := s.takeWhile isDigit
  let f := (s.drop (i.length + 1)).takeWhile isDigit
  frac 10 ((i ++ f).map digitVal) * 10 ^ i.length

/-- The value of a decimal string with an optional minus sign. -/
def decVal (s : List UInt8) : ℚ :=
  if s.head? = some ascMinus then -decAbs s.tail else decAbs s

/-- The subscript an mval is. -/
def Mval.subsc (v : Mval) : Subsc :=
  if v.mvtype.numApprox then .str v.str
  else if v.mvtype.nm then .num v.numVal
  else if valIscanStr v.str then .num (decVal v.str)
  else .str v.str

/-- An mval fit to be a subscript: a number in range, or a string whose approximation mark, if set, is right. -/
def Mval.SubscValid (v : Mval) : Prop :=
  (v.mvtype.nm ∧ ¬ v.mvtype.numApprox ∧ v.NumValid) ∨
    (v.mvtype.str ∧ (v.mvtype.int → v.mvtype.nm) ∧ (v.mvtype.nm → v.mvtype.numApprox) ∧
      (v.mvtype.numApprox → ¬ valIscanStr v.str))

end Gtm
