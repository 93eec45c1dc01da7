import Gtm.Lv.AvlTree
import Gtm.Numeric.EbMuldiv

/-!
# Numeric keys compared in `int`s

The comparisons of numeric keys of `lv_tree.c` with each difference and each product in an `int`, and the exponent in the seven bits
of `key_e`. What does not fit has no value.
-/

namespace Gtm

/-- The mantissa word that `promote` and `lvAvlTreeNodeFltConv` make of an integer. -/
def fltM1In (m1 : Int) : Option Int :=
  (if 0 < m1 then some m1 else int4 (-m1)).bind fun m1 => int4 (m1 * tenPwr (9 - promoteExp 9 m1.natAbs 0))

/-- `promote` on the temporary key of `LV_AVL_TREE_INTKEY_CMP`. -/
def promoteIn (v : Mval) : Option Mval :=
  if v.m1 = 0 then some literalZero
  else do
    let m1 ← fltM1In v.m1
    let exp := promoteExp 9 v.m1.natAbs 0
    if mvXbias - 3 + exp < 2 ^ 7 then
      some { v with mvtype := { nm := true }, sgn := v.m1 < 0, e := mvXbias - 3 + exp, m1, m0 := 0 }
    else none

/-- `lvAvlTreeNodeFltConv`. -/
def lvAvlTreeNodeFltConvIn (n : LvTreeNode) : Option LvTreeNode :=
  if n.keyM0 ≠ 0 then do
    let m1 ← fltM1In n.keyM0
    let exp := promoteExp 9 n.keyM0.natAbs 0
    if exp + (mvXbias - 3) < 2 ^ 7 then
      some { n with keySgn := decide (n.keyM0 < 0), keyM1 := m1, keyE := exp + (mvXbias - 3), keyIconv := true }
    else none
  else some { n with keyE := 0, keyIconv := true }

/-- The part of `LV_AVL_TREE_INTKEY_CMP` and `LV_AVL_TREE_NUMKEY_CMP` that compares two numbers with an exponent. -/
def fltKeyCmpIn (a : Mval) (bSgn : Bool) (bE : Nat) (bM1 bM0 : Int) : Option Int :=
  let aSgn : Int := if a.sgn then -1 else 1
  let bSgn : Int := if bSgn then -1 else 1
  if aSgn ≠ bSgn then some aSgn
  else do
    let expDiff ← int4 (a.e - bE)
    if expDiff ≠ 0 then int4 (expDiff * aSgn)
    else
      let m1Diff ← int4 (a.m1 - bM1)
      if m1Diff ≠ 0 then int4 (m1Diff * aSgn)
      else if a.m1 = 0 then some 0
      else
        let m0Diff ← int4 (a.m0 - bM0)
        if m0Diff ≠ 0 then int4 (m0Diff * aSgn) else some 0

/-- `LV_AVL_TREE_INTKEY_CMP`. -/
def lvAvlTreeIntkeyCmpIn (aM1 : Int) (b : LvTreeNode) : Option (Int × LvTreeNode) :=
  if b.int then do return (← int4 (aM1 - b.keyM0), b)
  else if b.canonical then do
    let a ← promoteIn { mvtype := { nm := true, int := true }, m1 := aM1 }
    return (← fltKeyCmpIn a b.keySgn b.keyE b.keyM1 b.keyM0, b)
  else some (-1, b)

/-- `LV_AVL_TREE_NUMKEY_CMP`. -/
def lvAvlTreeNumkeyCmpIn (a : Mval) (b : LvTreeNode) : Option (Int × LvTreeNode) :=
  if b.canonical then
    (if b.int && !b.keyIconv then lvAvlTreeNodeFltConvIn b else some b).bind fun b => do
      return (← fltKeyCmpIn a b.keySgn b.keyE b.keyM1 (if b.int then 0 else b.keyM0), b)
  else some (-1, b)

/-- The comparison with which the lookup of a number goes down the tree: `lvAvlTreeLookupInt` or `lvAvlTreeLookupNum`. -/
def TreeKey.numCmpIn (k : TreeKey) (b : LvTreeNode) : Option (Int × LvTreeNode) :=
  if k.key.mvtype.int then lvAvlTreeIntkeyCmpIn k.key.m1 b else lvAvlTreeNumkeyCmpIn k.key b

end Gtm
