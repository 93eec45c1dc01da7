import Gtm.Numeric.Compare
import Gtm.Numeric.EbMuldiv

/-!
# Arithmetic on mvals

`demote` of `promodemo.c`, `op_add.c`, `op_mul.c`, `op_div.c`, `op_idiv.c` and `flt_mod.c`. Two
`MV_INT`s take a shortcut where the result fits; otherwise both operands are brought to extended precision. The last operand of
each routine is what the destination held before. Magnitudes are not negative, so `/` on them is the division of C.
-/

namespace Gtm

/-! ## Constants of `arit.h` -/

def numDecDg1l : Nat := 9
/-- `EXP_IDX_BIAL`. -/
def expIdxBial : Int := 9 + mvXbias
/-- `EXP_IDX_BIAQ`. -/
def expIdxBiaq : Int := 18 + mvXbias
/-- `EXP_INT_OVERF`: the upper bound of the exponents of `MV_INT`s. -/
def expIntOverf : Int := 7 + mvXbias
/-- `EXP_INT_UNDERF`: their lower bound. -/
def expIntUnderf : Int := -3 + mvXbias

/-- Ways in which an arithmetic routine does not return: the two errors it raises, and an overflow or a failed assertion inside. -/
inductive ArithErr where
  | numoflow
  | divzero
  | undef
deriving DecidableEq, Repr

/-- The words `m[1]` and `m[0]`. -/
def Mval.mant (v : Mval) : Mantissa := ⟨v.m1, v.m0⟩

/-- `MV_FORCE_NUM`, of which an arithmetic routine sees the overflow only. -/
def forceNum (v : Mval) : Except ArithErr Mval :=
  match mvForceNum v with
  | .ok r => .ok r
  | .error _ => .error .numoflow

/-- `MV_FORCE_CANONICAL` on a number. -/
def mvForceCanonical (v : Mval) : Mval :=
  if v.mvtype.numApprox then { v with mvtype := { nm := v.mvtype.nm, int := v.mvtype.int } } else v

/-- `demote`: the inverse of `promote`. -/
def demote (v : Mval) (exp : Int) (sign : Bool) : Mval :=
  let pwr : Int := tenPwr (expIntOverf - 1 - exp).toNat
  { v with
    mvtype := { nm := true, int := true }, m1 := if exp = 0 then v.m1 else if sign then v.m1.tdiv (-pwr) else v.m1.tdiv pwr }

/-! ## `op_add` and `op_sub` -/

/-- An operand of `add_mvals`: sign, exponent and mantissa. -/
structure Operand where
  sgn : Bool
  exp : Int
  m : Mantissa

/-- `for (uexp = EXP_INT_OVERF - 1 ; m1 < MANT_LO ; m1 *= 10 , uexp--)`: the word moved up to its leading digit, and the count of
the places. -/
def normWord : Nat → Int → Nat → Int × Nat
  | 0, m1, n => (m1, n)
  | fuel + 1, m1, n => if m1 < mantLo then normWord fuel (m1 * 10) (n + 1) else (m1, n)

/-- The operand an mval is, with its sign turned for a subtraction; an `MV_INT` is brought to extended precision here. -/
def addOperand (v : Mval) (subtraction : Bool) : Operand :=
  if v.mvtype.int then
    let (m1, n) := normWord numDecDg1l v.m1.natAbs 0
    { sgn := decide (v.m1 < 0) ^^ subtraction, exp := expIntOverf - 1 - n, m := ⟨m1, 0⟩ }
  else { sgn := v.sgn ^^ subtraction, exp := v.e, m := v.mant }

/-- The mantissa of the operand with the smaller exponent moved down by `delta` places. -/
def addAlign (delta : Nat) (n : Mantissa) : Mantissa :=
  if numDecDg1l ≤ delta then ⟨0, n.m1 / tenPwr (delta - numDecDg1l)⟩
  else if 0 < delta then
    let n1 := n.m1 / tenPwr delta
    ⟨n1, (n.m1 - n1 * tenPwr delta) * tenPwr (numDecDg1l - delta) + n.m0 / tenPwr delta⟩
  else n

/-- Addition of the magnitudes: a carry out of the mantissa drops its last digit. -/
def addMagnitudes (m n : Mantissa) (exp : Int) : Mantissa × Int :=
  let m0 := m.m0 + n.m0
  let (m1, m0) := if mantHi ≤ m0 then (m.m1 + 1, m0 - mantHi) else (m.m1, m0)
  let m1 := m1 + n.m1
  if mantHi ≤ m1 then
    let x := m1 / 10
    (⟨x, m0 / 10 + (m1 - x * 10) * mantLo⟩, exp + 1)
  else (⟨m1, m0⟩, exp)

/-- Subtraction of the magnitudes, `m` being the larger one, and normalisation of the difference; `none` for a difference of
zero. The test `m1 < 0` is left of an older form: the difference is not negative. -/
def subMagnitudes (m n : Mantissa) (exp : Int) : Option (Mantissa × Int) :=
  let m0 := m.m0 - n.m0
  let (m1, m0) := if m0 < 0 then (m.m1 - 1, m0 + mantHi) else (m.m1, m0)
  let m1 := m1 - n.m1
  if m1 = 0 ∧ m0 = 0 then none
  else
    let (m1, m0, exp) := if m1 = 0 then (m0, 0, exp - numDecDg1l) else (m1, m0, exp)
    let (m1, exp) := if m1 < 0 then (m1 + mantHi, exp - 1) else (m1, exp)
    if m1 < mantLo then
      let (m1, delta) := normWord numDecDg1l m1 0
      let factor : Int := tenPwr (numDecDg1l - delta)
      let x := m0 / factor
      some (⟨m1 + x, (m0 - x * factor) * tenPwr delta⟩, exp - delta)
    else some (⟨m1, m0⟩, exp)

/-- The end of `add_mvals`: the number as an `MV_INT` where it is one. -/
def addStore (rsign : Bool) (m : Mantissa) (exp : Int) (result : Mval) : Except ArithErr Mval :=
  let factor : Int := tenPwr (expIntOverf - 1 - exp).toNat
  let x := m.m1 / factor
  if (exp < expIntOverf ∧ expIntUnderf < exp ∧ m.m0 = 0) ∧ x * factor = m.m1 then
    .ok { result with mvtype := { nm := true, int := true }, m1 := if rsign then -x else x }
  else if expHi ≤ exp then .error .numoflow
  else if exp < expLo then .ok literalZero
  else .ok { result with mvtype := { nm := true }, sgn := rsign, e := exp.toNat, m0 := m.m0, m1 := m.m1 }

/-- The sum or the difference of the aligned mantissas `m` and `n`, the second being that of the smaller exponent unless `delta` is
negative. -/
def addAligned (usgn vsgn : Bool) (delta exp : Int) (m n : Mantissa) (result : Mval) : Except ArithErr Mval :=
  if usgn = vsgn then
    let (m, exp) := addMagnitudes m n exp
    addStore usgn m exp result
  else
    let swap : Bool := delta < 0 ∨ delta = 0 ∧ (m.m1 < n.m1 ∨ m.m1 = n.m1 ∧ m.m0 < n.m0)
    match subMagnitudes (if swap then n else m) (if swap then m else n) exp with
    | none => .ok { result with mvtype := { nm := true, int := true }, m1 := 0 }
    | some (m, exp) => addStore (if swap then vsgn else usgn) m exp result

/-- `result_is_v` of `add_mvals`. -/
def resultIsV (v : Mval) (subtraction : Bool) (result : Mval) : Mval :=
  if subtraction then
    if v.mvtype.int then { result with mvtype := { nm := true, int := true }, m1 := -v.m1 }
    else { result with mvtype := { nm := true }, sgn := !v.sgn, e := v.e, m0 := v.m0, m1 := v.m1 }
  else mvForceCanonical v

def addMvals (u v : Mval) (subtraction : Bool) (result : Mval) : Except ArithErr Mval :=
  if u.mvtype.int ∧ u.m1 = 0 then .ok (resultIsV v subtraction result)
  else if v.mvtype.int ∧ v.m1 = 0 then .ok (mvForceCanonical u)
  else
    let a := addOperand u false
    let b := addOperand v subtraction
    let delta := a.exp - b.exp
    if numDecDg2l ≤ delta then .ok (mvForceCanonical u)
    else if delta ≤ -numDecDg2l then .ok (resultIsV v subtraction result)
    else
      let exp := if 0 ≤ delta then a.exp else b.exp
      let m := if 0 ≤ delta then a.m else addAlign (-delta).toNat a.m
      let n := if 0 ≤ delta then addAlign delta.toNat b.m else b.m
      addAligned a.sgn b.sgn delta exp m n result

/-- The sum `m1` of two `MV_INT`s. -/
def addInts (m1 : Int) (s : Mval) : Mval :=
  if m1 < mantHi ∧ -mantHi < m1 then { s with mvtype := { nm := true, int := true }, m1 := m1 }
  else
    let sgn : Bool := ¬ 0 < m1
    let m1 := if 0 < m1 then m1 else -m1
    let m0 := m1 / 10
    { s with mvtype := { nm := true }, sgn := sgn, e := expIntOverf.toNat, m0 := (m1 - m0 * 10) * mantLo, m1 := m0 }

def opAdd (u v s : Mval) : Except ArithErr Mval := do
  let u ← forceNum u
  let v ← forceNum v
  if u.mvtype.int ∧ v.mvtype.int then return addInts (u.m1 + v.m1) s else addMvals u v false s

def opSub (u v s : Mval) : Except ArithErr Mval := do
  let u ← forceNum u
  let v ← forceNum v
  if u.mvtype.int ∧ v.mvtype.int then return addInts (u.m1 - v.m1) s else addMvals u v true s

/-! ## `op_mul`, `op_div` and `op_idiv` -/

/-- The end of `op_mul` and `op_div`: the mantissa with its exponent, demoted where it is an `MV_INT`. -/
def mulStore (sgn : Bool) (w : Mantissa) (exp : Int) (p : Mval) : Except ArithErr Mval :=
  let p := { p with m1 := w.m1, m0 := w.m0 }
  if expHi ≤ exp then .error .numoflow
  else if exp < expLo then .ok literalZero
  else if exp < expIntOverf ∧ expIntUnderf < exp ∧ p.m0 = 0 ∧ p.m1.tmod (tenPwr (expIntOverf - 1 - exp).toNat) = 0 then
    .ok (demote p exp sgn)
  else .ok { p with mvtype := { nm := true }, sgn := sgn, e := exp.toNat }

/-- `op_mul` behind the promotion of its operands. -/
def mulPromoted (u v p : Mval) : Except ArithErr Mval :=
  match ebMul u.mant v.mant with
  | none => .error .undef
  | some (c, w) => mulStore (u.sgn ^^ v.sgn) w (u.e + v.e + c - mvXbias) p

/-- `op_div` behind the promotion of its operands. -/
def divPromoted (u v q : Mval) : Except ArithErr Mval :=
  match ebDiv v.mant u.mant with
  | none => .error .undef
  | some (c, w) => mulStore (u.sgn ^^ v.sgn) w (u.e - v.e + c + mvXbias) q

/-- The digits behind the decimal point of a quotient cut off. -/
def idivTruncate (q : Mval) (exp : Int) : Mval :=
  if exp ≤ mvXbias then literalZero
  else if exp < expIdxBial then { q with m1 := q.m1 / tenPwr (expIdxBial - exp).toNat * tenPwr (expIdxBial - exp).toNat, m0 := 0 }
  else if exp < expIdxBiaq then { q with m0 := q.m0 / tenPwr (expIdxBiaq - exp).toNat * tenPwr (expIdxBiaq - exp).toNat }
  else q

/-- `op_idiv` behind the promotion of its operands. -/
def idivPromoted (u v q : Mval) : Except ArithErr Mval :=
  let exp : Int := u.e - v.e + mvXbias
  if exp < mvXbias then .ok literalZero
  else
    match ebDiv v.mant u.mant with
    | none => .error .undef
    | some (c, w) =>
      let exp := exp + c
      let q := idivTruncate { q with m1 := w.m1, m0 := w.m0 } exp
      if exp < expIntOverf ∧ expIntUnderf < exp ∧ q.m0 = 0 ∧ q.m1.tmod (tenPwr (expIntOverf - 1 - exp).toNat) = 0 then
        .ok (demote q exp (u.sgn ^^ v.sgn))
      else if exp < expLo then .error .undef
      else if expHi ≤ exp then .error .numoflow
      else .ok { q with mvtype := { nm := true }, sgn := u.sgn ^^ v.sgn, e := exp.toNat }

/-- `promote` on the operands that are `MV_INT`s. -/
def promoteInt (v : Mval) : Mval := if v.mvtype.int then promote v else v

/-- The words and the type a shortcut for two `MV_INT`s leaves. -/
def intResult (w : Mantissa) (p : Mval) : Mval := { p with mvtype := { nm := true, int := true }, m1 := w.m1, m0 := w.m0 }

def opMul (u v p : Mval) : Except ArithErr Mval := do
  let u ← forceNum u
  let v ← forceNum v
  match if u.mvtype.int ∧ v.mvtype.int then ebIntMul u.m1 v.m1 else none with
  | some w => return intResult w p
  | none => mulPromoted (promoteInt u) (promoteInt v) p

def opDiv (u v q : Mval) : Except ArithErr Mval := do
  let u ← forceNum u
  let v ← forceNum v
  if v.mvtype.int ∧ v.m1 = 0 then .error .divzero
  else match if u.mvtype.int ∧ v.mvtype.int then ebMvintDiv u.m1 v.m1 else none with
    | some w => return intResult w q
    | none => divPromoted (promoteInt u) (promoteInt v) q

def opIdiv (u v q : Mval) : Except ArithErr Mval := do
  let u ← forceNum u
  let v ← forceNum v
  if v.mvtype.int ∧ v.m1 = 0 then .error .divzero
  else match if u.mvtype.int ∧ v.mvtype.int then ebIntDiv u.m1 v.m1 else none with
    | some w => return intResult w q
    | none => idivPromoted (promoteInt u) (promoteInt v) q

/-! ## `flt_mod` -/

end Gtm
