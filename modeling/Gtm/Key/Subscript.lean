import Gtm.Numeric.S2n

/-!
# Subscripts of a global key

A key is a byte string of the name and the subscripts, each closed by a `KEY_DELIMITER`, with a second delimiter at the end.
`mval2subsc.c` appends a subscript to a key, `gvsub2str.c` (with the tables of `sub2stbl.c`) turns the bytes of a subscript back
into a string.
-/

namespace Gtm

/-! ## Constants of `gdsfhead.h`, `gdsblk.h` and `subscript.h` -/

def keyDelimiter : UInt8 := 0x00
def strSubPrefix : UInt8 := 0xFF
def strSubEscape : UInt8 := 0x01
def subscriptStdcolNull : UInt8 := 0x01
def spanglobSubEscape : UInt8 := 0x02
def subscriptZero : UInt8 := 0x80
def subscriptBias : Nat := 0xBE
def negMntssaEnd : UInt8 := 0xFF
def maxGvkeyPaddingLen : Nat := 26
def largeExp : Int := 10000
def spanBlkidBase : Nat := 255

/-- A `gv_key`: `base` holds the bytes below `end`, behind which a second `KEY_DELIMITER` stands; `prev` is the offset of the
last subscript and `top` the size of the buffer. -/
structure GvKey where
  base : List UInt8
  prev : Nat
  top : Nat
deriving DecidableEq, Repr

/-- The offset `end` of a key: that of its second `KEY_DELIMITER`. -/
def GvKey.kend (k : GvKey) : Nat := k.base.length

inductive SubscErr where
  | gvsuboflow
  | numoflow
deriving DecidableEq, Repr

/-- The collation in force for a global: `TREF(transform)`, `gv_target->nct` and the `XFORM`/`XBACK` routines of
`gv_target->collseq`. -/
structure Collation where
  transform : Bool := false
  nct : Bool := false
  collseq : Option ((List UInt8 → List UInt8) × (List UInt8 → List UInt8)) := none

/-- No alternative collation applies. -/
def Collation.Plain (coll : Collation) : Prop := coll.transform = false ∨ (coll.nct = false ∧ coll.collseq = none)

/-! ## `mval2subsc` -/

/-- `pos_code[d]`. -/
def posCode (d : Nat) : UInt8 := UInt8.ofNat (16 * (d / 10) + d % 10 + 1)

/-- `neg_code[d]`. -/
def negCode (d : Nat) : UInt8 := UInt8.ofNat (0xfe - 16 * (d / 10) - d % 10)

/-- `cvt_table`. -/
def cvtTable (neg : Bool) : Nat → UInt8 := if neg then negCode else posCode

/-- The exponent byte, complemented in a negative number. -/
def expByte (neg : Bool) (exp : Nat) : UInt8 := if neg then ~~~(UInt8.ofNat exp) else UInt8.ofNat exp

/-- The bytes of a string, with 0 and 1 escaped; `none` when the escapes use up the room left in the key. -/
def escapeStr : List UInt8 → Int → Option (List UInt8)
  | [], _ => some []
  | ch :: s, avail =>
    if ch ≤ 1 then
      if avail - 1 < 0 then none else (escapeStr s (avail - 1)).map (strSubEscape :: (ch + 1) :: ·)
    else (escapeStr s avail).map (ch :: ·)

/-- `FINISH_INTEGERS`: the remaining pairs of digits, pushed from the right; `fuel` is the room in `temp_mantissa`. -/
def finishIntegers : Nat → Nat → List Nat → List Nat
  | 0, _, tm => tm
  | fuel + 1, mt, tm => if mt ≠ 0 then finishIntegers fuel (mt / 100) (mt % 100 :: tm) else tm

/-- `KEEP_STRIPING`: trailing pairs of zeros are dropped, the last other pair is pushed. -/
def keepStriping : Nat → Nat → List Nat
  | 0, _ => []
  | fuel + 1, mt =>
    if mt ≠ 0 then
      if mt % 100 ≠ 0 then finishIntegers fuel (mt / 100) [mt % 100] else keepStriping fuel (mt / 100)
    else []

/-- The size of `temp_mantissa`. -/
def tempMantissaSz : Nat := numDecDg2l / 2 + 3

/-- `ODD_INTEGER`: the last digit is the high half of a pair. -/
def oddInteger (mt : Nat) : List Nat :=
  if mt % 10 ≠ 0 then finishIntegers tempMantissaSz (mt / 10) [mt % 10 * 10] else keepStriping tempMantissaSz (mt / 10)

/-- The biased exponent and the digit pairs of a non-zero `MV_INT` magnitude. -/
def intDigits (mt : Nat) : Nat × List Nat :=
  if mt < 10 then (subscriptBias - 2, [mt * 10])
  else if mt < 100 then (subscriptBias - 1, [mt])
  else if mt < 1000 then (subscriptBias, oddInteger mt)
  else if mt < 10000 then (subscriptBias + 1, keepStriping tempMantissaSz mt)
  else if mt < 100000 then (subscriptBias + 2, oddInteger mt)
  else if mt < 1000000 then (subscriptBias + 3, keepStriping tempMantissaSz mt)
  else if mt < 10000000 then (subscriptBias + 4, oddInteger mt)
  else if mt < 100000000 then (subscriptBias + 5, keepStriping tempMantissaSz mt)
  else (subscriptBias + 6, oddInteger mt)

/-- The top pair of digits of a word, and the word without it. -/
def topPair (mt : Nat) : Nat × Nat := (mt / (mantHi / 100), (mt - mt / (mantHi / 100) * (mantHi / 100)) * 100)

/-- `LAST_LONGWORD`: pairs of digits until the word is zero, which takes at most five of them. -/
def lastLongword : Nat → Nat → List Nat
  | 0, _ => []
  | fuel + 1, mt => if mt ≠ 0 then (topPair mt).1 :: lastLongword fuel (topPair mt).2 else []

/-- The loop that strips `n` pairs of digits from a word. -/
def stripPairs : Nat → Nat → List Nat
  | 0, _ => []
  | n + 1, mt => (topPair mt).1 :: stripPairs n (topPair mt).2

/-- The digit pairs of an 18 digit mantissa. -/
def approxDigits (m1 m0 : Nat) : List Nat :=
  let (mx, mt) := topPair m1
  if m0 = 0 then mx :: lastLongword 5 mt
  else
    let d := m0 / (mantHi / 10)
    let mt := mt + d * 10
    let mw := (m0 - d * (mantHi / 10)) * 10
    if mw = 0 then mx :: lastLongword 5 mt
    else mx :: (stripPairs 4 mt ++ lastLongword 5 mw)

/-- The bytes of a number: the exponent, the digit pairs and, in a negative number, a terminator. -/
def numberBytes (neg : Bool) (exp : Nat) (ds : List Nat) : List UInt8 :=
  expByte neg exp :: ds.map (cvtTable neg) ++ if neg then [negMntssaEnd] else []

/-- The subscript bytes of a number. -/
def numSubsc (v : Mval) : List UInt8 :=
  if v.mvtype.int then
    if v.m1 = 0 then [subscriptZero]
    else numberBytes (v.m1 < 0) (intDigits v.m1.natAbs).1 (intDigits v.m1.natAbs).2
  else numberBytes v.sgn (v.e + subscriptBias - mvXbias) (approxDigits v.m1.toNat v.m0.toNat)

/-- The subscript bytes of a string; `none` when it does not fit in the room of the key. -/
def strSubsc (s : List UInt8) (k : GvKey) (stdNullColl : Bool) : Option (List UInt8) :=
  let avail : Int := k.top - (k.kend + s.length + 3)
  if avail < 0 then none
  else if 0 < s.length then (escapeStr s avail).map (strSubPrefix :: ·)
  else some [if stdNullColl then subscriptStdcolNull else strSubPrefix]

/-- The mval as `mval2subsc` sees it: under numeric collation it is a string, otherwise a canonic numeric string becomes a
number and any other string is marked as one. -/
def subscMval (coll : Collation) (v : Mval) : Except NumErr Mval :=
  if coll.transform ∧ coll.nct then
    let v := mvForceStr v
    .ok { v with mvtype := { v.mvtype with numApprox := true } }
  else if v.mvtype.nm ∨ v.mvtype.numApprox then .ok v
  else if valIscan v then (s2n v).map (·.mval)
  else .ok { v with mvtype := { v.mvtype with numApprox := true } }

/-- The string `mval2subsc` encodes, after the collation transformation. -/
def xformStr (coll : Collation) (s : List UInt8) : List UInt8 :=
  if coll.transform then (coll.collseq.map fun c => c.1 s).getD s else s

/-- `mval2subsc`: the key with the subscript appended (the mval itself becomes `subscMval coll v`). -/
def mval2subsc (coll : Collation) (v : Mval) (k : GvKey) (stdNullColl : Bool) : Except SubscErr GvKey :=
  match subscMval coll v with
  | .error .numoflow => .error .numoflow
  | .ok v =>
    match if v.mvtype.numApprox then strSubsc (xformStr coll v.str) k stdNullColl else some (numSubsc v) with
    | none => .error .gvsuboflow
    | some bytes =>
      let base := k.base ++ bytes ++ [keyDelimiter]
      if (maxGvkeyPaddingLen : Int) + 1 > k.top - base.length then .error .gvsuboflow
      else .ok { k with base := base, prev := k.kend }

/-- A key with a list of subscripts appended one after the other. -/
def appendSubscs (coll : Collation) (vs : List Mval) (k : GvKey) (stdNullColl : Bool) : Except SubscErr GvKey :=
  vs.foldlM (fun k v => mval2subsc coll v k stdNullColl) k

/-! ## `gvsub2str` -/

/-- The two characters `dpos` holds for the code of a digit pair. -/
def dposChars (ch : UInt8) : List UInt8 :=
  let i := ch.toNat - 1
  [digitChar (i / 16), if i % 16 < 10 then digitChar (i % 16) else 0x2a]

/-- The two characters `dneg` holds for the code of a digit pair. -/
def dnegChars (ch : UInt8) : List UInt8 :=
  let h := ch.toNat / 16
  let l := ch.toNat % 16
  if h < 6 then [digitChar h, 0x2b]
  else [digitChar (15 - h), if 5 ≤ l ∧ l < 15 then digitChar (14 - l) else 0x2a]

/-- The string behind a string prefix up to the delimiter, with the escaped bytes demoted. -/
def unescapeStr : List UInt8 → List UInt8
  | [] => []
  | ch :: sub =>
    if ch = 0 then []
    else if ch = strSubEscape then
      match sub with
      | [] => []
      | ch' :: sub => (ch' - 1) :: unescapeStr sub
    else ch :: unescapeStr sub

/-- The digit loop: two characters for each code, with the decimal point where `expon` runs out. -/
def digitLoop (neg : Bool) (trailCh : UInt8) (len : Nat) : List UInt8 → Int → List UInt8 → Int × List UInt8
  | [], expon, targ => (expon, targ)
  | ch :: sub, expon, targ =>
    if ch ≠ 0 ∧ ch ≠ trailCh ∧ targ.length < len then
      let pair := if neg then dnegChars ch else dposChars ch
      let expon := expon - 2
      if expon ≤ 0 then
        if expon ≠ 0 then digitLoop neg trailCh len sub largeExp (targ ++ ascDot :: pair)
        else digitLoop neg trailCh len sub largeExp (targ ++ pair.take 1 ++ ascDot :: pair.drop 1)
      else digitLoop neg trailCh len sub expon (targ ++ pair)
    else (expon, targ)

/-- The zeros behind the decimal point of a fraction: one, then more while the count and the buffer last. -/
def fractionZeros (len : Nat) : Nat → List UInt8 → List UInt8
  | 0, targ => targ ++ [ascZero]
  | n + 1, targ => if (targ ++ [ascZero]).length < len then fractionZeros len n (targ ++ [ascZero]) else targ ++ [ascZero]

/-- The zeros behind the digits of an integer. -/
def integerZeros (len : Nat) : Nat → List UInt8 → List UInt8
  | 0, targ => targ
  | n + 1, targ => if targ.length < len then integerZeros len n (targ ++ [ascZero]) else targ

/-- The end of the number: behind a decimal point one zero and then the point itself are dropped, otherwise zeros are filled
in. -/
def finishDigits (len : Nat) (expon : Int) (targ : List UInt8) : List UInt8 :=
  if largeExp - 100 < expon then
    let targ := if targ.getLast? = some ascZero then targ.dropLast else targ
    if targ.getLast? = some ascDot then targ.dropLast else targ
  else integerZeros len (expon - 1).toNat targ

/-- The exponent of a number from its byte: `ch - (SUBSCRIPT_BIAS - 1)` read as a signed char. -/
def unbiasExp (ch : UInt8) : Int := (ch - UInt8.ofNat (subscriptBias - 1)).toInt8.toInt

/-- The characters of a number other than zero: `ch` is the exponent byte, `sub` what follows it. -/
def numberStr (ch : UInt8) (sub : List UInt8) (len : Nat) : List UInt8 :=
  let neg : Bool := ch < 0x80 ∧ 0 < len
  let targ := if neg then [ascMinus] else []
  let expon := unbiasExp (if neg then ~~~ch else ch)
  let (expon, targ) : Int × List UInt8 :=
    if expon ≤ 0 then (largeExp, fractionZeros len expon.natAbs (targ ++ [ascDot])) else (expon, targ)
  let (expon, targ) := digitLoop neg (if neg then negMntssaEnd else keyDelimiter) len sub expon targ
  finishDigits len expon targ

/-- The decimal digits of a spanning node number, from the right. -/
def spanDigits : Nat → Nat → List UInt8 → List UInt8
  | 0, _, out => out
  | fuel + 1, num, out => if num > 0 then spanDigits fuel (num / 10) (digitChar (num % 10) :: out) else out

/-- The display form of a hidden spanning node subscript. -/
def spanStr (sub : List UInt8) (len : Nat) : List UInt8 :=
  let num := ((sub.getD 0 0).toNat - 1) * spanBlkidBase + ((sub.getD 1 0).toNat - 1) + 1
  let targ := [0x23, 0x53, 0x50, 0x41, 0x4e] ++ (spanDigits maxDigitsInInt num []).take (len - 5)
  if sub.getD 2 0 ≠ 0 then targ ++ [0x2a] else targ

/-- `gvsub2str`: the string of the subscript at the start of `sub`; `xlate` is the translation to ZWRITE format where
`xlat_flg` asks for it and `len` the size of the target. -/
def gvsub2str (coll : Collation) (sub : List UInt8) (len : Nat) (xlate : Option (List UInt8 → List UInt8)) :
    Except SubscErr (List UInt8) :=
  match sub with
  | [] => .ok []
  | ch :: sub =>
    if ch = strSubPrefix ∨ (ch = subscriptStdcolNull ∧ sub.head? = some keyDelimiter) then
      let s := unescapeStr sub
      match if coll.transform then coll.collseq else none with
      | some c => if (c.2 s).length > len then .error .gvsuboflow else .ok ((xlate.map (· (c.2 s))).getD (c.2 s))
      | none => .ok ((xlate.map (· s)).getD s)
    else if ch = subscriptZero then .ok [ascZero]
    else if ch = spanglobSubEscape then .ok (spanStr sub len)
    else .ok (numberStr ch sub len)

end Gtm
