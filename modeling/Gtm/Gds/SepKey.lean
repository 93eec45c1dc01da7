import Gtm.Key.Subscript

/-!
# The key between the two halves of a split block

After a leaf block has been split, `gvcst_put2` derives the key for the record of the parent (`gvcst_put.c`): the last key of the left
side in `temp_key`, with one or two bytes changed where the first key of the right side differs from it. The right key stands in the
update array in two parts, `bs1[2]` and the beginning of `bs1[3]`. `none` is a restart of the transaction.
-/

namespace Gtm

/-- `STR_SUB_MAXVAL`. -/
def strSubMaxval : UInt8 := 0xFF

/-- A `gv_key` with its whole buffer; `kend` is `end`. -/
structure KeyBuf where
  base : Nat → UInt8
  kend : Nat
  top : Nat

/-- The bytes of the key, both final delimiters included. -/
def KeyBuf.bytes (k : KeyBuf) : List UInt8 := (List.range (k.kend + 1)).map k.base

/-- How many bytes of a part of the right key match, from `cp1` at `pos` on. -/
def segMatch (base : Nat → UInt8) : List UInt8 → Nat → Nat
  | [], _ => 0
  | c :: seg, pos => if c = base pos then segMatch base seg (pos + 1) + 1 else 0

/-- The first place where the keys differ, and what `cp2` sees there: the byte of the right key, the byte after it, and the one before
that, which is at the end of `before` when the other two stand in different parts. -/
structure SepDiff where
  pos : Nat
  cp2 : UInt8
  next : UInt8
  prev : UInt8
deriving DecidableEq

/-- The comparison of the keys, with `before` the byte in memory before `bs1[3].addr`. -/
def sepDiff (base : Nat → UInt8) (seg2 seg3 : List UInt8) (before : UInt8) : SepDiff :=
  let i := segMatch base seg2 0
  if i = seg2.length then
    let j := segMatch base seg3 i
    { pos := i + j, cp2 := seg3.getD j 0, next := seg3.getD (j + 1) 0, prev := seg3.getD j 0 }
  else if i + 1 = seg2.length then { pos := i, cp2 := seg2.getD i 0, next := seg3.getD 0 0, prev := before }
  else { pos := i, cp2 := seg2.getD i 0, next := seg2.getD (i + 1) 0, prev := seg2.getD i 0 }

/-- The two bytes at the difference, where the right key is larger by one there: the second one changes, and the first one with it when
the second one wraps around or came from the right key. -/
def sepPair (newRecGoesToRight : Bool) (base : Nat → UInt8) (d : SepDiff) : UInt8 × UInt8 :=
  if newRecGoesToRight then
    let oldCh := base (d.pos + 1)
    (if oldCh = strSubMaxval then d.prev else base d.pos, oldCh + 1)
  else
    let oldCh := d.next
    (if oldCh ≠ keyDelimiter then d.prev else base d.pos, oldCh - 1)

/-- The key with one or two new bytes at `pos` and two delimiters after them. -/
def KeyBuf.cut (k : KeyBuf) (pos : Nat) (new : List UInt8) : KeyBuf :=
  { k with
    base := fun i => if i < pos then k.base i else (new ++ [keyDelimiter, keyDelimiter]).getD (i - pos) (k.base i)
    kend := pos + new.length + 1 }

/-- The change of `temp_key`. -/
def sepBackoff (newRecGoesToRight : Bool) (maxKeySize : Nat) (k : KeyBuf) (d : SepDiff) : Option KeyBuf :=
  let n : Int := (d.cp2.toNat : Int) - (k.base d.pos).toNat
  if n < 0 then none
  else if 1 < n then
    if d.pos + 2 < k.top then
      some (k.cut d.pos [k.base d.pos + if newRecGoesToRight then 1 else UInt8.ofNat (n - 1).toNat])
    else none
  else if n = 1 then
    if d.pos + 3 < k.top then
      if (k.base d.pos ≠ keyDelimiter ∨ k.base (d.pos - 1) ≠ keyDelimiter) ∧
          (k.base (d.pos + 1) ≠ strSubMaxval ∨ d.next ≠ keyDelimiter) ∧ d.pos + 3 < maxKeySize then
        let (first, newCh) := sepPair newRecGoesToRight k.base d
        -- a second byte that is a delimiter is the first of the two at the end
        some (k.cut d.pos (if newCh = keyDelimiter then [first] else [first, newCh]))
      else some k
    else none
  else some k

/-- The key that goes to the parent: two delimiters must not be followed by a third. -/
def sepKey (newRecGoesToRight : Bool) (maxKeySize : Nat) (tempKey : KeyBuf) (seg2 seg3 : List UInt8) (before : UInt8) :
    Option KeyBuf :=
  (sepBackoff newRecGoesToRight maxKeySize tempKey (sepDiff tempKey.base seg2 seg3 before)).bind fun k =>
    if 2 ≤ k.kend ∧ k.base (k.kend - 2) = keyDelimiter then none else some k

end Gtm
