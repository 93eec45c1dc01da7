import Gtm.Key.Subscript
import Gtm.Lib.SortedMap

/-!
# The plain operations of a global

The tree of a global is a sorted map from keys, with their two final delimiters, to values. Here are the operations on it that
`gvcst_put2`, `gvcst_get2`, `gvcst_kill2`, `gvcst_order2`, `gvcst_query2`, `gvcst_data2` and `gvcst_dataget2` are, each with the
dummy value of a spanning node it looks at.
-/

namespace Gtm

open SortedMap LexOrder

/-- The records of a global, in key order. -/
abbrev Store := List (List UInt8 × List UInt8)

/-- The bytes of a key, with the second delimiter. -/
def GvKey.bytes (k : GvKey) : List UInt8 := k.base ++ [keyDelimiter]

/-- How many bytes two keys have in common from their start. -/
def matchLen : List UInt8 → List UInt8 → Nat
  | a :: as, b :: bs => if a = b then matchLen as bs + 1 else 0
  | _, _ => 0

/-- `IS_SN_DUMMY`: the value may be the primary node of a spanning node. -/
def isSnDummy (v : List UInt8) : Bool := v == [0]

/-- The record of the current key holds a dummy value. -/
def holdsDummy (m : Store) (k : GvKey) : Bool := (lookup k.bytes m).any isSnDummy

/-- `gvcst_get2`. -/
def gvcstGet2 (m : Store) (k : GvKey) : Option (List UInt8) := lookup k.bytes m

/-- `gvcst_put2`: without `span_status` it backs out of a record with a dummy value and sets `span_status`. -/
def gvcstPut2 (m : Store) (k : GvKey) (val : List UInt8) (spanStatus : Bool) : Store × Bool :=
  if spanStatus = false ∧ holdsDummy m k = true then (m, true) else (insert k.bytes val m, spanStatus)

/-- The right end of the range `gvcst_kill2` removes. -/
def killAltkey (k : GvKey) (doSubtree killingChunks : Bool) : List UInt8 :=
  if doSubtree then k.base.take (k.kend - 1) ++ [1, keyDelimiter, keyDelimiter]
  else if killingChunks then k.base.take (k.kend - 3) ++ [0xFF, 0xFF, keyDelimiter, keyDelimiter]
  else k.base ++ [1, keyDelimiter, keyDelimiter]

/-- `gvcst_kill2`, and whether it reports a dummy value where `checkSpan` asks for it; outside TP it then backs out. -/
def gvcstKill2 (inTp : Bool) (m : Store) (k : GvKey) (doSubtree checkSpan killingChunks : Bool) : Store × Bool :=
  let killed := remove (fun x => decide (k.bytes ≤ x) && decide (x < killAltkey k doSubtree killingChunks)) m
  if doSubtree = false ∧ checkSpan = true ∧ holdsDummy m k = true then (if inTp then killed else m, true) else (killed, false)

/-- The beginning of a record's key up to the first delimiter from offset `n` on. -/
def truncAfter (x : List UInt8) (n : Nat) : List UInt8 :=
  x.take n ++ (x.drop n).takeWhile (· ≠ keyDelimiter) ++ [keyDelimiter]

/-- `gvcst_order2`: whether the next record has the subscripts of the key but the last, and its key up to that level in
`gv_altkey`. -/
def gvcstOrder2 (m : Store) (currkey altkey : GvKey) : Bool × GvKey :=
  match next currkey.bytes m with
  | none => (false, altkey)
  | some (x, _) =>
    (currkey.prev ≤ matchLen currkey.bytes x, { altkey with base := truncAfter x (matchLen currkey.bytes x) })

/-- `gvcst_query2`: the key of the next record in `gv_altkey`. -/
def gvcstQuery2 (m : Store) (currkey altkey : GvKey) : Bool × GvKey :=
  match next currkey.bytes m with
  | none => (false, altkey)
  | some (x, _) => (true, { altkey with base := x.dropLast })

/-- The existence code of a key: 1 for a record of its own, 10 for a record behind it with all but the last `delta` of the bytes
below `end`. -/
def dollarData (m : Store) (k : GvKey) (delta : Nat) : Nat :=
  (if (lookup k.bytes m).isSome then 1 else 0) +
    match after k.bytes m with
    | none => 0
    | some (x, _) => if k.kend ≤ matchLen k.bytes x + delta then 10 else 0

/-- `gvcst_data2`. -/
def gvcstData2 (m : Store) (k : GvKey) : Int := if holdsDummy m k then -1 else dollarData m k 0

/-- What `gvcst_dataget2` is asked for. -/
inductive DgInfo where
  | getOnly
  | dataOnly
  | dataGet
  | getSnData
deriving DecidableEq, Repr

/-- `gvcst_dataget2`: the existence code and the value. -/
def gvcstDataget2 (m : Store) (k : GvKey) (info : DgInfo) : Nat × List UInt8 :=
  let dlrData := dollarData m k (if info = .getSnData then 4 else 0)
  (if info = .getOnly then dlrData % 10 else dlrData, if info = .dataOnly then [] else (lookup k.bytes m).getD [])

end Gtm
