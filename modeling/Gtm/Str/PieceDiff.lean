import Gtm.Lib.Pieces

/-!
# The pieces two strings differ in

`matchb` finds a delimiter in a string, or one of several in turn (`matchc.c`). With it `strpiecediff` goes through two strings side by
side, past the pieces nobody asked for, and lists the numbers of the pieces that differ (`strpiecediff.c`). A place in a string is the
rest of the string from there on.
-/

namespace Gtm

namespace StrPiece

/-! ## Finding a delimiter -/

/-- The comparison of the string with the delimiter, at a place where its first byte is. -/
inductive DelimCmp where
  | found (src : List UInt8)
  | ends
  | lost

/-- Compare byte by byte, up to the end of the delimiter or of the string. -/
def compareDelim : List UInt8 → List UInt8 → DelimCmp
  | c :: pdel, a :: src =>
    if a = c then
      match pdel, src with
      | [], src => .found src
      | _ :: _, [] => .ends
      | pdel, src => compareDelim pdel src
    else .lost
  | _, _ => .lost

/-- What a search for delimiters returns: the place behind the last, `res`, zero if there are too few, and how many are missing. -/
structure MatchOut where
  ptr : List UInt8
  res : Nat
  numpcs : Nat

/-- The loop of `matchb` at a place of the string, of `srcLen` bytes in all. -/
def matchbLoop (del : List UInt8) (srcLen : Nat) : Nat → List UInt8 → Nat → MatchOut
  | 0, _, numpcs => ⟨[], 0, numpcs⟩
  | fuel + 1, src, numpcs =>
    match src.dropWhile fun a => some a != del.head? with
    | [] => ⟨[], 0, numpcs⟩
    | a :: src =>
      match compareDelim del (a :: src) with
      | .ends => ⟨[], 0, numpcs⟩
      | .found rest => if numpcs = 1 then ⟨rest, 1 + (srcLen - rest.length), 0⟩ else matchbLoop del srcLen fuel rest (numpcs - 1)
      | .lost => matchbLoop del srcLen fuel src numpcs

/-- `matchb`: the place behind the `numpcs`th delimiter. -/
def matchb (del src : List UInt8) (numpcs : Nat) : MatchOut :=
  if del = [] then ⟨src, 1, 0⟩
  else if src.length < del.length then ⟨[], 0, numpcs⟩
  else matchbLoop del src.length (src.length + 1) src numpcs

/-- `match_fnptr`. -/
abbrev MatchFn := List UInt8 → List UInt8 → Nat → MatchOut

/-! ## Two strings -/

/-- `gtm_num_range_t`. -/
structure NumRange where
  min : Nat
  max : Nat
deriving DecidableEq, Repr

/-- `MAXPOSINT4`. -/
def maxPosInt4 : Nat := 2147483647

/-- A string on the way: the rest, and whether its end has been seen. -/
structure PcScan where
  rest : List UInt8
  endSeen : Bool

/-- `SKIP_PIECES`. -/
def skipPieces (matchFn : MatchFn) (delim : List UInt8) (skippcs : Nat) (s : PcScan) : PcScan :=
  if s.rest.length ≠ 0 then
    let out := matchFn delim s.rest skippcs
    if out.res ≠ 0 then { s with rest := out.ptr } else ⟨[], true⟩
  else { s with endSeen := true }

/-- What `MATCH_CURPIECE` finds: whether there is a piece, its length and its end. -/
structure CurPiece where
  pieceExists : Bool
  matchLen : Nat
  ptrEnd : List UInt8

/-- `MATCH_CURPIECE`. -/
def matchCurpiece (matchFn : MatchFn) (delim : List UInt8) (s : PcScan) : PcScan × CurPiece :=
  if s.endSeen = false then
    let out := matchFn delim s.rest 1
    let matchLen := s.rest.length - out.ptr.length
    if out.res = 0 then ({ s with endSeen := true }, ⟨true, matchLen, out.ptr⟩) else (s, ⟨true, matchLen - delim.length, out.ptr⟩)
  else (s, ⟨false, 0, s.rest⟩)

/-- `UPDATE_PTR_LEN`. -/
def updatePtrLen (s : PcScan) (ptrEnd : List UInt8) : PcScan := if s.endSeen = false then { s with rest := ptrEnd } else s

/-- `I2A_INLINE`: the decimal digits. -/
def i2a (num : Nat) : List UInt8 := (Nat.toDigits 10 num).map fun c => UInt8.ofNat c.toNat

/-- The number of a piece goes behind those that are there. -/
def addPiece (pcdiff : List UInt8) (curpiece : Nat) : List UInt8 := pcdiff ++ (if pcdiff = [] then [] else [44]) ++ i2a curpiece

/-- The loop of `strpiecediff`. -/
def pieceDiffLoop (matchFn : MatchFn) (delim : List UInt8) :
    Nat → Nat → Nat → Nat → List NumRange → PcScan → PcScan → List UInt8 → Option (List UInt8)
  | 0, _, _, _, _, _, _, _ => none
  | fuel + 1, curpiece, nextmin, nextmax, piecearray, old, new, pcdiff =>
    if old.endSeen = true ∧ new.endSeen = true then some pcdiff
    else
      let skippcs := nextmin - curpiece
      let (old, new) :=
        if skippcs ≠ 0 then (skipPieces matchFn delim skippcs old, skipPieces matchFn delim skippcs new) else (old, new)
      if skippcs ≠ 0 ∧ old.endSeen = true ∧ new.endSeen = true then some pcdiff
      else
        let curpiece := nextmin
        let (old', o) := matchCurpiece matchFn delim old
        let (new', n) := matchCurpiece matchFn delim new
        if o.pieceExists = false ∧ n.pieceExists = false then some pcdiff
        else
          let pcdiff :=
            if o.pieceExists ≠ n.pieceExists ∨ o.matchLen ≠ n.matchLen ∨ old.rest.take o.matchLen ≠ new.rest.take o.matchLen then
              addPiece pcdiff curpiece
            else pcdiff
          let old := updatePtrLen old' o.ptrEnd
          let new := updatePtrLen new' n.ptrEnd
          if nextmin = nextmax then
            match piecearray with
            | [] => some pcdiff
            | r :: piecearray => pieceDiffLoop matchFn delim fuel (curpiece + 1) r.min r.max piecearray old new pcdiff
          else pieceDiffLoop matchFn delim fuel (curpiece + 1) (nextmin + 1) nextmax piecearray old new pcdiff

/-- `strpiecediff`, with the match function that `use_matchc` selects. -/
def strpiecediff (matchFn : MatchFn) (oldstr newstr delim : List UInt8) (piecearray : List NumRange) : Option (List UInt8) :=
  let fuel := oldstr.length + newstr.length + 3
  match piecearray with
  | [] => pieceDiffLoop matchFn delim fuel 1 1 maxPosInt4 [] ⟨oldstr, false⟩ ⟨newstr, false⟩ []
  | r :: piecearray => pieceDiffLoop matchFn delim fuel 1 r.min r.max piecearray ⟨oldstr, false⟩ ⟨newstr, false⟩ []

/-! ## What the list is -/

open Pieces

/-- A match function finds the delimiters one after the other, from the left. -/
def Matches (matchFn : MatchFn) (delim : List UInt8) : Prop :=
  ∀ src numpcs, 0 < numpcs →
    match skip delim numpcs src with
    | some rest => (matchFn delim src numpcs).ptr = rest ∧ (matchFn delim src numpcs).res ≠ 0
    | none => (matchFn delim src numpcs).ptr = [] ∧ (matchFn delim src numpcs).res = 0

/-- Ranges of piece numbers, ascending and disjoint, behind a number. -/
def Ascending : Nat → List NumRange → Prop
  | _, [] => True
  | n, r :: rs => n < r.min ∧ r.min ≤ r.max ∧ Ascending r.max rs

/-- A number is in the ranges; without ranges every number is. -/
def inRanges (piecearray : List NumRange) (n : Nat) : Bool := piecearray.isEmpty || piecearray.any fun r => decide (r.min ≤ n ∧ n ≤ r.max)

/-- The piece is in one of the strings only, or they have different pieces there. -/
def pieceDiffers (delim oldstr newstr : List UInt8) (n : Nat) : Bool :=
  decide ((pieces delim oldstr)[n - 1]? ≠ (pieces delim newstr)[n - 1]?)

/-- The numbers of the pieces in the ranges that differ, ascending. -/
def differing (delim oldstr newstr : List UInt8) (piecearray : List NumRange) : List Nat :=
  (List.range' 1 (max (pieces delim oldstr).length (pieces delim newstr).length)).filter fun n =>
    inRanges piecearray n && pieceDiffers delim oldstr newstr n

/-- A list of numbers with commas between them. -/
def commaList (l : List Nat) : List UInt8 := [44].intercalate (l.map i2a)

end StrPiece

end Gtm
