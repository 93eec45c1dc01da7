import Gtm.Str.PieceDiff

/-!
# The piece cache

`op_fnzp1` finds a piece of a string by a delimiter of one byte. Where the pieces start that it has passed is kept in a cache, from which
the next call for the string goes on (`op_fnzp1.c`). `op_setzp1` replaces a piece: it finds the place with `op_fnzp1`, searches on its own
behind the last piece that the cache can hold, and hands what is known of the pieces in front of the place to the new string
(`op_setzp1.c`). `op_fnzpiece` and `op_setzpiece` are for any delimiter and for ranges of pieces; they use no cache, but call the other
two where these can do the work (`op_fnzpiece.c`, `op_setzpiece.c`).

Strings are ranges of a memory which only grows, but for garbage collections, which clear the cache.
-/

namespace Gtm

namespace ZPiece

open StrPiece

/-- `FNPC_MAX`. -/
def fnpcMax : Nat := 50

/-- `FNPC_ELEM_MAX`. -/
def fnpcElemMax : Nat := 81

/-- `MAX_STRLEN`. -/
def maxStrlen : Nat := 1048576

/-! ## Strings -/

/-- `mstr`: where a string starts, and its length. -/
structure Mstr where
  addr : Nat
  len : Nat
deriving DecidableEq

/-- An `mval` that is a string: the string, and the number of its element of the cache, from 1 on. A copied or new `mval` can have any
number. -/
structure StrMval where
  str : Mstr
  fnpcIndx : Nat

/-- `fnpc`: the string and the delimiter it is for, how many pieces have been passed, whether they have been counted in bytes, and where
each starts. -/
structure Fnpc where
  lastStr : Mstr
  delim : UInt32
  npcs : Nat
  byteOriented : Bool
  pstart : Nat → Nat

/-- The memory of the strings, up to `stringpool.free`, the elements of the cache, and `fnpcsteal`. -/
structure PieceSt where
  mem : List UInt8
  fnpcs : Nat → Fnpc
  fnpcsteal : Nat

/-- An assignment to an element of an array. -/
def setElem {α : Type} (a : Nat → α) (i : Nat) (v : α) : Nat → α := fun j => if j = i then v else a j

namespace PieceSt

variable (st : PieceSt)

/-- The bytes of a string. -/
def str (m : Mstr) : List UInt8 := (st.mem.drop m.addr).take m.len

/-- An assignment to an element of the cache. -/
def setFnpc (i : Nat) (c : Fnpc) : PieceSt := { st with fnpcs := setElem st.fnpcs i c }

/-- The next element of the cache to be taken for a string. -/
def steal : Nat × PieceSt :=
  let i := if fnpcMax - 1 < st.fnpcsteal then 0 else st.fnpcsteal
  (i, { st with fnpcsteal := i + 1 })

/-- The next one that is not the element `pfnpc`. -/
def stealOther (pfnpc : Nat) : Nat × PieceSt :=
  let (i, st) := st.steal
  if i = pfnpc then st.steal else (i, st)

end PieceSt

/-! ## One piece -/

/-- The test for a valid element: the index, the string and the delimiter. The index 0 gives none. -/
def fnpcValid (st : PieceSt) (src : StrMval) (delim : UInt32) : Bool :=
  let c := st.fnpcs (src.fnpcIndx - 1)
  src.fnpcIndx ≠ 0 ∧ src.fnpcIndx - 1 < fnpcMax ∧ c.lastStr.addr = src.str.addr ∧ c.lastStr.len = src.str.len ∧ c.delim = delim ∧
    c.byteOriented

/-- The scan: the number of the current piece, where it starts, the place behind its delimiter, and the next element of `pstart`. -/
structure Scan where
  cpcidx : Nat
  first : Nat
  last : Nat
  pcoff : Nat
  pstart : Nat → Nat

/-- Once through the loop: to the end of a piece. -/
def scanPiece (dlmc : UInt8) (s : List UInt8) (sc : Scan) : Scan :=
  let first := sc.last
  let last := sc.last + (s.drop sc.last).findIdx (· == dlmc) + 1
  let sc := if sc.pcoff < fnpcElemMax then { sc with pstart := setElem sc.pstart sc.pcoff first, pcoff := sc.pcoff + 1 } else sc
  let sc := if sc.pcoff = fnpcElemMax then { sc with pstart := setElem sc.pstart sc.pcoff last, pcoff := sc.pcoff + 1 } else sc
  { sc with cpcidx := sc.cpcidx + 1, first := first, last := last }

/-- The loop, for so many more pieces at most. -/
def scanLoop (dlmc : UInt8) (s : List UInt8) : Nat → Scan → Scan
  | 0, sc => sc
  | n + 1, sc => if sc.last < s.length then scanLoop dlmc s n (scanPiece dlmc s sc) else sc

/-- What `op_fnzp1` leaves: the state, the source, whose index can have been changed, and the destination. -/
structure FnzOut where
  st : PieceSt
  src : StrMval
  dst : StrMval

/-- The search with element `i` of the cache, from `sc` on. -/
def fnzp1Scan (st : PieceSt) (src : StrMval) (i : Nat) (dlmc : UInt8) (trgpcidx : Nat) (sc : Scan) (ldst : StrMval) : FnzOut :=
  let s := st.str src.str
  let c := st.fnpcs i
  let spcidx := sc.cpcidx
  let sc := scanLoop dlmc s (trgpcidx + 1 - sc.cpcidx) sc
  if spcidx ≠ sc.cpcidx then
    let pstart := if sc.pcoff < fnpcElemMax then setElem sc.pstart sc.pcoff sc.last else sc.pstart
    let c := { c with pstart := pstart, npcs := min (c.npcs + sc.cpcidx - spcidx) fnpcElemMax }
    let len := if trgpcidx < sc.cpcidx then sc.last - 1 - sc.first else 0
    ⟨st.setFnpc i c, src, { ldst with str := ⟨src.str.addr + sc.first, len⟩ }⟩
  else ⟨st, src, { ldst with str := ⟨src.str.addr + sc.first, 0⟩ }⟩

/-- `op_fnzp1`. What `ldst` has besides the string is not initialised. -/
def opFnzp1 (st : PieceSt) (src : StrMval) (delim : UInt32) (trgpcidx : Int) (ldst : StrMval) : FnzOut :=
  let dlmc := delim.toUInt8
  if trgpcidx ≤ 0 ∨ src.str.len = 0 then ⟨st, src, { ldst with str := ⟨src.str.addr, 0⟩ }⟩
  else
    let trg := trgpcidx.toNat
    if fnpcValid st src delim then
      let i := src.fnpcIndx - 1
      let c := st.fnpcs i
      if trg ≤ c.npcs then
        ⟨st, src, { ldst with str := ⟨src.str.addr + c.pstart (trg - 1), c.pstart trg - c.pstart (trg - 1) - 1⟩ }⟩
      else
        let pcoff := if c.npcs = fnpcElemMax then c.npcs + 1 else c.npcs
        fnzp1Scan st src i dlmc trg ⟨c.npcs + 1, c.pstart c.npcs, c.pstart c.npcs, pcoff, c.pstart⟩ ldst
    else
      let (i, st) := st.steal
      let c := { st.fnpcs i with lastStr := src.str, delim := delim, npcs := 0, byteOriented := true }
      fnzp1Scan (st.setFnpc i c) { src with fnpcIndx := i + 1 } i dlmc trg ⟨1, 0, 0, 0, c.pstart⟩ ldst

/-! ## Room for a string -/

/-- A garbage collection: the memory behind it, and where a string has been moved. -/
structure Gcol where
  mem : List UInt8
  moved : Mstr → Nat

namespace PieceSt

variable (st : PieceSt)

/-- A garbage collection clears the cache. -/
def gcol (g : Gcol) : PieceSt :=
  { st with mem := g.mem, fnpcs := fun i => { st.fnpcs i with lastStr := ⟨0, 0⟩, delim := 0 } }

/-- `ENSURE_STP_FREE_SPACE`, with a garbage collection or without one. -/
def ensureStpFreeSpace (g : Option Gcol) : PieceSt :=
  match g with
  | none => st
  | some g => st.gcol g

/-- Bytes at `stringpool.free`. -/
def push (bytes : List UInt8) : PieceSt := { st with mem := st.mem ++ bytes }

end PieceSt

/-- Where a string is after `ENSURE_STP_FREE_SPACE`. -/
def Mstr.moved (m : Mstr) (g : Option Gcol) : Mstr :=
  match g with
  | none => m
  | some g => { m with addr := g.moved m }

/-- The error that is raised. -/
inductive PieceErr where
  | maxstrlen

/-- What a set leaves: the state, and the destination. -/
structure SetOut where
  st : PieceSt
  dst : Except PieceErr StrMval

/-! ## Setting one piece -/

/-- How the new string is made: a prefix of the source, delimiters, the expression, and a suffix of the source; and how many pieces of
the source the cache can have for the new string too. -/
structure SetPlan where
  pfxStrLen : Nat
  delimCnt : Nat
  sfxStartOffset : Nat
  sfxStrLen : Nat
  cpyCacheLines : Nat

/-- The search behind the cache: the ends of the prefix and of the piece, the last byte read, and how many delimiters are missing. -/
structure SfxScan where
  endPfx : Nat
  startSfx : Nat
  lc : UInt8
  delimCnt : Nat

/-- The loop of the search, which is entered with a delimiter missing. -/
def sfxLoop (ldelimc : UInt8) (s : List UInt8) : Nat → SfxScan → SfxScan
  | 0, sc => sc
  | delimCnt + 1, sc =>
    let stop := sc.startSfx + (s.drop sc.startSfx).findIdx (· == ldelimc)
    let lc := s.getD (if stop < s.length then stop else s.length - 1) 0
    let sc : SfxScan := ⟨sc.startSfx, stop + 1, lc, delimCnt⟩
    if sc.startSfx < s.length then sfxLoop ldelimc s delimCnt sc else sc

/-- The search behind the cache, from `pfxScanOffset` on. -/
def sfxScan (ldelimc : UInt8) (s : List UInt8) (pfxScanOffset delimCnt : Nat) : SfxScan :=
  let sc : SfxScan := ⟨pfxScanOffset, pfxScanOffset, 0, delimCnt⟩
  if 0 < delimCnt ∧ sc.startSfx < s.length then
    let sc := sfxLoop ldelimc s delimCnt sc
    let sc :=
      if sc.delimCnt = 0 ∨ sc.startSfx < s.length ∨ sc.lc ≠ ldelimc then { sc with startSfx := sc.startSfx - 1 } else sc
    if s.length ≤ sc.startSfx ∧ 0 < sc.delimCnt then
      { sc with endPfx := sc.startSfx, delimCnt := if sc.lc = ldelimc then sc.delimCnt - 1 else sc.delimCnt }
    else sc
  else { sc with delimCnt := sc.delimCnt - 1 }

/-- The plan, from the element of the cache that `op_fnzp1` has left. -/
def setPlan (c : Fnpc) (ldelimc : UInt8) (s : List UInt8) (ind : Nat) : SetPlan :=
  if ind ≤ fnpcElemMax ∧ ind ≤ c.npcs then
    let pfxStrLen := c.pstart (ind - 1)
    let repStrLen := c.pstart ind - c.pstart (ind - 1) - 1
    ⟨pfxStrLen, 0, c.pstart ind - 1, s.length - pfxStrLen - repStrLen, ind - 1⟩
  else if ind ≤ fnpcElemMax ∨ c.npcs < fnpcElemMax then ⟨c.pstart c.npcs - 1, ind - c.npcs, 0, 0, c.npcs⟩
  else if c.pstart fnpcElemMax < s.length then
    let sc := sfxScan ldelimc s (c.pstart fnpcElemMax) (ind - fnpcElemMax)
    ⟨sc.endPfx, sc.delimCnt, sc.startSfx, s.length - sc.startSfx, fnpcElemMax⟩
  else ⟨c.pstart fnpcElemMax - 1, ind - fnpcElemMax, 0, 0, fnpcElemMax⟩

/-- The new string. -/
def SetPlan.build (p : SetPlan) (ldelimc : UInt8) (s expr : List UInt8) : List UInt8 :=
  s.take p.pfxStrLen ++ (List.replicate p.delimCnt ldelimc ++ (expr ++ (s.drop p.sfxStartOffset).take p.sfxStrLen))

/-- The element of the cache for the new string, from element `pfnpc`. -/
def copyCache (st : PieceSt) (pfnpc : Nat) (delim : UInt32) (cpyCacheLines : Nat) (dst : Mstr) : PieceSt × StrMval :=
  if 0 < cpyCacheLines then
    let (i, st) := st.stealOther pfnpc
    let c := st.fnpcs i
    let pstart := fun j => if j < cpyCacheLines + 1 then (st.fnpcs pfnpc).pstart j else c.pstart j
    (st.setFnpc i ⟨dst, delim, cpyCacheLines, true, pstart⟩, ⟨dst, i + 1⟩)
  else (st, ⟨dst, 255⟩)

/-- The part of `op_setzp1` that makes the string, where the cache has element `pfnpc` for the source. -/
def setzp1Build (st : PieceSt) (g : Option Gcol) (src expr : Mstr) (pfnpc : Nat) (delim : UInt32) (p : SetPlan) : SetOut :=
  let strLen := expr.len + p.pfxStrLen + p.delimCnt + p.sfxStrLen
  if maxStrlen < strLen then ⟨st, .error .maxstrlen⟩
  else
    let st := st.ensureStpFreeSpace g
    let bytes := p.build delim.toUInt8 (st.str (src.moved g)) (st.str (expr.moved g))
    let dst : Mstr := ⟨st.mem.length, bytes.length⟩
    let (st, dst) := copyCache (st.push bytes) pfnpc delim p.cpyCacheLines dst
    ⟨st, .ok dst⟩

/-- `op_setzp1`. An undefined source is `none`. -/
def opSetzp1 (st : PieceSt) (g : Option Gcol) (src : Option StrMval) (delim : UInt32) (expr : Mstr) (ind : Int) : SetOut :=
  match src with
  | none => setzp1Build st g ⟨0, 0⟩ expr 0 delim ⟨0, (ind - 1).toNat, 0, 0, 0⟩
  | some src =>
    if src.str.len = 0 then setzp1Build st g src.str expr 0 delim ⟨0, if 0 < ind then (ind - 1).toNat else 0, 0, 0, 0⟩
    else
      let out := opFnzp1 st src delim (min ind fnpcElemMax) src
      let pfnpc := out.src.fnpcIndx - 1
      setzp1Build out.st g src.str expr pfnpc delim (setPlan (out.st.fnpcs pfnpc) delim.toUInt8 (st.str src.str) ind.toNat)

/-! ## Any delimiter, and ranges -/

/-- The delimiter of one byte, as `op_fnzp1` takes it. -/
def unicharVal (b : UInt8) : UInt32 := b.toUInt32

/-- `op_fnzpiece`. -/
def opFnzpiece (st : PieceSt) (src : StrMval) (del : Mstr) (first last : Int) (dst : StrMval) : FnzOut :=
  let first := (first - 1).toNat
  let pieceCnt := last - first
  if pieceCnt < 1 then ⟨st, src, { dst with str := { dst.str with len := 0 } }⟩
  else
    let s := st.str src.str
    match st.str del, decide (pieceCnt = 1) with
    | [b], true => opFnzp1 st src (unicharVal b) last dst
    | d, _ =>
      let skipped : MatchOut := if first ≠ 0 then StrPiece.matchb d s first else ⟨s, 1, 0⟩
      if skipped.res = 0 then ⟨st, src, { dst with str := { dst.str with len := 0 } }⟩
      else
        let found := StrPiece.matchb d skipped.ptr pieceCnt.toNat
        let len := skipped.ptr.length - found.ptr.length - (if found.res ≠ 0 then d.length else 0)
        ⟨st, src, { dst with str := ⟨src.str.addr + (s.length - skipped.ptr.length), len⟩ }⟩

/-- `op_cat` of two strings. The first is not copied where it ends at `stringpool.free`. -/
def opCat (st : PieceSt) (g : Option Gcol) (src expr : Mstr) (dst : StrMval) : SetOut :=
  if maxStrlen < src.len + expr.len then ⟨st, .error .maxstrlen⟩
  else
    let st := st.ensureStpFreeSpace g
    let src := src.moved g
    let expr := expr.moved g
    if src.addr + src.len = st.mem.length then
      ⟨st.push (st.str expr), .ok { dst with str := ⟨src.addr, src.len + (st.str expr).length⟩ }⟩
    else
      let bytes := st.str src ++ st.str expr
      ⟨st.push bytes, .ok { dst with str := ⟨st.mem.length, bytes.length⟩ }⟩

/-- How `op_setzpiece` makes the new string: the prefix, the delimiters, and the place of the suffix, if there is one. -/
structure RangePlan where
  firstSrcInd : Nat
  delimCnt : Nat
  secondSrcInd : Option Nat

/-- The places in the source, for `first` pieces in front of the range and `cnt` in it. -/
def rangePlan (d s : List UInt8) (first cnt : Nat) : RangePlan :=
  let skipped : MatchOut := if first ≠ 0 then StrPiece.matchb d s first else ⟨s, 1, first⟩
  let firstSrcInd := s.length - skipped.ptr.length
  if skipped.res = 0 then ⟨firstSrcInd, skipped.numpcs, none⟩
  else
    let found := StrPiece.matchb d skipped.ptr cnt
    ⟨firstSrcInd, skipped.numpcs, if found.res = 0 then none else some (s.length - found.ptr.length - d.length)⟩

/-- The new string. -/
def RangePlan.build (p : RangePlan) (d s expr : List UInt8) : List UInt8 :=
  s.take p.firstSrcInd ++ ((List.replicate p.delimCnt d).flatten ++ (expr ++ p.secondSrcInd.elim [] s.drop))

/-- The part of `op_setzpiece` that makes the string. -/
def setzpieceBuild (st : PieceSt) (g : Option Gcol) (src del expr : Mstr) (p : RangePlan) (dst : StrMval) : SetOut :=
  let strLen := expr.len + (p.firstSrcInd + del.len * p.delimCnt) + p.secondSrcInd.elim 0 (src.len - ·)
  if maxStrlen < strLen then ⟨st, .error .maxstrlen⟩
  else
    let st := st.ensureStpFreeSpace g
    let bytes := p.build (st.str (del.moved g)) (st.str (src.moved g)) (st.str (expr.moved g))
    ⟨st.push bytes, .ok { dst with str := ⟨st.mem.length, bytes.length⟩ }⟩

/-- `op_setzpiece`. -/
def opSetzpiece (st : PieceSt) (g : Option Gcol) (src : Option StrMval) (del expr : Mstr) (first last : Int) (dst : StrMval) : SetOut :=
  let first := (first - 1).toNat
  match st.str del, src with
  | [], src =>
    match decide (first ≠ 0), src with
    | true, some src => opCat st g src.str expr dst
    | _, _ => ⟨st, .ok { dst with str := expr }⟩
  | _, none => setzpieceBuild st g ⟨0, 0⟩ del expr ⟨0, first, none⟩ dst
  | d, some src =>
    match d, decide (last - first = 1) with
    | [b], true => opSetzp1 st g (some src) (unicharVal b) expr last
    | d, _ => setzpieceBuild st g src.str del expr (rangePlan d (st.str src.str) first (last - first).toNat) dst

end ZPiece

end Gtm
