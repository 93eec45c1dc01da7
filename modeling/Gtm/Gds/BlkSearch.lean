import Gtm.Gds.Block

/-!
# The search of a block

`gvcst_search_blk` and `gvcst_search_tail` are one text, compiled four times: from the start of the block or from the position of
an earlier search, and with or without `gv_altkey` being set to the expanded key of the record before. The variants share the loop
here; the ones that expand carry the state of `gv_altkey`, the others none.

Keys are given by their bytes, with both final delimiters; `nTargLen` starts at `end + 1`, their number.
-/

namespace Gtm

/-- `srch_rec_status`: the offset of a record and how many bytes of its key match the search key. -/
structure SrchRec where
  offset : Nat
  mtch : Nat
deriving DecidableEq, Repr

/-- The part of `srch_blk_status` that a search fills in. -/
structure SrchStat where
  prevRec : SrchRec
  currRec : SrchRec
deriving DecidableEq, Repr

/-- What a search reads of the process: `TREF(expand_prev_key)`, the size of `gv_altkey`, and whether key buffers lie above the
block in memory. -/
structure SrchEnv where
  blkSize : Nat
  expandPrevKey : Bool
  altTop : Nat
  keyAbove : Bool

/-- A pointer of the expanding variants: into the block, or into the key the resumed search starts with. -/
inductive KeyPtr where
  | blk (off : Nat)
  | key (off : Nat)
deriving DecidableEq, Repr

/-- The byte `i` places behind a pointer. -/
def KeyPtr.byte (b : GdsBlk) (prevKey : List UInt8) : KeyPtr → Nat → UInt8
  | .blk off, i => b.byte (off + i)
  | .key off, i => prevKey.getD (off + i) 0

/-- The state of an expansion: how many bytes of the key are in `gv_altkey` (`prevKeyCmpLen`), and where the others are
(`prevKeyUnCmp`). -/
structure Altkey where
  base : List UInt8
  cmpLen : Nat
  unCmp : Option KeyPtr

/-- The expansion moves on to the record at `pRecBase` with compression count `nTmp`. -/
def expandStep (env : SrchEnv) (b : GdsBlk) (prevKey : List UInt8) (pRecBase nTmp : Nat) (x : Altkey) : Option Altkey :=
  let next := KeyPtr.blk (pRecBase + recHdrSize)
  if x.cmpLen < nTmp then
    match x.unCmp with
    | none => none
    | some p =>
      if env.altTop ≤ nTmp then none
      else
        some { base := x.base.take x.cmpLen ++ (List.range (nTmp - x.cmpLen)).map (p.byte b prevKey), cmpLen := nTmp,
               unCmp := some next }
  else some { x with cmpLen := nTmp, unCmp := some next }

/-- Whether the pointer, advanced by `i`, has reached the limit. -/
def KeyPtr.reaches (env : SrchEnv) (p : KeyPtr) (i : Nat) (pTop : KeyPtr) : Bool :=
  match p, pTop with
  | .blk off, .blk top => decide (top ≤ off + i)
  | .key off, .key top => decide (top ≤ off + i)
  | .key _, .blk _ => env.keyAbove
  | .blk _, .key _ => !env.keyAbove

/-- The scan for the two delimiters that end a key: how many bytes it has, both delimiters counted, unless a pointer reaches the
limit before. `fuel` bounds the bytes below the limit. -/
def scanDelims (env : SrchEnv) (b : GdsBlk) (prevKey : List UInt8) (pTop p : KeyPtr) : Nat → Nat → Option Nat
  | 0, _ => none
  | fuel + 1, i =>
    if p.reaches env i pTop then none
    else if p.byte b prevKey i = keyDelimiter ∧ p.byte b prevKey (i + 1) = keyDelimiter then some (i + 2)
    else scanDelims env b prevKey pTop p fuel (i + 1)

/-- The uncompressed bytes of the key are copied to `gv_altkey`. `pTop` already is one below the end of the buffer. -/
def expandFinish (env : SrchEnv) (b : GdsBlk) (prevKey : List UInt8) (pTop : KeyPtr) (fuel : Nat) (x : Altkey) :
    Option (List UInt8) :=
  match x.unCmp with
  | none => some []
  | some p =>
    match scanDelims env b prevKey pTop p fuel 0 with
    | none => none
    | some len =>
      if env.altTop < x.cmpLen + len then none
      else some (x.base.take x.cmpLen ++ (List.range len).map (p.byte b prevKey))

/-- The variables of the loop. -/
structure SrchVars where
  pRecBase : Nat
  nRecLen : Nat
  nTmp : Nat
  nMatchCnt : Nat
  nTargLen : Nat
  pCurrTarg : Nat
  pPrevRec : Nat
  alt : Option Altkey

/-- What one turn of the loop ends with. -/
inductive Turn where
  | fail (sc : BlkSc)
  | stop (v : SrchVars)
  | next (v : SrchVars)

/-- The comparison of the rest of the search key with the bytes of a record: the difference of the last bytes compared, the
position in the key and the bytes left of it. -/
def compareTarg (b : GdsBlk) (key : List UInt8) : Nat → Nat → Nat → Int × Nat × Nat
  | 0, pCurrTarg, _ => (0, pCurrTarg, 0)
  | nTargLen + 1, pCurrTarg, pRec =>
    let nFlg : Int := (key.getD pCurrTarg 0).toNat - (b.byte pRec).toNat
    if nFlg ≠ 0 then (nFlg, pCurrTarg, nTargLen + 1) else compareTarg b key nTargLen (pCurrTarg + 1) (pRec + 1)

/-- The record is a star-key record: level 0 has none. -/
def isStarRec (b : GdsBlk) (level0 : Bool) (nRecLen : Nat) : Bool := decide (bstarRecSize b.longBlkId = nRecLen) && !level0

/-- The loop body from `alt_loop_entry` on, where the compression count of the record is the match count. -/
def searchCompare (b : GdsBlk) (key : List UInt8) (level0 : Bool) (v : SrchVars) : Turn :=
  let (nFlg, pCurrTarg, nTargLen) := compareTarg b key v.nTargLen v.pCurrTarg (v.pRecBase + recHdrSize)
  if 0 < nFlg then .next { v with nMatchCnt := pCurrTarg, nTargLen := nTargLen, pCurrTarg := pCurrTarg }
  else .stop { v with nTargLen := if isStarRec b level0 v.nRecLen then 0 else pCurrTarg, pCurrTarg := pCurrTarg }

/-- One turn of the loop. The search from the middle of a block is for level 0 and has none of the text for star-key records. -/
def searchTurn (env : SrchEnv) (b : GdsBlk) (key prevKey : List UInt8) (level0 : Bool) (pTop : Nat) (v : SrchVars) : Turn :=
  let pRec := v.pRecBase + v.nRecLen
  let alt? := match v.alt with
    | none => some none
    | some x => if v.pRecBase = 0 then some (some x) else (expandStep env b prevKey v.pRecBase v.nTmp x).map some
  match alt? with
  | none => .fail .blkmod
  | some alt =>
    if pTop < pRec then .fail .blklenerr
    else if pRec = pTop then
      if level0 then .stop { v with nTargLen := 0, pPrevRec := v.pRecBase, pRecBase := pRec, alt := alt }
      else .stop { v with nTargLen := 0, nMatchCnt := 0, alt := alt }
    else if b.rsiz pRec = 0 then .fail .badoffset
    else
      let nTmp := b.evalCmpc pRec
      let v := { v with alt := alt, nRecLen := b.rsiz pRec, pPrevRec := v.pRecBase, pRecBase := pRec, nTmp := nTmp }
      if v.nMatchCnt < nTmp then .next v
      else if nTmp < v.nMatchCnt then .stop { v with nTargLen := if isStarRec b level0 v.nRecLen then 0 else nTmp }
      else searchCompare b key level0 v

/-- The loop. Every turn passes a record, so the size of the block bounds the turns. -/
def searchLoop (env : SrchEnv) (b : GdsBlk) (key prevKey : List UInt8) (level0 : Bool) (pTop : Nat) :
    Nat → Turn → Except BlkSc SrchVars
  | _, .fail sc => .error sc
  | _, .stop v => .ok v
  | 0, .next _ => .error .blklenerr
  | fuel + 1, .next v => searchLoop env b key prevKey level0 pTop fuel (searchTurn env b key prevKey level0 pTop v)

/-- What a search returns: its code, the positions and match counts, and `gv_altkey`, empty for `end` 0. -/
structure SrchOut where
  sc : BlkSc
  stat : SrchStat
  altkey : List UInt8
deriving DecidableEq, Repr

/-- The end of the search: `pStat` is filled in, then `gv_altkey` by the variants that expand. -/
def searchEnd (env : SrchEnv) (b : GdsBlk) (prevKey : List UInt8) (pTop : KeyPtr) (fuel : Nat) (stat : SrchStat)
    (altkey : List UInt8) : Except BlkSc SrchVars → SrchOut
  | .error sc => ⟨sc, stat, altkey⟩
  | .ok v =>
    let stat := ⟨⟨v.pPrevRec, v.nMatchCnt⟩, ⟨v.pRecBase, v.nTargLen⟩⟩
    match v.alt with
    | none => ⟨.normal, stat, altkey⟩
    | some x =>
      match expandFinish env b prevKey pTop fuel x with
      | none => ⟨.blkmod, stat, altkey⟩
      | some k => ⟨.normal, stat, k⟩

/-- The end of the block as the searches see it. -/
def srchTop (env : SrchEnv) (b : GdsBlk) : Nat := min b.bsiz env.blkSize

/-- `gvcst_search_blk`, which goes to `gvcst_search_blk_expand_prevkey` on level 0 where the key of the record before is wanted. -/
def gvcstSearchBlk (env : SrchEnv) (b : GdsBlk) (key : List UInt8) (stat : SrchStat) (altkey : List UInt8) : SrchOut :=
  let level0 := decide (b.levl = 0)
  let pTop := srchTop env b
  let start : SrchVars :=
    { pRecBase := 0, nRecLen := blkHdrSize, nTmp := 0, nMatchCnt := 0, nTargLen := key.length, pCurrTarg := 0, pPrevRec := 0,
      alt := if level0 && env.expandPrevKey then some ⟨[], 0, none⟩ else none }
  searchEnd env b [] (.blk (pTop - 1)) pTop stat altkey (searchLoop env b key [] level0 pTop (pTop + 1) (.next start))

/-- The loop of `gvcst_expand_key` over the records up to the one at `rtop`. -/
def expandKeyLoop (env : SrchEnv) (b : GdsBlk) (rtop : Nat) : Nat → Nat → Nat → Altkey → Except BlkSc Altkey
  | 0, _, _, _ => .error .rmisalign
  | fuel + 1, rp, rOffset, x =>
    if rOffset < recHdrSize then .error .r2small
    else if rtop < rp + rOffset then .error .rmisalign
    else
      match expandStep env b [] (rp + rOffset) (b.evalCmpc (rp + rOffset)) x with
      | none => .error .blkmod
      | some x => if rp + rOffset = rtop then .ok x else expandKeyLoop env b rtop fuel (rp + rOffset) (b.rsiz (rp + rOffset)) x

/-- The last checks on an expanded key: it does not start with a delimiter, and has a byte before the final two. -/
def expandedKey (k : List UInt8) : Except BlkSc (List UInt8) :=
  if k.head? = some keyDelimiter then .error .mkblk
  else if k.getD (k.length - 3) 0 = keyDelimiter then .error .mkblk
  else .ok k

/-- `gvcst_expand_key`. -/
def gvcstExpandKey (env : SrchEnv) (b : GdsBlk) (recTop : Nat) : Except BlkSc (List UInt8) :=
  match expandKeyLoop env b recTop (recTop + 1) 0 blkHdrSize ⟨[], 0, none⟩ with
  | .error sc => .error sc
  | .ok x =>
    match expandFinish env b [] (.blk (srchTop env b - 1)) (srchTop env b) x with
    | none => .error .blkmod
    | some k => expandedKey k

/-- The copy of the bytes of a record until two delimiters, into a buffer of `dstTop` bytes. -/
def copyDelims (b : GdsBlk) (dstTop : Nat) : Nat → List UInt8 → Nat → Except BlkSc (List UInt8)
  | 0, _, _ => .error .keyoflow
  | fuel + 1, dst, src =>
    if dstTop - 1 ≤ dst.length then .error .keyoflow
    else if b.byte src = keyDelimiter ∧ b.byte (src + 1) = keyDelimiter then .ok (dst ++ [keyDelimiter, keyDelimiter])
    else copyDelims b dstTop fuel (dst ++ [b.byte src]) (src + 1)

/-- `gvcst_expand_prev_key`: what the search key and the record do not give is expanded from the start of the block. -/
def gvcstExpandPrevKey (env : SrchEnv) (b : GdsBlk) (stat : SrchStat) (srchKey : List UInt8) : Except BlkSc (List UInt8) :=
  let offset := stat.prevRec.offset
  if offset < blkHdrSize then .error .badoffset
  else if stat.prevRec.mtch < b.evalCmpc offset then gvcstExpandKey env b offset
  else
    let mtch := stat.prevRec.mtch
    let mtch := if b.evalCmpc offset < mtch ∧ srchKey.getD (mtch - 1) 0 = keyDelimiter then mtch - 1 else mtch
    if env.altTop ≤ mtch then .error .keyoflow
    else
      match copyDelims b env.altTop env.altTop (srchKey.take mtch) (offset + recHdrSize + (mtch - b.evalCmpc offset)) with
      | .error sc => .error sc
      | .ok k => expandedKey k

/-- How many of the next `n` bytes two keys agree in, from position `i` on. -/
def agreeFrom (key oldKey : List UInt8) : Nat → Nat → Nat
  | 0, _ => 0
  | n + 1, i => if key.getD i 0 ≠ oldKey.getD i 0 then 0 else agreeFrom key oldKey n (i + 1) + 1

/-- Where the resumed search enters the loop: at the record behind the current one, or at `alt_loop_entry` with the current one. -/
def tailEntry (b : GdsBlk) (key oldKey : List UInt8) (stat : SrchStat) (alt : Option Altkey) : Turn :=
  let pRec := stat.currRec.offset
  let nTmp := b.evalCmpc pRec
  let pCurrTarg := agreeFrom key oldKey nTmp 0
  let nFlg : Int := if pCurrTarg = nTmp then 0 else (key.getD pCurrTarg 0).toNat - (oldKey.getD pCurrTarg 0).toNat
  let v : SrchVars :=
    { pRecBase := pRec, nRecLen := b.rsiz pRec, nTmp := nTmp, nMatchCnt := stat.prevRec.mtch, nTargLen := key.length,
      pCurrTarg := pCurrTarg, pPrevRec := stat.prevRec.offset, alt := alt }
  if 0 < nFlg then .next { v with nMatchCnt := pCurrTarg, nTargLen := key.length - pCurrTarg }
  else if nFlg = 0 then
    searchCompare b key true
      { v with nMatchCnt := pCurrTarg + agreeFrom key oldKey (stat.prevRec.mtch - pCurrTarg) pCurrTarg,
               nTargLen := key.length - pCurrTarg }
  else .next v

/-- The text of `gvcst_search_tail` behind its first checks. `start` is the expanded key of the record before, where that is
wanted. -/
def searchTail (env : SrchEnv) (b : GdsBlk) (key oldKey : List UInt8) (stat : SrchStat) (altkey : List UInt8)
    (start : Option (List UInt8)) : SrchOut :=
  let pTop := srchTop env b
  let prevKey := start.getD []
  let alt := start.map fun k => Altkey.mk (k.take (k.length - 2)) (k.length - 2) (some (.key (k.length - 2)))
  if pTop ≤ stat.currRec.offset then
    if pTop < stat.currRec.offset then ⟨.blklenerr, stat, altkey⟩
    else
      searchEnd env b prevKey (.key (prevKey.length - 1)) (prevKey.length + 1) stat altkey
        (.ok { pRecBase := stat.currRec.offset, nRecLen := 0, nTmp := 0, pCurrTarg := 0, pPrevRec := stat.prevRec.offset,
               nMatchCnt := agreeFrom key oldKey stat.prevRec.mtch 0, nTargLen := 0, alt := alt })
  else
    searchEnd env b prevKey (.blk (pTop - 1)) (pTop + prevKey.length) stat altkey
      (searchLoop env b key prevKey true pTop (pTop + 1) (tailEntry b key oldKey stat alt))

/-- `gvcst_search_tail`. `prevKey` is the key of the record before if an earlier search has left it with the global
(`blk_target->prev_key`). -/
def gvcstSearchTail (env : SrchEnv) (b : GdsBlk) (key oldKey : List UInt8) (stat : SrchStat) (altkey : List UInt8)
    (prevKey : Option (List UInt8)) : SrchOut :=
  if stat.prevRec.offset = 0 then gvcstSearchBlk env b key stat altkey
  else if env.expandPrevKey then
    match prevKey with
    | some k => searchTail env b key oldKey stat altkey (some k)
    | none =>
      match gvcstExpandPrevKey env b stat oldKey with
      | .error sc => ⟨sc, stat, altkey⟩
      | .ok k => searchTail env b key oldKey stat k (some k)
  else searchTail env b key oldKey stat altkey none

end Gtm
