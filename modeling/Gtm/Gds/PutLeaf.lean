import Gtm.Gds.BlkBuild

/-!
# Values put into a leaf

`gvcst_put2` starts at the leaf at which the search has ended. Where the record fits, the leaf is written with the record inserted or,
where the key is there already, with another value in its record; only otherwise it is split. An increment is done again when it is
committed: `gvincr_recompute_upd_array` searches the key in the leaf as it is then, computes the value, and makes the update array again.
-/

namespace Gtm

/-- What the code reads of the region and the process: the fill factor and the reserved bytes, the fragment of a request that replaces
part of a value, whether setting a node to the value it has is left out, and whether a trigger reads the old value. -/
structure PutEnv extends KillEnv where
  gvFillfactor : Nat
  reservedBytes : Nat
  rcSetFragment : Nat
  gvdupsetnoop : Bool
  ztoldRead : Bool
  /-- Fill factors above `MAX_FILLFACTOR` are cut. -/
  gvFillfactor_le : gvFillfactor ≤ 100
  /-- `MAX_DB_BLK_SIZE` is less. -/
  blkSize_lt : blkSize < 65536

/-- `blk_fill_size`. -/
def PutEnv.blkFillSize (env : PutEnv) : Int := ((env.blkSize * env.gvFillfactor / 100 : Nat) : Int) - env.reservedBytes

/-- `blk_reserved_size`. -/
def PutEnv.blkReservedSize (env : PutEnv) : Int := (env.blkSize : Int) - env.reservedBytes

/-- The codes of the restarts. -/
inductive PutSc where
  | mkblk
  | rmisalign
  | blknumerr
deriving DecidableEq, Repr

/-- What comes of a leaf: a restart, the error `RSVDBYTE2HIGH`, nothing where the node has the value, the update array, or a split. -/
inductive PutLeaf where
  | restart (sc : PutSc)
  | rsvdbyte2high
  | duplicate
  | written (segs : List Seg)
  | split
deriving DecidableEq, Repr

/-- A number stored in an unsigned short. -/
def ushort (n : Int) : Nat := (n % 65536).toNat

/-- The sizes of the record, as `gvcst_put2` computes them: of the record at the position, of the new record, what the record behind
gets shorter by, and what the block grows by. -/
structure PutSizes where
  recSize : Nat
  recCmpc : Nat
  newRecSize : Int
  nextRecShrink : Int
  delta : Int

/-- The sizes for the leaf `b` and the position `stat`. -/
def putSizes (b : GdsBlk) (key value : List UInt8) (stat : SrchStat) : PutSizes :=
  let rp := stat.currRec.offset
  let recSize := if rp = b.bsiz then 0 else b.rsiz rp
  let recCmpc := if rp = b.bsiz then 0 else b.evalCmpc rp
  if key.length ≠ stat.currRec.mtch then
    let newRecSize : Int := recHdrSize + key.length - stat.prevRec.mtch + value.length
    let nextRecShrink : Int := if b.bsiz ≤ rp then 0 else (stat.currRec.mtch : Int) - recCmpc
    ⟨recSize, recCmpc, newRecSize, nextRecShrink, newRecSize - nextRecShrink⟩
  else
    let newRecSize : Int := recHdrSize + (key.length - recCmpc) + value.length
    ⟨recSize, recCmpc, newRecSize, 0, newRecSize - recSize⟩

/-- The segments up to the value of the record. -/
def recordSegs (env : KillEnv) (key value : List UInt8) (stat : SrchStat) (newRecSize : Int) : List Seg :=
  [.buf blkHdrSize (stat.currRec.offset - blkHdrSize), .lit (recHdr env (ushort newRecSize) stat.prevRec.mtch),
    .lit (key.drop stat.prevRec.mtch)] ++ if value = [] then [] else [.lit value]

/-- The segments behind the record, none if they would be of negative length. -/
def behindSegs (env : KillEnv) (b : GdsBlk) (stat : SrchStat) (newRec : Bool) (s : PutSizes) : Option (List Seg) :=
  let rp : Int := if newRec then stat.currRec.offset else stat.currRec.offset + s.recSize
  let n : Int := b.bsiz - rp
  if n ≤ 0 then some []
  else
    let shrink := if newRec then s.nextRecShrink + recHdrSize else s.nextRecShrink
    if n < shrink then none
    else
      some ((if newRec then [.lit (recHdr env (ushort (s.recSize - s.nextRecShrink)) stat.currRec.mtch)] else []) ++
        [.buf (rp + shrink).toNat (n - shrink).toNat])

/-- The segments where only a fragment of the value is replaced. -/
def fragmentSegs (env : PutEnv) (b : GdsBlk) (key value : List UInt8) (stat : SrchStat) : List Seg :=
  let rp := stat.currRec.offset
  let rest : Int := key.length - b.evalCmpc rp
  let n : Int := b.bsiz - rp - recHdrSize - rest - env.rcSetFragment - value.length
  [.buf blkHdrSize (rp - blkHdrSize + recHdrSize + env.rcSetFragment + rest).toNat, .lit value] ++
    if 0 < n then [.buf (rp + rest + env.rcSetFragment + value.length).toNat n.toNat] else []

/-- `BLK_FINI`. -/
def blkFini (env : PutEnv) (segs : List Seg) : PutLeaf := if blkSegCnt segs ≤ env.blkSize then .written segs else .restart .mkblk

/-- The first turn of the loop of `gvcst_put2`, for the leaf. -/
def gvcstPutLeaf (env : PutEnv) (b : GdsBlk) (key value : List UInt8) (stat : SrchStat) : PutLeaf :=
  let newBlkSizeSingle := blkHdrSize + recHdrSize + key.length + value.length
  let newRec := decide (key.length ≠ stat.currRec.mtch)
  let rp := stat.currRec.offset
  let s := putSizes b key value stat
  let newBlkSize := b.bsiz + s.delta
  if env.blkReservedSize < newBlkSizeSingle then .rsvdbyte2high
  else if rp = b.bsiz ∧ newRec = false ∧ env.dollarTlevel = true then .restart .mkblk
  else if rp ≠ b.bsiz ∧ b.bsiz < rp + s.recSize then .restart .mkblk
  else if newRec = false ∧ s.recCmpc ≠ stat.prevRec.mtch then .restart .mkblk
  else if newRec = false ∧ env.ztoldRead = true ∧ (s.recSize : Int) < recHdrSize + (key.length - s.recCmpc) then .restart .rmisalign
  else if newRec = false ∧ s.delta = 0 ∧ value ≠ [] ∧ value = b.bytes (rp + s.newRecSize.toNat - value.length) value.length ∧
      env.gvdupsetnoop = true then .duplicate
  else if env.dollarTlevel = true ∧ (recHdrSize + key.length - stat.prevRec.mtch + value.length : Int) ≠ s.newRecSize then .restart .mkblk
  else if badBlkNum env.toKillEnv env.blk then .restart .blknumerr
  else if newBlkSize ≤ env.blkFillSize ∨ newBlkSize ≤ newBlkSizeSingle then
    if env.rcSetFragment = 0 then
      match behindSegs env.toKillEnv b stat newRec s with
      | none => .restart .mkblk
      | some behind => blkFini env (recordSegs env.toKillEnv key value stat s.newRecSize ++ behind)
    else blkFini env (fragmentSegs env b key value stat)
  else .split

/-! ## The increment -/

/-- The cache record of the buffer, if it still is valid. -/
structure IncrCr where
  readInProgress : Int
  inTend : Bool
  ondskBlkver : Nat

/-- The update element, with the size and transaction number of the header in its old block. -/
structure IncrCse where
  updAddr : List Seg
  ondskBlkver : Nat
  done : Bool
  oldBlock : Option (Nat × Nat)
  blkChecksum : Nat

/-- What the increment reads besides: what the searches read, whether there is journaling with before-images, and the string that the
increment of a value comes to. -/
structure IncrEnv extends PutEnv where
  expandPrevKey : Bool
  altTop : Nat
  keyAbove : Bool
  jnlBeforeImage : Bool
  epochTn : Nat
  jnlGetChecksum : Nat → Nat
  postIncr : List UInt8 → List UInt8
  /-- Increments in transactions are not computed again. -/
  nonTp : dollarTlevel = false

/-- What the search reads. -/
def IncrEnv.srch (env : IncrEnv) : SrchEnv := ⟨env.blkSize, env.expandPrevKey, env.altTop, env.keyAbove⟩

/-- The codes with which it returns. -/
inductive IncrSc where
  | lostcr
  | blksplit
  | blk (sc : BlkSc)
deriving DecidableEq, Repr

/-- What is returned, with the position, the value (`post_incr_mval`) and the update element. -/
structure IncrOut where
  sc : IncrSc
  stat : SrchStat
  postIncrMval : Option (List UInt8)
  cse : IncrCse

/-- The length of the value in the record at the position. -/
def dataLen (b : GdsBlk) (stat : SrchStat) : Int :=
  (b.rsiz stat.currRec.offset + b.evalCmpc stat.currRec.offset : Int) - recHdrSize - stat.currRec.mtch

/-- `gvincr_compute_post_incr`. -/
def gvincrComputePostIncr (env : IncrEnv) (b : GdsBlk) (stat : SrchStat) : Except BlkSc (List UInt8) :=
  let rp := stat.currRec.offset
  let len := dataLen b stat
  if len < 0 ∨ b.bsiz < rp + b.rsiz rp then .error .rmisalign
  else .ok (env.postIncr (b.bytes (rp + b.rsiz rp - len.toNat) len.toNat))

/-- The update array for the new value. -/
def incrSegs (env : IncrEnv) (b : GdsBlk) (key value : List UInt8) (stat : SrchStat) (newRecSize : Int) : List Seg :=
  let rp := stat.currRec.offset
  let tailLen : Int := b.bsiz - (rp + b.rsiz rp)
  [.buf blkHdrSize (rp - blkHdrSize), .lit (recHdr env.toKillEnv (ushort newRecSize) stat.prevRec.mtch), .lit (key.drop stat.prevRec.mtch),
    .lit value] ++ if 0 < tailLen then [.buf (rp + b.rsiz rp) tailLen.toNat] else []

/-- `blk_checksum`, unless the header of the old block is bad. -/
def incrChecksum (env : IncrEnv) (cse : IncrCse) : Option Nat :=
  match cse.oldBlock with
  | none => some cse.blkChecksum
  | some (bsiz, tn) =>
    if env.jnlBeforeImage = false then some cse.blkChecksum
    else if env.epochTn ≤ tn then some 0
    else if env.blkSize < bsiz then none
    else some (env.jnlGetChecksum bsiz)

/-- `gvincr_recompute_upd_array`. -/
def gvincrRecomputeUpdArray (env : IncrEnv) (b : GdsBlk) (key : List UInt8) (stat : SrchStat) (altkey : List UInt8) (cse : IncrCse)
    (cr : Option IncrCr) : IncrOut :=
  match cr with
  | none => ⟨.lostcr, stat, none, cse⟩
  | some cr =>
    if 0 ≤ cr.readInProgress then ⟨.lostcr, stat, none, cse⟩
    else if cr.inTend then ⟨.blk .blkmod, stat, none, cse⟩
    else
      let srch := gvcstSearchBlk env.srch b key stat altkey
      let stat := srch.stat
      if srch.sc ≠ .normal then ⟨.blk srch.sc, stat, none, cse⟩
      else if key.length ≠ stat.currRec.mtch then ⟨.blk .blkmod, stat, none, cse⟩
      else
        match gvincrComputePostIncr env b stat with
        | .error sc => ⟨.blk sc, stat, none, cse⟩
        | .ok value =>
          let recSize : Int := b.rsiz stat.currRec.offset
          let newRecSize : Int := recSize - dataLen b stat + value.length
          let segs := incrSegs env b key value stat newRecSize
          if env.blkFillSize < b.bsiz + (newRecSize - recSize) then ⟨.blksplit, stat, some value, cse⟩
          else if env.rcSetFragment ≠ 0 then ⟨.blk .mkblk, stat, some value, cse⟩
          else if env.blkSize < blkSegCnt segs then ⟨.blk .mkblk, stat, some value, cse⟩
          else
            let cse := { cse with updAddr := segs, ondskBlkver := cr.ondskBlkver, done := false }
            match incrChecksum env cse with
            | none => ⟨.blk .mkblk, stat, some value, cse⟩
            | some sum => ⟨.blk .normal, stat, some value, { cse with blkChecksum := sum }⟩

end Gtm
