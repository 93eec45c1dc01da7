import Gtm.Gds.Entries

/-!
# Deleting records of a block

`gvcst_kill_blk` deletes the records between two positions and rebuilds the block from segments: pieces of the old block, and new
record headers with the bytes of keys that were compressed away. Inside a transaction the child numbers of new blocks are links
of a chain through the block (`off_chain`), which is repaired in the old buffer before the block is built from it.
-/

namespace Gtm

/-- What `gvcst_kill_blk` reads of the process: the block size, the transaction level and the depth of its update set, the number
of the block, whether it is the root (no block above it in the history), and what the memory for new record headers holds in the
byte `SET_CMPC` may leave alone. -/
structure KillEnv where
  blkSize : Nat
  dollarTlevel : Bool
  cwSetDepth : Nat
  blk : Int
  isRoot : Bool
  cmpc2 : UInt8

/-- `cw_index` of an `off_chain`. -/
def chainCwIndex (blkId : Int) : Nat := (blkId / 65536 % 32768).toNat

/-- A block number of this transaction that its update set does not have. -/
def badBlkNum (env : KillEnv) (blkId : Int) : Bool :=
  env.dollarTlevel && chainFlag blkId && decide (env.cwSetDepth ≤ chainCwIndex blkId)

/-- A segment of the new block (`blk_segment`): bytes of the old block, or bytes of the update array. -/
inductive Seg where
  | buf (off len : Nat)
  | lit (l : List UInt8)
deriving DecidableEq, Repr

/-- The bytes of a segment. -/
def Seg.bytes (b : GdsBlk) : Seg → List UInt8
  | .buf off len => b.bytes off len
  | .lit l => l

/-- The length of a segment. -/
def Seg.len : Seg → Nat
  | .buf _ len => len
  | .lit l => l.length

/-- The bytes of segments, one after the other. -/
def segBytes (b : GdsBlk) (segs : List Seg) : List UInt8 := segs.flatMap (Seg.bytes b)

/-- `blk_seg_cnt`: the size of the block the segments make. -/
def blkSegCnt (segs : List Seg) : Nat := blkHdrSize + (segs.map Seg.len).sum

/-- A little endian short. -/
def ushortBytes (n : Nat) : List UInt8 := [UInt8.ofNat n, UInt8.ofNat (n / 256)]

/-- `SET_CMPC`: counts below 253 leave the second byte as it is. -/
def setCmpc (env : KillEnv) (cmpc : Nat) : List UInt8 :=
  if cmpc < 253 then [UInt8.ofNat cmpc, env.cmpc2] else [UInt8.ofNat (253 + (cmpc - 253) / 256), UInt8.ofNat (cmpc - 253)]

/-- A new record header. -/
def recHdr (env : KillEnv) (rsiz cmpc : Nat) : List UInt8 := ushortBytes rsiz ++ setCmpc env cmpc

/-- The block made of segments of an old one. -/
def buildBlk (b : GdsBlk) (levl : Nat) (segs : List Seg) : GdsBlk :=
  { b with
    levl := levl
    bsiz := blkSegCnt segs
    byte := fun i => if i < blkHdrSize then b.byte i else (segBytes b segs).getD (i - blkHdrSize) (b.byte i) }

/-- The children of the deleted records, in the order in which `gvcst_delete_blk` gets them. -/
def deletedChildren (env : KillEnv) (b : GdsBlk) (rightPtr : Nat) : Nat → Nat → Except BlkSc (List Int)
  | 0, _ => .ok []
  | fuel + 1, rp =>
    if rp < rightPtr then
      let rp1 := rp + b.rsiz rp
      if rp1 < rp + recHdrSize + sizeofBlkId b.longBlkId ∨ env.blkSize < rp1 then .error .rmisalign
      else
        let tempBlk := b.readBlkId (rp1 - sizeofBlkId b.longBlkId)
        if badBlkNum env tempBlk then .error .blknumerr
        else (deletedChildren env b rightPtr fuel rp1).map (tempBlk :: ·)
    else .ok []

/-- How the key of the record behind the deleted ones grows: `targ_base`, `targ_len` and `prev_len`. The bytes come from the search
key and, where the record of the search is deleted as well, from the key of that record. -/
def keyGrowth (b : GdsBlk) (low high : SrchRec) (rightExtra : Bool) (rightPrevPtr rightPtr : Nat) : Nat × Nat × Nat :=
  let targBase := if high.mtch < low.mtch then high.mtch else low.mtch
  if rightExtra then
    let tmpCmpc := b.evalCmpc rightPrevPtr
    let targLen := tmpCmpc - targBase
    if tmpCmpc ≤ b.evalCmpc rightPtr then (targBase, targLen, b.evalCmpc rightPtr - tmpCmpc)
    else
      let tempInt := tmpCmpc - b.evalCmpc rightPtr
      (targBase, if tempInt < targLen then targLen - tempInt else 0, 0)
  else (targBase, b.evalCmpc rightPtr - targBase, 0)

/-- The segments for the records before the deleted ones. Where nothing is left behind them, the last record of an index block
becomes the star-key record. -/
def leftSegs (env : KillEnv) (b : GdsBlk) (leftPtr delPtr rightPtr : Nat) : List Seg :=
  if delPtr ≤ blkHdrSize then []
  else if rightPtr ≠ b.bsiz ∨ b.levl = 0 then [.buf blkHdrSize (delPtr - blkHdrSize)]
  else
    (if blkHdrSize < leftPtr then [.buf blkHdrSize (leftPtr - blkHdrSize)] else []) ++
      [.lit (recHdr env (bstarRecSize b.longBlkId) 0),
       .buf (leftPtr + b.rsiz leftPtr - sizeofBlkId b.longBlkId) (sizeofBlkId b.longBlkId)]

/-- The segments for the records behind the deleted ones. -/
def rightSegs (env : KillEnv) (b : GdsBlk) (searchKey : List UInt8) (rightPrevPtr rightPtr : Nat) (growth : Nat × Nat × Nat) :
    List Seg :=
  let (targBase, targLen, prevLen) := growth
  if rightPtr = b.bsiz then []
  else if targLen + prevLen = 0 then [.buf rightPtr (b.bsiz - rightPtr)]
  else
    [.lit (recHdr env (b.rsiz rightPtr + (targLen + prevLen)) (b.evalCmpc rightPtr - (targLen + prevLen)))] ++
      (if targLen ≠ 0 then [.lit ((searchKey.drop targBase).take targLen)] else []) ++
      (if prevLen ≠ 0 then [.buf (rightPrevPtr + recHdrSize) prevLen] else []) ++
      [.buf (rightPtr + recHdrSize) (b.bsiz - (rightPtr + recHdrSize))]

/-- `next_off` of the link at an offset: the first two bytes of an `off_chain`. -/
def nextOff (b : GdsBlk) (p : Nat) : Nat := b.number p 2

/-- The link with another `next_off` (`WRITE_OFF_CHAIN`). -/
def setNextOff (b : GdsBlk) (p n : Nat) : GdsBlk :=
  { b with byte := fun i => if i = p then UInt8.ofNat n else if i = p + 1 then UInt8.ofNat (n / 256) else b.byte i }

/-- The special case of a chain that ends with the record that becomes the star-key record. -/
def atNewStar (b : GdsBlk) (delPtr rightPtr curr : Nat) : Bool :=
  decide (rightPtr = b.bsiz) && decide (delPtr = curr + sizeofBlkId b.longBlkId)

/-- Follow the chain to the first deleted record: the link before, and the link at which the walk stops. -/
def chainToDel (b : GdsBlk) (delPtr rightPtr : Nat) : Nat → Option Nat → Nat → Option Nat × Nat
  | 0, prev, curr => (prev, curr)
  | fuel + 1, prev, curr =>
    if curr < delPtr ∧ nextOff b curr ≠ 0 ∧ atNewStar b delPtr rightPtr curr = false then
      chainToDel b delPtr rightPtr fuel (some curr) (curr + nextOff b curr)
    else (prev, curr)

/-- Follow the chain past the last deleted record. -/
def chainToRight (b : GdsBlk) (rightPtr : Nat) : Nat → Nat → Nat
  | 0, curr => curr
  | fuel + 1, curr =>
    if curr < rightPtr ∧ nextOff b curr ≠ 0 then chainToRight b rightPtr fuel (curr + nextOff b curr) else curr

/-- The repair of the chain: the buffer with the links the new block needs, and the offset of the first of them. `shrink` is what
the record behind the deleted ones grows by. -/
def fixChain (b : GdsBlk) (leftPtr delPtr rightPtr shrink firstOff : Nat) : GdsBlk × Nat :=
  let (prev, curr) := chainToDel b delPtr rightPtr b.bsiz none firstOff
  if atNewStar b delPtr rightPtr curr then
    let b' := setNextOff b curr 0
    match prev with
    | some p => (setNextOff b' p (leftPtr + recHdrSize - p), firstOff)
    | none => (b', leftPtr + recHdrSize)
  else if delPtr ≤ curr then
    let curr := chainToRight b rightPtr b.bsiz curr
    if curr < rightPtr then
      match prev with
      | some p => (setNextOff b p 0, firstOff)
      | none => (b, 0)
    else
      match prev with
      | some p => (setNextOff b p (curr - p - (rightPtr - delPtr) + shrink), firstOff)
      | none => (b, curr - (rightPtr - delPtr) + shrink)
  else (b, firstOff)

/-- What is written: the root with a star-key record for a new, empty data block, or the rebuilt block; and `first_off`, the first
link of the chain of the block. -/
inductive KillWrite where
  | root (b : GdsBlk) (firstOff : Nat)
  | blk (b : GdsBlk) (firstCopy : Bool) (firstOff : Nat)

/-- What `gvcst_kill_blk` returns and does. -/
structure KillOut where
  sc : BlkSc
  deleted : List Int
  write : Option KillWrite

/-- The end of `gvcst_kill_blk`, for a block of which records are left: `firstOff` is the first link of the chain of the update
element. -/
def killRebuild (env : KillEnv) (b : GdsBlk) (searchKey : List UInt8) (low high : SrchRec) (rightExtra : Bool)
    (leftPtr delPtr rightPrevPtr rightPtr firstOff : Nat) (deleted : List Int) : KillOut :=
  let growth := keyGrowth b low high rightExtra rightPrevPtr rightPtr
  let left := leftSegs env b leftPtr delPtr rightPtr
  let segs := left ++ rightSegs env b searchKey rightPrevPtr rightPtr growth
  if rightPtr ≠ b.bsiz ∧ growth.2.1 + growth.2.2 ≠ 0 ∧ b.bsiz ≤ rightPtr + recHdrSize then ⟨.rmisalign, deleted, none⟩
  else if env.blkSize < blkSegCnt segs then ⟨.mkblk, deleted, none⟩
  else
    let firstCopy := match left with
      | .buf _ _ :: _ => false
      | _ => true
    let (b', firstOff) :=
      if env.dollarTlevel = true ∧ firstOff ≠ 0 then
        fixChain b leftPtr delPtr rightPtr (if rightPtr = b.bsiz then 0 else growth.2.1 + growth.2.2) firstOff
      else (b, firstOff)
    ⟨.normal, deleted, some (.blk (buildBlk b' b.levl segs) firstCopy firstOff)⟩

/-- `gvcst_kill_blk`: the records behind `low` and before `high` are deleted, and that at `high` too with `rightExtra`. -/
def gvcstKillBlk (env : KillEnv) (b : GdsBlk) (searchKey : List UInt8) (low high : SrchRec) (rightExtra : Bool) (firstOff : Nat) :
    KillOut :=
  let leftPtr := low.offset
  let rightPrevPtr := high.offset
  let rightPtr := if rightExtra = true ∧ high.offset < b.bsiz then high.offset + b.rsiz high.offset else high.offset
  let delPtr := if leftPtr = 0 then blkHdrSize else leftPtr + b.rsiz leftPtr
  if low.offset = high.offset then ⟨.normal, [], none⟩
  else if badBlkNum env env.blk then ⟨.blknumerr, [], none⟩
  else if b.bsiz < rightPtr ∨ rightPtr ≤ leftPtr then ⟨.rmisalign, [], none⟩
  else if leftPtr = 0 ∧ rightPtr = b.bsiz ∧ b.bsiz = blkHdrSize then
    ⟨if b.levl ≠ 0 then .rmisalign else .normal, [], none⟩
  else if leftPtr = 0 ∧ rightPtr = b.bsiz ∧ env.isRoot = false then ⟨.deleteParent, [], none⟩
  else if leftPtr ≠ 0 ∧ (delPtr ≤ leftPtr + recHdrSize ∨ rightPtr < delPtr) then ⟨.rmisalign, [], none⟩
  else if delPtr = rightPtr then ⟨.normal, [], none⟩
  else
    match if b.levl ≠ 0 then deletedChildren env b rightPtr b.bsiz delPtr else .ok [] with
    | .error sc => ⟨sc, [], none⟩
    | .ok deleted =>
      if leftPtr = 0 ∧ rightPtr = b.bsiz then
        ⟨.normal, deleted, some (.root (buildBlk b 1
          [.lit (recHdr env (bstarRecSize b.longBlkId) 0), .lit (List.replicate (sizeofBlkId b.longBlkId) 0)]) 0)⟩
      else if b.bsiz - (rightPtr - delPtr) ≤ blkHdrSize then ⟨.rmisalign, deleted, none⟩
      else killRebuild env b searchKey low high rightExtra leftPtr delPtr rightPrevPtr rightPtr firstOff deleted

end Gtm

/-!
## What a kill leaves of a block

The calls of `gvcst_kill_blk` that `gvcst_kill2` makes, the records such a call deletes, and what the block must hold behind it.
The chain of new blocks is described by the records whose block numbers are its links.
-/

namespace Gtm

open CommonPrefix

/-- `MAX_DB_BLK_SIZE`. -/
def maxDbBlkSize : Nat := 65536 - 512

/-! ## The calls of a kill -/

/-- The calls of `gvcst_kill_blk` for the range from `key` up to `alt`, in a block that both searches went through (`both`), or
only that for the left end (`left`) or for the right end (`right`). `leftExtra` and `rightExtra` say that the child at that end is
gone; where both ends are left, they are different records. In a data block the kill starts, with nothing gone below. -/
inductive KillCall (b : GdsBlk) (key alt : List UInt8) : List UInt8 → SrchRec → SrchRec → Bool → Prop where
  | both (leftExtra rightExtra : Bool) (start : b.levl = 0 → leftExtra = true ∧ rightExtra = false)
      (apart : leftExtra = false → (naiveSearch b key).currRec.offset ≠ (naiveSearch b alt).currRec.offset) :
      KillCall b key alt key (if leftExtra then (naiveSearch b key).prevRec else (naiveSearch b key).currRec)
        (naiveSearch b alt).currRec rightExtra
  | left (leftExtra : Bool) (start : b.levl = 0 → leftExtra = true) :
      KillCall b key alt key (if leftExtra then (naiveSearch b key).prevRec else (naiveSearch b key).currRec) ⟨b.bsiz, 0⟩ false
  | right (rightExtra : Bool) (start : b.levl = 0 → rightExtra = false) :
      KillCall b key alt alt ⟨0, 0⟩ (naiveSearch b alt).currRec rightExtra

/-! ## The records that are left -/

/-- The offsets of the records. -/
def recOffs : Nat → List UInt8 → List Entry → List Nat
  | _, _, [] => []
  | off, prior, e :: es => off :: recOffs (off + e.size prior) e.keyBytes es

/-- A record in the killed range: behind `low` and before `high`, or that at `high` where it goes too. -/
def inRange (low high : SrchRec) (rightExtra : Bool) (off : Nat) : Bool :=
  decide (low.offset < off) && (decide (off < high.offset) || (rightExtra && decide (off = high.offset)))

/-- What belongs to the records of the killed range. -/
def killed {α : Type} (low high : SrchRec) (rightExtra : Bool) (es : List Entry) (l : List α) : List α :=
  (((recOffs blkHdrSize [] es).zip l).filter fun p => inRange low high rightExtra p.1).map (·.2)

/-- What belongs to the records outside the killed range. -/
def outside {α : Type} (low high : SrchRec) (rightExtra : Bool) (es : List Entry) (l : List α) : List α :=
  (((recOffs blkHdrSize [] es).zip l).filter fun p => !inRange low high rightExtra p.1).map (·.2)

/-- The entries with the last of them as the star entry. -/
def starLast : List Entry → List Entry
  | [] => []
  | [e] => [⟨none, e.val⟩]
  | e :: e' :: es => e :: starLast (e' :: es)

/-- What a block with these records left has to hold: an index block ends in a star-key record. -/
def closeBlk (level0 : Bool) (es : List Entry) : List Entry := if level0 then es else starLast es

/-- A little endian number. -/
def bytesNumber : List UInt8 → Nat
  | [] => 0
  | a :: l => a.toNat + 256 * bytesNumber l

/-- The block number an entry of an index block holds. -/
def Entry.child (longBlkId : Bool) (e : Entry) : Int :=
  let n := bytesNumber e.val
  if n < 2 ^ (8 * sizeofBlkId longBlkId - 1) then (n : Int) else (n : Int) - 2 ^ (8 * sizeofBlkId longBlkId)

/-! ## Chains -/

/-- The places of the block numbers of the marked records. -/
def slots (blkIdSz : Nat) : Nat → List UInt8 → List Entry → List Bool → List Nat
  | off, prior, e :: es, m :: ms =>
    (if m then [off + e.size prior - blkIdSz] else []) ++ slots blkIdSz (off + e.size prior) e.keyBytes es ms
  | _, _, _, _ => []

/-- The links at these offsets lead from one to the next, upwards, and end with the last. -/
def Links (b : GdsBlk) : List Nat → Prop
  | [] => True
  | [p] => nextOff b p = 0
  | p :: q :: l => p < q ∧ p + nextOff b p = q ∧ Links b (q :: l)

/-- The chain that starts at `firstOff` visits exactly these links. -/
def Chain (b : GdsBlk) (firstOff : Nat) (l : List Nat) : Prop := firstOff = l.headD 0 ∧ Links b l

/-- A record may differ in the link its block number is. -/
def Relinked (linked : Bool) (e e' : Entry) : Prop :=
  e'.key = e.key ∧ e'.val.length = e.val.length ∧ e'.val.drop 2 = e.val.drop 2 ∧ (linked = false → e'.val = e.val)

/-- Records that differ at most in the links of the marked ones. -/
def Relinks : List Entry → List Bool → List Entry → Prop
  | [], [], [] => True
  | e :: es, m :: ms, e' :: es' => Relinked m e e' ∧ Relinks es ms es'
  | _, _, _ => False

/-- The numbers of new blocks that a kill meets are those of its transaction. Inside one, the marked records make the chain of the
block, in index blocks only. -/
structure TpBlock (env : KillEnv) (b : GdsBlk) (es : List Entry) (marks : List Bool) (firstOff : Nat) : Prop where
  blk : badBlkNum env env.blk = false
  children : b.levl ≠ 0 → ∀ e ∈ es, badBlkNum env (e.child b.longBlkId) = false
  marked : marks.length = es.length
  chain : env.dollarTlevel = true → Chain b firstOff (slots (sizeofBlkId b.longBlkId) blkHdrSize [] es marks)
  leaf : b.levl = 0 → firstOff = 0 ∧ ∀ m ∈ marks, m = false

end Gtm
