import Gtm.Gds.KillBlk

/-!
# Building blocks

`gvcst_blk_build` makes a block of the segments of an update array. The target is mostly the buffer of the block that the segments are
pieces of, so that the order in which they are moved decides what is read: `forward_process` of the update element says from which end.
With `first_copy` not set the first segment is taken to be in its place already. Inside a transaction the link to a new block is
written at `ins_off`.
-/

namespace Gtm

/-! ## The data -/

/-- A buffer: the block, and the transaction number of its header. -/
structure BlkBuf where
  blk : GdsBlk
  tn : Nat

/-- The fields of an update element (`cw_set_element`) that the routine reads and writes. `longBlkId` is what `ondsk_blkver` says. -/
structure CwElem where
  updAddr : List Seg
  longBlkId : Bool
  level : Nat
  forwardProcess : Bool
  firstCopy : Bool
  firstOff : Nat
  insOff : Nat
  nextOff : Nat
  index : Nat

/-- The process: the transaction level, `curr_tn`, the next element of `new_buff_list`, and what `chain.filler` holds, which is not
set. -/
structure BuildEnv where
  dollarTlevel : Bool
  currTn : Nat
  newBuff : BlkBuf
  filler : Nat

/-! ## The passes -/

/-- The bytes `l` written at `ptr`. -/
def overwrite (byte : Nat → UInt8) (ptr : Nat) (l : List UInt8) : Nat → UInt8 := fun i =>
  if ptr ≤ i ∧ i < ptr + l.length then l.getD (i - ptr) 0 else byte i

/-- `memmove` of a segment. The old block is in another buffer, or else in the buffer itself. -/
def moveSeg (old : Option GdsBlk) (seg : Seg) (ptr : Nat) (b : GdsBlk) : GdsBlk :=
  { b with byte := overwrite b.byte ptr (seg.bytes (old.getD b)) }

/-- The segments from the first on. -/
def forwardCopy (old : Option GdsBlk) : List Seg → Nat → GdsBlk → GdsBlk
  | [], _, b => b
  | seg :: segs, ptr, b => forwardCopy old segs (ptr + seg.len) (moveSeg old seg ptr b)

/-- The segments from the last on, which is the head of the list here. -/
def backwardCopy (old : Option GdsBlk) : List Seg → Nat → GdsBlk → GdsBlk
  | [], _, b => b
  | seg :: segs, ptr, b => backwardCopy old segs (ptr - seg.len) (moveSeg old seg (ptr - seg.len) b)

/-- `n` bytes of a little endian number. -/
def littleEndian : Nat → Nat → List UInt8
  | 0, _ => []
  | n + 1, v => UInt8.ofNat v :: littleEndian n (v / 256)

/-- `WRITE_OFF_CHAIN`: the bytes of an `off_chain` or of a `v6_off_chain`. -/
def offChainBytes (longBlkId : Bool) (filler cwIndex nextOff : Nat) : List UInt8 :=
  if longBlkId then
    littleEndian 8 (nextOff % 65536 + 65536 * (cwIndex % 32768) + 2147483648 * (filler % 4294967296) + 9223372036854775808)
  else littleEndian 4 (nextOff % 65536 + 65536 * (cwIndex % 32768) + 2147483648)

/-- The block whose pieces are among the segments. -/
def oldBlk (env : BuildEnv) (base : Option BlkBuf) (old : Option GdsBlk) : GdsBlk := old.getD (base.getD env.newBuff).blk

/-- The segments that are moved. -/
def movedSegs (firstCopy : Bool) (array : List Seg) : List Seg := if firstCopy then array else array.tail

/-- Where the pass forward starts. -/
def forwardStart (firstCopy : Bool) (array : List Seg) : Nat :=
  if firstCopy then blkHdrSize else blkHdrSize + (array.head?.map Seg.len).getD 0

/-- The target with its new header. Without a `base` it is a new private buffer. -/
def headed (env : BuildEnv) (base : Option BlkBuf) (cse : CwElem) : GdsBlk :=
  { (base.getD env.newBuff).blk with longBlkId := cse.longBlkId, bsiz := blkSegCnt cse.updAddr, levl := cse.level }

/-- `gvcst_blk_build`. `old` is the old block, if it is not in the buffer at `base`. -/
def gvcstBlkBuild (env : BuildEnv) (base : Option BlkBuf) (old : Option GdsBlk) (ctn : Nat) (cse : CwElem) : CwElem × BlkBuf :=
  let array := cse.updAddr
  let firstCopy := cse.firstCopy || base.isNone
  let ctn := if ctn = 0 ∧ env.dollarTlevel = true then env.currTn - 1 else ctn
  let b := headed env base cse
  let b :=
    if cse.forwardProcess then forwardCopy old (movedSegs firstCopy array) (forwardStart firstCopy array) b
    else backwardCopy old (movedSegs firstCopy array).reverse (blkSegCnt array) b
  let cse := { cse with firstCopy := firstCopy }
  if env.dollarTlevel = true ∧ cse.insOff ≠ 0 then
    ({ cse with firstOff := if cse.firstOff = 0 then cse.insOff else cse.firstOff, index := 0, insOff := 0, nextOff := 0 },
      ⟨{ b with byte := overwrite b.byte cse.insOff (offChainBytes cse.longBlkId env.filler cse.index cse.nextOff) }, ctn⟩)
  else (cse, ⟨b, ctn⟩)

/-! ## The arrays of the callers -/

/-- An update array as the callers of `t_write` build it. Its pieces of the old block lie behind the header, and with `first_copy` not
set it starts with the piece that stays in its place. Where records are killed or the block only gets shorter, the array is processed
forward, and no piece but the first goes to the right. Elsewhere no piece but the last goes to the left. -/
structure CallerArray (forwardProcess firstCopy : Bool) (segs : List Seg) : Prop where
  behind {off len : Nat} (h : .buf off len ∈ segs) : blkHdrSize ≤ off
  first (h : firstCopy = false) : ∃ len rest, segs = .buf blkHdrSize len :: rest
  left {pre post : List Seg} {off len : Nat} (h : forwardProcess = true) (hs : segs = pre ++ .buf off len :: post) (hp : pre ≠ []) :
    blkSegCnt pre ≤ off
  right {pre post : List Seg} {off len : Nat} (h : forwardProcess = false) (hs : segs = pre ++ .buf off len :: post) (hp : post ≠ []) :
    off ≤ blkSegCnt pre

end Gtm
