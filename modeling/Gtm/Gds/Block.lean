import Gtm.Gvcst.Spanning

/-!
# Database blocks

A block is a header, then records. A record is a header with its size and compression count, the bytes of its key that the record
before it does not supply, and its value; in an index block the value is the number of a child block, and the last record, the
star-key record, has no key at all. `cert_blk` decides which blocks are well formed.

Numbers in a buffer are little endian. Offsets count from the start of the block.
-/

namespace Gtm

/-- The codes of `enum cdb_sc` that the routines on single blocks return. -/
inductive BlkSc where
  | normal
  | badoffset
  | blklenerr
  | blkmod
  | blknumerr
  | rmisalign
  | mkblk
  | deleteParent
  | keyoflow
  | r2small
deriving DecidableEq, Repr

/-- A block in its buffer: the fields of `blk_hdr` that are looked at, and the byte at each offset. What lies behind the block in
memory is there as well. -/
structure GdsBlk where
  longBlkId : Bool
  levl : Nat
  bsiz : Nat
  byte : Nat → UInt8

/-- `SIZEOF(blk_hdr)`. -/
def blkHdrSize : Nat := 16

/-- `SIZEOF(rec_hdr)`. -/
def recHdrSize : Nat := 4

/-- `SIZEOF_BLK_ID`. -/
def sizeofBlkId (longBlkId : Bool) : Nat := if longBlkId then 8 else 4

/-- `bstar_rec_size`. -/
def bstarRecSize (longBlkId : Bool) : Nat := recHdrSize + sizeofBlkId longBlkId

namespace GdsBlk

/-- The `len` bytes at an offset. -/
def bytes (b : GdsBlk) (off len : Nat) : List UInt8 := (List.range len).map fun i => b.byte (off + i)

/-- A little endian number of `len` bytes. -/
def number (b : GdsBlk) (off : Nat) : Nat → Nat
  | 0 => 0
  | len + 1 => (b.byte off).toNat + 256 * number b (off + 1) len

/-- The size of the record at an offset. -/
def rsiz (b : GdsBlk) (rp : Nat) : Nat := b.number rp 2

/-- `EVAL_CMPC`: compression counts from 253 on need the second byte. -/
def evalCmpc (b : GdsBlk) (rp : Nat) : Nat :=
  let cmpc := (b.byte (rp + 2)).toNat
  if cmpc < 253 then cmpc else (253 + (cmpc - 253) * 256 + (b.byte (rp + 3)).toNat) % 1024

/-- `READ_BLK_ID`, a signed number. -/
def readBlkId (b : GdsBlk) (p : Nat) : Int :=
  let n := b.number p (sizeofBlkId b.longBlkId)
  if n < 2 ^ (8 * sizeofBlkId b.longBlkId - 1) then (n : Int) else (n : Int) - 2 ^ (8 * sizeofBlkId b.longBlkId)

end GdsBlk

/-- The flag of an `off_chain` is the sign bit of a block number. -/
def chainFlag (blkId : Int) : Bool := decide (blkId < 0)

/-- `next_off` is the low half of the first word of an `off_chain`. -/
def chainNextOff (blkId : Int) : Nat := (blkId % 65536).toNat

/-- `MAX_BT_DEPTH`. -/
def maxBtDepth : Nat := 7

/-- `VALFIRSTCHAR_WITH_TRIG`. -/
def valfirstcharWithTrig (ch : UInt8) : Bool :=
  (decide (65 ≤ ch ∧ ch ≤ 90) || decide (97 ≤ ch ∧ ch ≤ 122)) || (ch == 37 || ch == 35)

/-- `TREF(in_mu_swap_root_state)`, as far as `cert_blk` looks at it. -/
inductive MuSwp where
  | none
  | incrRootCycle
  | directorySwap
deriving DecidableEq, Repr

/-- What `cert_blk` reads of the database and of the process: the block size, the blocks of a local map, the size of the file, the
transaction level, whether a reorganisation upgrades or encrypts, and the number of the block and of the root it was reached from. -/
structure CertEnv where
  blkSize : Nat
  bplmap : Nat
  totalBlks : Nat
  dollarTlevel : Bool
  reorgInProg : Bool
  muSwap : MuSwp
  blk : Int
  root : Int

/-- The variables of the loop of `cert_blk`. `priorExpkey` is the expanded key of the record before, with its length. -/
structure CertState where
  firstKey : Bool
  minCmpc : Nat
  priorExpkey : List UInt8
  isDirectory : Bool
  isGvt : Bool
  prevChild : Int
  nextTpChild : Option Nat

/-- The scan for the two delimiters that end a key: the offset behind them, the count of delimiters and the length of the name.
`fuel` bounds the bytes left in the record. -/
def scanKey (b : GdsBlk) (rTop keyBase : Nat) : Nat → Nat → Bool → Nat → Nat → Option (Nat × Nat × Nat)
  | 0, _, _, _, _ => none
  | fuel + 1, ptr, prevDelim, numSubs, minCmpc =>
    if b.byte ptr = keyDelimiter then
      let minCmpc := if minCmpc = 0 then ptr + 1 - keyBase else minCmpc
      if prevDelim then some (ptr + 1, numSubs, minCmpc)
      else if rTop ≤ ptr + 1 then none
      else scanKey b rTop keyBase fuel (ptr + 1) true (numSubs + 1) minCmpc
    else if rTop ≤ ptr + 1 then none
    else scanKey b rTop keyBase fuel (ptr + 1) false numSubs minCmpc

/-- The checks of `cert_blk` on the child block a record points to. -/
def certChild (env : CertEnv) (b : GdsBlk) (st : CertState) (blkIdPtr : Nat) : Option CertState :=
  if b.levl ≠ 0 ∨ st.isDirectory = true then
    let child := b.readBlkId blkIdPtr
    if env.dollarTlevel = false ∨ chainFlag child = false then
      if child ≤ 0 then none                                                       -- DBPTRNOTPOS
      else if (env.totalBlks : Int) < child ∧ env.reorgInProg = false then none     -- DBPTRMX
      else if child % env.bplmap = 0 then none                                     -- DBPTRMAP
      else if child = st.prevChild then none                                       -- DBBDBALLOC
      else some { st with prevChild := child, firstKey := false }
    else if st.nextTpChild.any (· ≠ blkIdPtr) then none                            -- DBPTRNOTPOS
    else some { st with nextTpChild := some (blkIdPtr + chainNextOff child), firstKey := false }
  else some { st with firstKey := false }

/-- The checks of `cert_blk` on a record with a key, up to its child. -/
def certKey (b : GdsBlk) (st : CertState) (rp rTop : Nat) : Option (CertState × Nat) :=
  let recCmpc := b.evalCmpc rp
  let keyBase := rp + recHdrSize
  if recCmpc ≠ 0 ∧ st.priorExpkey.length ≤ recCmpc then none                        -- DBCMPMX
  else
    let shared := st.priorExpkey.take recCmpc
    match scanKey b rTop keyBase (rTop - keyBase) keyBase (decide (recCmpc ≠ 0) && decide (shared.getLast? = some keyDelimiter))
        (shared.count keyDelimiter) st.minCmpc with
    | none => none                                                                 -- DBKEYMX
    | some (blkIdPtr, numDelims, minCmpc) =>
      let numSubscripts := numDelims - 1
      let nameChange := st.firstKey = false ∧ recCmpc < minCmpc
      let isDirectory := st.isDirectory || decide nameChange
      if nameChange ∧ st.isGvt = true then none                                    -- DBINVGBL
      else if numSubscripts ≠ 0 ∧ isDirectory = true then none                     -- DBDIRTSUBSC
      else if maxGvsubscripts ≤ numSubscripts then none                            -- DBMAXNRSUBS
      else if b.levl ≠ 0 ∧ blkIdPtr + sizeofBlkId b.longBlkId ≠ rTop then none     -- DBKEYMN
      else if st.firstKey = false ∧ b.byte keyBase ≤ st.priorExpkey.getD recCmpc 0 then none -- DBCMPBAD, DBKEYORD
      else
        some ({ st with minCmpc := minCmpc, isDirectory := isDirectory, isGvt := st.isGvt || decide (numSubscripts ≠ 0),
                        priorExpkey := shared ++ b.bytes keyBase (blkIdPtr - keyBase) }, blkIdPtr)

/-- One turn of the loop of `cert_blk`, for the record at `rp`. -/
def certRec (env : CertEnv) (b : GdsBlk) (st : CertState) (rp : Nat) : Option CertState :=
  let recSize := b.rsiz rp
  if recSize ≤ recHdrSize then none                                                -- DBRSIZMN
  else if b.bsiz < rp + recSize then none                                          -- DBRSIZMX
  else if st.firstKey = true ∧ b.evalCmpc rp ≠ 0 then none                          -- DBCMPNZRO
  else if st.firstKey = true ∧ b.levl = 0 ∧ valfirstcharWithTrig (b.byte (rp + recHdrSize)) = false then none -- GVINVALID
  else if rp + recSize = b.bsiz ∧ b.levl ≠ 0 then
    if recSize ≠ bstarRecSize b.longBlkId then none                                -- DBSTARSIZ
    else if b.evalCmpc rp ≠ 0 then none                                            -- DBSTARCMP
    else certChild env b st (rp + recHdrSize)
  else
    match certKey b st rp (rp + recSize) with
    | none => none
    | some (st, blkIdPtr) => certChild env b st blkIdPtr

/-- The loop of `cert_blk`, from the record at `rp` on. -/
def certLoop (env : CertEnv) (b : GdsBlk) : Nat → CertState → Nat → Bool
  | 0, _, rp => decide (b.bsiz ≤ rp)
  | fuel + 1, st, rp =>
    if b.bsiz ≤ rp then true
    else
      match certRec env b st rp with
      | none => false
      | some st => certLoop env b fuel st (rp + b.rsiz rp)

/-- `cert_blk` on a block that is not a local bitmap. -/
def certBlk (env : CertEnv) (b : GdsBlk) : Bool :=
  if maxBtDepth < b.levl then false                                                 -- DBBLEVMX
  else if b.levl = 0 ∧ (env.blk = 1 ∨ env.blk = env.root) then false                -- DBROOTBURN
  else if b.bsiz < (if b.levl = 0 then blkHdrSize else blkHdrSize + bstarRecSize b.longBlkId) then false -- DBBSIZMN
  else if env.blkSize < b.bsiz then false                                           -- DBBSIZMX
  else
    certLoop env b b.bsiz
      { firstKey := true, minCmpc := 0, priorExpkey := [], prevChild := 0, nextTpChild := none,
        isDirectory := (env.root == 1 && env.muSwap != .incrRootCycle) || env.muSwap == .directorySwap,
        isGvt := env.root != 0 && env.root != 1 && env.muSwap == .none } blkHdrSize

end Gtm
