import Gtm.Gds.BlkMaps

/-!
# Blocks of a changed bitmap

A TP transaction chooses its new blocks before it commits. When another process has changed the local bitmap meanwhile,
`reallocate_bitmap` chooses again for the elements of the update set that acquire a block from it, in crit (`tp_tend.c`). The elements
are the latest of their horizontal lists. A null pointer is none, and a buffer is told by its address.
-/

namespace Gtm

namespace Realloc

/-- `BLKS_PER_LMAP`. -/
def blksPerLmap : Nat := 512

/-- The header of a block in a buffer. -/
structure BlkHdr where
  bsiz : Nat
  tn : Nat

/-- `cache_rec`, with the header of the block in its buffer. -/
structure CacheRec where
  blk : Nat
  readInProgress : Int
  cycle : Nat
  inTend : Bool
  ondskBlkver : Nat
  buffaddr : Nat
  hdr : BlkHdr

/-- What a read returns: the address of the block, its cycle and cache record; or the reason why it has failed. -/
abbrev QreadOut := Except Nat (Nat × Nat × Option Nat)

/-- The region. A cache record that `db_csh_get` finds is one of the block. -/
structure Env where
  isMm : Bool
  totalBlks : Nat
  blkSize : Nat
  currTn : Nat
  dbGotToV5Once : Bool
  /-- The epoch of the journal buffer, if there is before-image journaling. -/
  jbp : Option Nat
  backupInProg : Bool
  snapshotInProg : Bool
  ssChkShdwBitmap : Nat → Bool
  cr : Nat → CacheRec
  dbCshGet : Nat → Option Nat
  dbCshGet_blk {blk i : Nat} : dbCshGet blk = some i → (cr i).blk = blk
  tQread : Nat → QreadOut
  jnlGetChecksum : Nat → Nat → Nat

/-- `gds_t_mode`, as far as it matters. -/
inductive Mode where
  | acquired
  | other
deriving DecidableEq, Repr

/-- `cw_set_element` of a block that is no bitmap. -/
structure Cse where
  mode : Mode
  blk : Nat
  blkPriorState : UInt32
  oldBlock : Option Nat
  cr : Option Nat
  cycle : Nat
  tn : Nat
  blkChecksum : Nat

/-- `cw_set_element` of a bitmap: its buffer, and the update array. -/
structure BmlCse where
  blk : Nat
  cr : Nat
  buffaddr : Nat
  hdr : BlkHdr
  base : Nat → UInt8
  updAddr : List Nat
  blkChecksum : Nat
  ondskBlkver : Nat

/-- The codes `cdb_sc` with which it returns, one of them with the detail of a failed read. -/
inductive Sc where
  | normal
  | bmlmod
  | lostbmlcr
  | rdfail (detail : Nat)
deriving DecidableEq, Repr

/-- `BIT_SET_RECYCLED_AND_CLEAR_FREE`. -/
def bitSetRecycledAndClearFree (x : UInt32) : UInt32 := (x &&& 0xfffffffc) + 2

/-- `BIT_CLEAR_RECYCLED_AND_SET_FREE`. -/
def bitClearRecycledAndSetFree (x : UInt32) : UInt32 := (x &&& 0xfffffffc) + 1

/-- `WAS_FREE`. -/
def wasFree (x : UInt32) : Bool := x &&& 1 ≠ 0

/-- `WAS_RECYCLED`. -/
def wasRecycled (x : UInt32) : Bool := x &&& 2 ≠ 0

/-- `ONLY_SS_BEFORE_IMAGES`. -/
def onlySsBeforeImages (env : Env) : Bool := env.snapshotInProg && !env.backupInProg && !env.jbp.isSome

/-- `BEFORE_IMAGE_NEEDED`. -/
def beforeImageNeeded (env : Env) (readBeforeImage : Bool) (blkPriorState : UInt32) (blkNo : Nat) : Bool :=
  let retval := readBeforeImage && env.dbGotToV5Once
  let retval := retval && (!wasFree blkPriorState || env.snapshotInProg)
  retval && (!onlySsBeforeImages env || !env.ssChkShdwBitmap blkNo)

/-- `read_before_image`. -/
def readBeforeImage (env : Env) : Bool := env.jbp.isSome || env.backupInProg || env.snapshotInProg

/-- `JNL_GET_CHECKSUM_ACQUIRED_BLK`, where the element has a cache record. -/
def jnlGetChecksumAcquiredBlk (env : Env) (cse : Cse) (i bsize : Nat) : Cse :=
  { cse with
    tn := if (env.cr i).inTend then 0 else env.currTn
    blkChecksum := env.jnlGetChecksum (env.cr i).buffaddr bsize }

/-- What comes of a free block: the element has it, or the search goes on behind it, or the transaction restarts. -/
inductive Try where
  | taken (cse : Cse)
  | skipped (cse : Cse)
  | failed (cse : Cse) (status : Sc)

/-- The condition under which the before-image is pointed to again. -/
def mustRepoint (env : Env) (cse : Cse) (i : Nat) : Bool :=
  cse.oldBlock = none || cse.cr ≠ some i || cse.cycle ≠ (env.cr i).cycle || cse.tn ≤ (env.cr i).hdr.tn

/-- The body of the loop behind `bm_find_blk`. -/
def tryBlk (env : Env) (bml freeBit : Nat) (blkUsed : Bool) (cse : Cse) : Try :=
  let cse := { cse with blk := bml + freeBit }
  if cse.blk ≥ env.totalBlks then .failed cse .lostbmlcr
  else
    let cse := { cse with
      blkPriorState :=
        if blkUsed then bitSetRecycledAndClearFree cse.blkPriorState else bitClearRecycledAndSetFree cse.blkPriorState }
    if beforeImageNeeded env (readBeforeImage env) cse.blkPriorState cse.blk = false then
      .taken { cse with oldBlock := none, blkChecksum := 0 }
    else if env.isMm = false then
      match env.dbCshGet cse.blk with
      | none => .skipped cse
      | some i =>
        if 0 ≤ (env.cr i).readInProgress then .skipped cse
        else if mustRepoint env cse i then
          let cse := { cse with oldBlock := some (env.cr i).buffaddr, cr := some i, cycle := (env.cr i).cycle }
          match env.jbp with
          | none => .taken cse
          | some epochTn =>
            if wasFree cse.blkPriorState then .taken cse
            else if (env.cr i).hdr.tn < epochTn then
              if (env.cr i).hdr.bsiz > env.blkSize then .skipped cse
              else .taken (jnlGetChecksumAcquiredBlk env cse i (env.cr i).hdr.bsiz)
            else .taken { cse with blkChecksum := 0 }
        else .taken cse
    else
      match env.tQread cse.blk with
      | .error detail => .failed { cse with oldBlock := none } (.rdfail detail)
      | .ok (addr, cycle, cr) => .taken { cse with oldBlock := some addr, cycle := cycle, cr := cr }

/-- What the search for one element comes to: the block that it has, or the code with which the function returns. -/
structure Found where
  cse : Cse
  result : Except Sc Nat

/-- The inner loop. -/
def findFor (env : Env) (bml mapSize : Nat) (base : Nat → UInt8) : Nat → Nat → Cse → Option Found
  | 0, _, _ => none
  | fuel + 1, offset, cse =>
    if offset ≥ mapSize then some ⟨cse, .error .bmlmod⟩
    else
      match bmFindBlk offset base mapSize with
      | none => some ⟨cse, .error .bmlmod⟩
      | some (freeBit, blkUsed) =>
        match tryBlk env bml freeBit blkUsed cse with
        | .taken cse => some ⟨cse, .ok freeBit⟩
        | .skipped cse => findFor env bml mapSize base fuel (freeBit + 1) cse
        | .failed cse status => some ⟨cse, .error status⟩

/-- The update set and the update array behind the loop. -/
structure LoopOut where
  status : Sc
  cses : List Cse
  updAddr : List Nat

/-- The element acquires a block of the bitmap. -/
def ofBitmap (bml : Nat) (cse : Cse) : Bool := cse.mode = .acquired && cse.blk / blksPerLmap * blksPerLmap = bml

/-- The outer loop, from an element on; `ptr` is the place in the update array. -/
def reallocLoop (env : Env) (bml mapSize : Nat) (base : Nat → UInt8) : List Cse → Nat → Nat → List Nat → Option LoopOut
  | [], _, _, updAddr => some ⟨.normal, [], updAddr⟩
  | cse :: cses, offset, ptr, updAddr =>
    if ofBitmap bml cse = false then
      (reallocLoop env bml mapSize base cses offset ptr updAddr).map fun out => { out with cses := cse :: out.cses }
    else
      (findFor env bml mapSize base (mapSize + 1) offset cse).bind fun f =>
        match f.result with
        | .error status => some ⟨status, f.cse :: cses, updAddr⟩
        | .ok freeBit =>
          (reallocLoop env bml mapSize base cses (freeBit + 1) (ptr + 1) (updAddr.set ptr freeBit)).map fun out =>
            { out with cses := f.cse :: out.cses }

/-- The blocks of the bitmap: the last one may have fewer. -/
def mapSize (env : Env) (bml : Nat) : Nat :=
  if env.totalBlks / blksPerLmap * blksPerLmap = bml then env.totalBlks - bml else blksPerLmap

/-- What the function leaves. -/
structure Out where
  status : Sc
  cses : List Cse
  bml : BmlCse

end Realloc

open Realloc

/-- `reallocate_bitmap`. -/
def reallocateBitmap (env : Env) (cses : List Cse) (bmlCse : BmlCse) : Option Out :=
  let bml := bmlCse.blk
  if env.isMm = false ∧ (env.cr bmlCse.cr).inTend = true then some ⟨.lostbmlcr, cses, bmlCse⟩
  else
    (reallocLoop env bml (mapSize env bml) bmlCse.base cses 0 0 bmlCse.updAddr).map fun out =>
      let bmlCse := { bmlCse with updAddr := out.updAddr }
      if out.status ≠ .normal then ⟨out.status, out.cses, bmlCse⟩
      else
        let blkver := if env.isMm = false then (env.cr bmlCse.cr).ondskBlkver else bmlCse.ondskBlkver
        match env.jbp with
        | none => ⟨.normal, out.cses, { bmlCse with ondskBlkver := blkver }⟩
        | some epochTn =>
          if bmlCse.hdr.tn < epochTn then
            if bmlCse.hdr.bsiz > env.blkSize then ⟨.lostbmlcr, out.cses, bmlCse⟩
            else
              let sum := env.jnlGetChecksum bmlCse.buffaddr bmlCse.hdr.bsiz
              ⟨.normal, out.cses, { bmlCse with blkChecksum := sum, ondskBlkver := blkver }⟩
          else ⟨.normal, out.cses, { bmlCse with blkChecksum := 0, ondskBlkver := blkver }⟩

/-! ## What it does -/

namespace Realloc

section Spec

variable (env : Env) (bml : Nat) (base : Nat → UInt8)

/-- The search for one element: the blocks that are passed over, and the one that it has. -/
inductive Search : Nat → Cse → List Nat → Cse → Nat → Prop where
  | taken {offset freeBit : Nat} {used : Bool} {cse cse' : Cse} (hlt : offset < mapSize env bml)
      (hfind : bmFindBlk offset base (mapSize env bml) = some (freeBit, used)) (htry : tryBlk env bml freeBit used cse = .taken cse') :
      Search offset cse [] cse' freeBit
  | skipped {offset freeBit b : Nat} {used : Bool} {cse cse' cse'' : Cse} {skipped : List Nat} (hlt : offset < mapSize env bml)
      (hfind : bmFindBlk offset base (mapSize env bml) = some (freeBit, used)) (htry : tryBlk env bml freeBit used cse = .skipped cse')
      (hrest : Search (freeBit + 1) cse' skipped cse'' b) : Search offset cse (freeBit :: skipped) cse'' b

/-- The search for all of them: the blocks that are passed over, and those that are handed out. -/
inductive Assigned : Nat → List Cse → List Nat → List Nat → List Cse → Prop where
  | nil (offset : Nat) : Assigned offset [] [] [] []
  | other {offset : Nat} {cse : Cse} {cses out : List Cse} {skipped given : List Nat} (hother : ofBitmap bml cse = false)
      (hrest : Assigned offset cses skipped given out) : Assigned offset (cse :: cses) skipped given (cse :: out)
  | next {offset b : Nat} {cse cse' : Cse} {cses out : List Cse} {skipped skipped' given : List Nat} (hof : ofBitmap bml cse = true)
      (hsearch : Search env bml base offset cse skipped cse' b) (hrest : Assigned (b + 1) cses skipped' given out) :
      Assigned offset (cse :: cses) (skipped ++ skipped') (b :: given) (cse' :: out)

/-- The block has a size that fits, where a before-image of it goes to the journal. -/
def SizeOk (used : Bool) (i : Nat) : Prop :=
  ∀ epochTn, env.jbp = some epochTn → used = true → (env.cr i).hdr.tn < epochTn → (env.cr i).hdr.bsiz ≤ env.blkSize

/-- The before-image of a block is at hand, or none is needed: it is in a buffer that is not being read, and is one that can go to the
journal or is held already. -/
def AtHand (held : Nat → Prop) (blk : Nat) (used : Bool) : Prop :=
  beforeImageNeeded env (readBeforeImage env) (if used then 2 else 1) blk = true →
    if env.isMm then ∃ r, env.tQread blk = .ok r
    else ∃ i, env.dbCshGet blk = some i ∧ (env.cr i).readInProgress < 0 ∧ (SizeOk env used i ∨ held i)

/-- A block of the bitmap that an element can have. -/
def Usable (cses : List Cse) (b : Nat) : Prop :=
  b < mapSize env bml ∧ getBmStatus base b ≠ .busy ∧
    AtHand env (fun i => ∃ cse ∈ cses, mustRepoint env cse i = false) (bml + b) (decide (getBmStatus base b = .recycled))

end Spec

/-- The numbers of the blocks that are acquired from the bitmap. -/
def acquiredBlks (bml : Nat) (cses : List Cse) : List Nat := (cses.filter (ofBitmap bml)).map Cse.blk

end Realloc

end Gtm
