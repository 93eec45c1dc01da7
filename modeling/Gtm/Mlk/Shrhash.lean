import Gtm.Hash.Mmrhash
import Gtm.Mlk.Shrblk

/-!
# The hash table of the lock tree

A node of the lock tree is looked up by a hash of its subscripts from the top (`mlkdef.h`, `mlk_shrblk_find.c`, `mlk_shrblk_create.c`,
`mlk_shrhash_find_bucket.c`, `mlk_shrblk_delete_if_empty.c`, `mlk_rehash.c`). An entry stands in its bucket or one of the 31 after it,
and the map of the bucket says where; `mlk_rehash` fills the table again with another seed.

A node is the number of its block, and no node is 0. The subscripts of a node stand in the tree and, as the routines that come from the
hash table read them, in `shrblk`.
-/

namespace Gtm

/-- `mlk_shrhash`. -/
structure MlkShrhash where
  shrblkIdx : Nat := 0
  usedmap : BitVec 32 := 0
  hash : BitVec 32 := 0
deriving DecidableEq

/-- `mlk_shrblk`, as it is seen from the hash table. A parent of 0 is none. -/
structure HashedShrblk where
  parent : Nat
  value : List UInt8
  hash : BitVec 32

/-- `MLK_SHRHASH_NEIGHBORS`. -/
def mlkShrhashNeighbors : Nat := 32

/-- What `mlk_pvtctl` and `mlk_ctldata` hold for the hash table, and the blocks. -/
structure MlkHash where
  shrhash : Nat → MlkShrhash
  shrhashSize : Nat
  shrblk : Nat → HashedShrblk
  hashSeed : BitVec 64
  hashFailCnt : Nat
  numBlkhash : Nat
  maxBlkcnt : Nat
  blkcnt : Nat
  gcNeeded : Bool
  resizeNeeded : Bool
  rehashNeeded : Bool

/-- `SET_NEIGHBOR`. -/
def setNeighbor (map : BitVec 32) (offset : Nat) : BitVec 32 := map ||| 1#32 <<< offset

/-- `CLEAR_NEIGHBOR`. -/
def clearNeighbor (map : BitVec 32) (offset : Nat) : BitVec 32 := map &&& ~~~(1#32 <<< offset)

namespace MlkHash

/-- A bucket changed. -/
def modify (m : MlkHash) (i : Nat) (f : MlkShrhash → MlkShrhash) : MlkHash :=
  { m with shrhash := Function.update m.shrhash i (f (m.shrhash i)) }

/-- The hash of a block changed. -/
def setHash (m : MlkHash) (d : Nat) (hash : BitVec 32) : MlkHash :=
  { m with shrblk := fun x => if x = d then { m.shrblk d with hash } else m.shrblk x }

/-- How far bucket `i` is behind bucket `bi`. -/
def behind (m : MlkHash) (i bi : Nat) : Nat := (m.shrhashSize + i - bi) % m.shrhashSize

/-- The bucket after `i`. -/
def next (m : MlkHash) (i : Nat) : Nat := (i + 1) % m.shrhashSize

end MlkHash

/-! ## Looking up -/

/-- The loop of `mlk_shrhash_find` and `mlk_shrhash_delete`, for the bits of the map that are left: the bucket with the hash and the
node that is looked for. -/
def neighborLoop (m : MlkHash) (hash : BitVec 32) (found : Nat → Bool) : Nat → Nat → BitVec 32 → Option Nat
  | 0, _, _ => none
  | k + 1, si, usedmap =>
    if usedmap = 0 then none
    else if usedmap.getLsbD 0 = false then neighborLoop m hash found k (m.next si) (usedmap >>> 1)
    else if (m.shrhash si).hash ≠ hash then neighborLoop m hash found k (m.next si) (usedmap >>> 1)
    else if !found (m.shrhash si).shrblkIdx then neighborLoop m hash found k (m.next si) (usedmap >>> 1)
    else some si

/-- The test of `mlk_shrhash_find`: the node has the parent and the subscript. -/
def MlkHash.isChild (m : MlkHash) (parent : Nat) (subval : List UInt8) (idx : Nat) : Bool :=
  (m.shrblk idx).parent == parent && (m.shrblk idx).value == subval

/-- `mlk_shrhash_find`, with the hash of the private block. -/
def mlkShrhashFind (m : MlkHash) (hash : BitVec 32) (subval : List UInt8) (parent : Nat) : Option Nat :=
  let bi := hash.toNat % m.shrhashSize
  (neighborLoop m hash (m.isChild parent subval) mlkShrhashNeighbors bi (m.shrhash bi).usedmap).map fun si => (m.shrhash si).shrblkIdx

/-! ## Adding -/

/-- The search for a free bucket of `mlk_shrhash_find_bucket`: `none` when the table is full. -/
def probeFree (m : MlkHash) (bi : Nat) : Nat → Nat → Option Nat
  | 0, _ => none
  | k + 1, fi =>
    if (m.shrhash fi).shrblkIdx = 0 then some fi else if m.next fi = bi then none else probeFree m bi k (m.next fi)

/-- The bucket of the first bit of a map, `mi` being that of its lowest bit, unless it is not before the free bucket. -/
def earliestUsed (m : MlkHash) (fi : Nat) : Nat → Nat → BitVec 32 → Option Nat
  | 0, _, _ => none
  | k + 1, mi, usedmap =>
    if usedmap.getLsbD 0 = false ∧ mi ≠ fi then earliestUsed m fi k (m.next mi) (usedmap >>> 1)
    else if mi ≠ fi then some mi
    else none

/-- A bucket from `si` on with a neighbor that can be moved to the free bucket, and that neighbor. -/
def findMove (m : MlkHash) (fi : Nat) : Nat → Nat → Option (Nat × Nat)
  | 0, _ => none
  | k + 1, si =>
    if si = fi then none
    else if (m.shrhash si).usedmap = 0 then findMove m fi k (m.next si)
    else match earliestUsed m fi mlkShrhashNeighbors si (m.shrhash si).usedmap with
      | some mi => some (si, mi)
      | none => findMove m fi k (m.next si)

/-- `mlk_shrhash_find_bucket` gives up, and asks for something else to be done. -/
def MlkHash.giveUp (m : MlkHash) : MlkHash :=
  let m :=
    if m.hashFailCnt = 0 then { m with gcNeeded := true }
    else if m.hashFailCnt = 1 then
      if m.numBlkhash > (m.maxBlkcnt - m.blkcnt) * 2 then { m with rehashNeeded := true } else { m with resizeNeeded := true }
    else m
  { m with hashFailCnt := m.hashFailCnt + 1 }

/-- The entry in bucket `mi`, which is that of `si`, moved to the free bucket. -/
def MlkHash.moveBucket (m : MlkHash) (si mi fi : Nat) : MlkHash :=
  let entry := m.shrhash mi
  ((m.modify fi fun b => { b with shrblkIdx := entry.shrblkIdx, hash := entry.hash }).modify mi
    fun b => { b with shrblkIdx := 0, hash := 0 }).modify si
      fun b => { b with usedmap := setNeighbor (clearNeighbor b.usedmap (m.behind mi si)) (m.behind fi si) }

/-- The second loop of `mlk_shrhash_find_bucket`: each turn brings the free bucket closer to `bi`, so that `shrhashSize` turns are
enough. -/
def closerBucket (bi : Nat) : Nat → MlkHash → Nat → MlkHash × Option Nat
  | 0, m, _ => (m, none)
  | k + 1, m, fi =>
    if mlkShrhashNeighbors ≤ m.behind fi bi then
      match findMove m fi mlkShrhashNeighbors ((m.shrhashSize + fi - mlkShrhashNeighbors + 1) % m.shrhashSize) with
      | none => (m.giveUp, none)
      | some (si, mi) => closerBucket bi k (m.moveBucket si mi fi) mi
    else (m, some fi)

/-- `mlk_shrhash_find_bucket`: `none` stands for -1. -/
def mlkShrhashFindBucket (m : MlkHash) (hash : BitVec 32) : MlkHash × Option Nat :=
  let bi := hash.toNat % m.shrhashSize
  match probeFree m bi m.shrhashSize bi with
  | none => (m, none)
  | some fi => closerBucket bi m.shrhashSize m fi

/-- `mlk_shrhash_insert`. -/
def mlkShrhashInsert (m : MlkHash) (bucketIdx targetIdx shrblkIdx : Nat) (hash : BitVec 32) : MlkHash :=
  (m.modify targetIdx fun b => { b with shrblkIdx, hash }).modify bucketIdx
    fun b => { b with usedmap := setNeighbor b.usedmap (m.behind targetIdx bucketIdx) }

/-- `mlk_shrhash_add`. -/
def mlkShrhashAdd (m : MlkHash) (shr : Nat) : MlkHash × Bool :=
  let hash := (m.shrblk shr).hash
  let bi := hash.toNat % m.shrhashSize
  if (m.shrhash bi).shrblkIdx = 0 then
    (m.modify bi fun b => { shrblkIdx := shr, hash, usedmap := setNeighbor b.usedmap 0 }, true)
  else match mlkShrhashFindBucket m hash with
    | (m, none) => (m, false)
    | (m, some fi) => (mlkShrhashInsert m bi fi shr hash, true)

/-! ## Deleting -/

/-- `mlk_shrhash_delete`. -/
def mlkShrhashDelete (m : MlkHash) (d : Nat) : MlkHash :=
  let hash := (m.shrblk d).hash
  let bi := hash.toNat % m.shrhashSize
  match neighborLoop m hash (fun idx => idx == d) mlkShrhashNeighbors bi (m.shrhash bi).usedmap with
  | some si =>
    (m.modify si fun b => { b with shrblkIdx := 0, hash := 0 }).modify bi
      fun b => { b with usedmap := clearNeighbor b.usedmap (m.behind si bi) }
  | none => m

/-! ## Hashes of subscripts -/

/-- `MLK_SUBHASH_INIT` and `MLK_SUBHASH_INIT_PVTCTL`: the seed is a word of 64 bits here. -/
def mlkSubhashInit (hashSeed : BitVec 64) : Hash128State := { h := ⟨hashSeed, hashSeed⟩, c := ⟨0, 0⟩, carryBytes := 0 }

/-- `MLK_SUBHASH_FINALIZE` and `MLK_SUBHASH_RES_VAL`. -/
def mlkSubhashVal (state : Hash128State) (length : BitVec 32) : BitVec 32 := (gtmmrhash128Result state length).2.one.setWidth 32

/-- Where the bytes that are hashed lie, and whether the machine can read words anywhere. -/
structure HashPlaces where
  unalignedSafe : Bool
  /-- The address of the `mlk_shrsub` of a node. -/
  shrsub : Nat → Nat
  /-- The address of the value of the private block. -/
  pvtValue : Nat

/-- The loop of `MLK_PVTBLK_SUBHASH_GEN` over the subscripts that are left, from byte `cp` of the value on. -/
def pvtblkSubhashLoop (pl : HashPlaces) (value : List UInt8) : Nat → Nat → Hash128State → List (BitVec 32)
  | 0, _, _ => []
  | hi + 1, cp, accstate =>
    let n := (value.getD cp 0).toNat + 1
    let accstate := gtmmrhash128Ingest pl.unalignedSafe accstate (pl.pvtValue + cp) ((value.drop cp).take n)
    mlkSubhashVal accstate (BitVec.ofNat 32 (cp + n)) :: pvtblkSubhashLoop pl value hi (cp + n) accstate

/-- `MLK_PVTBLK_SUBHASH_GEN`. -/
def mlkPvtblkSubhashGen (pl : HashPlaces) (hashSeed : BitVec 64) (value : List UInt8) (subscriptCnt : Nat) : List (BitVec 32) :=
  pvtblkSubhashLoop pl value subscriptCnt 0 (mlkSubhashInit hashSeed)

/-- `mlk_shrhash_val_build`: the length and the state after the node, which a walk to a node with no parent ends in. -/
def mlkShrhashValBuild (pl : HashPlaces) (m : MlkHash) : Nat → Nat → BitVec 32 × Hash128State → Option (BitVec 32 × Hash128State)
  | 0, _, _ => none
  | k + 1, d, acc => do
    let (totalLen, hs) ← if (m.shrblk d).parent ≠ 0 then mlkShrhashValBuild pl m k (m.shrblk d).parent acc else some acc
    let value := (m.shrblk d).value
    some (totalLen + BitVec.ofNat 32 (value.length + 1),
      gtmmrhash128Ingest pl.unalignedSafe hs (pl.shrsub d + 8) (UInt8.ofNat value.length :: value))

/-! ## Filling the table again -/

/-- `mlk_rehash_tree`: `none` stands for -1. -/
def mlkRehashTree (pl : HashPlaces) : ShrForest (List UInt8) → Hash128State → BitVec 32 → MlkHash → MlkHash × Option Nat
  | .empty, _, _, m => (m, some 0)
  | .node node children rsib, parentState, parentLen, m =>
    let nodeState := gtmmrhash128Ingest pl.unalignedSafe parentState (pl.shrsub node.idx + 8) [UInt8.ofNat node.value.length]
    let nodeState := gtmmrhash128Ingest pl.unalignedSafe nodeState (pl.shrsub node.idx + 9) node.value
    let nodeLen := BitVec.ofNat 32 (1 + node.value.length)
    let hash := mlkSubhashVal nodeState (parentLen + nodeLen)
    match mlkShrhashAdd (m.setHash node.idx hash) node.idx with
    | (m, false) => (m, none)
    | (m, true) =>
      match mlkRehashTree pl children nodeState (parentLen + nodeLen) m with
      | (m, none) => (m, none)
      | (m, some childCount) =>
        match mlkRehashTree pl rsib parentState parentLen m with
        | (m, none) => (m, none)
        | (m, some count) => (m, some (1 + childCount + count))

/-- The table cleared for the next seed. -/
def MlkHash.reseed (m : MlkHash) : MlkHash :=
  { m with shrhash := fun i => if i < m.shrhashSize then {} else m.shrhash i, hashSeed := m.hashSeed + 1 }

/-- The loop of `mlk_rehash`, `k` times at most: the table is cleared and filled with the next seed until no node is left out. -/
def mlkRehash (pl : HashPlaces) (root : ShrForest (List UInt8)) : Nat → MlkHash → Option MlkHash
  | 0, _ => none
  | k + 1, m =>
    let m := m.reseed
    match if root.isEmpty then (m, some 0) else mlkRehashTree pl root (mlkSubhashInit m.hashSeed) 0 m with
    | (m, none) => mlkRehash pl root k m
    | (m, some _) => some { m with gcNeeded := false, resizeNeeded := false, rehashNeeded := false }

/-! ## The path of a private block -/

/-- What `mlk_pvtblk` holds of an nref: each subscript with its length before it, and the hashes for a seed. -/
structure PvtNref where
  value : List UInt8
  subscriptCnt : Nat
  hashSeed : BitVec 64
  subhash : List (BitVec 32)

/-- `MLK_PVTBLK_SUBHASH_SYNC`. -/
def mlkPvtblkSubhashSync (pl : HashPlaces) (m : MlkHash) (p : PvtNref) : PvtNref :=
  if p.hashSeed ≠ m.hashSeed then
    { p with hashSeed := m.hashSeed, subhash := mlkPvtblkSubhashGen pl m.hashSeed p.value p.subscriptCnt }
  else p

/-- The nodes that the loop of `mlk_shrblk_find` finds, up to the first it would create. -/
def shrblkFindLoop (m : MlkHash) (p : PvtNref) : Nat → Nat → Nat → List Nat
  | 0, _, _ => []
  | i + 1, cp, pnt =>
    let slen := (p.value.getD cp 0).toNat
    match mlkShrhashFind m (p.subhash.getD (p.subscriptCnt - (i + 1)) 0) ((p.value.drop (cp + 1)).take slen) pnt with
    | none => []
    | some d => d :: shrblkFindLoop m p i (cp + 1 + slen) d

/-- The nodes of the path of a private block that are there. -/
def mlkShrblkPath (pl : HashPlaces) (m : MlkHash) (p : PvtNref) : List Nat :=
  shrblkFindLoop m (mlkPvtblkSubhashSync pl m p) p.subscriptCnt 0 0

end Gtm
