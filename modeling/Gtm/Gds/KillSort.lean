import Gtm.Stp.Sort
import Gtm.Tp.TlevelInfo

/-!
# `gvcst_kill_sort`

The sort of a kill set by block number (`gvcst_kill_sort.c`). The loop is that of `stpg_sort`; the pivot is the middle one of three
entries, and the scans run without a bound: the pivot at the end stops the one, an entry that is not above the pivot the other.
-/

namespace Gtm

/-- The bits of a `blk_ident`, 62 of them for the block number, read as a `block_id`, a signed number of 64 bits. -/
def BlkIdent.blockId (b : BlkIdent) : Int :=
  ((b.block % 2 ^ 62 + b.level % 2 * 2 ^ 62 + b.flag % 2 * 2 ^ 63 : Nat) : Int).bmod (2 ^ 64)

/-- The choice of the pivot: the place of the middle one of the entries at `l`, `r` and between them. -/
def killPivot (n l r : Nat) (arr : Nat → BlkIdent) : Option Nat :=
  (middle l r).bind fun kx =>
  (cellRead n arr l).bind fun i => (cellRead n arr r).bind fun j => (cellRead n arr kx).bind fun k =>
    some (if i.blockId > j.blockId then
        if j.blockId > k.blockId then r else if i.blockId > k.blockId then kx else l
      else if j.blockId < k.blockId then r else if i.blockId > k.blockId then l else kx)

/-- `do ix++; while (*ix < t)`, from the `ix` after the increment, with `cnt` places to try. -/
def killScanUp (n : Nat) (t : Int) (arr : Nat → BlkIdent) : Nat → Nat → Option Nat
  | 0, _ => none
  | cnt + 1, ix => (cellRead n arr ix).bind fun u => if u.blockId < t then killScanUp n t arr cnt (ix + 1) else some ix

/-- `do jx--; while (*jx > t)`. -/
def killScanDown (n : Nat) (t : Int) (arr : Nat → BlkIdent) : Nat → Option Nat
  | 0 => none
  | jx + 1 => (cellRead n arr jx).bind fun u => if u.blockId > t then killScanDown n t arr jx else some jx

/-- One partition of `gvcst_kill_sort`. -/
def killPartition (n l r : Nat) (arr : Nat → BlkIdent) : Option ((Nat → BlkIdent) × Nat) :=
  (killPivot n l r arr).bind fun kx =>
    partitionIn n (fun v arr ix => killScanUp n v.blockId arr (n + 1 - ix) ix) (fun v arr jx => killScanDown n v.blockId arr jx)
      kx l r arr

/-- `gvcst_kill_sort` of a kill set with `used` entries. -/
def gvcstKillSort (used : Nat) (blk : Nat → BlkIdent) : Option (Nat → BlkIdent) :=
  Segment.sortSegs stackSegs sCutoff (insertionIn BlkIdent.blockId used) (killPartition used) (2 * used + 1) [] (0, used) blk

end Gtm
