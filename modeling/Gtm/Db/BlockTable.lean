import Mathlib

/-!
# The block table

The table of recently updated blocks that commits are validated against (`bt_get.c`, `bt_put.c`, `bt_refresh.c`): `n_bts` records,
each on the hash chain of its block and on the queue `tnque`, which puts the record updated last at its tail. A queue is the list
of the numbers of its records, from its head.
-/

namespace Gtm

/-- A `bt_rec`: the block it stands for (`none` is `BT_NOTVALID`), the number of the transaction that updated the block last and
that of the last one that changed it in a way a search path has to notice. -/
structure BtRec where
  blk : Option Nat
  tn : Nat
  killtn : Nat
deriving DecidableEq, Repr

/-- The records with their hash chains and their queue. -/
structure BlockTable where
  nBts : Nat
  btBuckets : Nat
  recs : Nat → BtRec
  chain : Nat → List Nat
  tnque : List Nat

namespace BlockTable

/-- `csa->bt_header + (block % bt_buckets)`. -/
def bucket (t : BlockTable) (block : Nat) : Nat := block % t.btBuckets

/-- `bt_refresh` with `init`: every record is invalid and on the queue, and the oldest one carries the number before `currTn`.
`bt1` is the chain each record starts on (its own number, in the code). -/
def btRefresh (nBts btBuckets : Nat) (bt1 : Nat → Nat) (currTn : Nat) : BlockTable where
  nBts := nBts
  btBuckets := btBuckets
  recs i := { blk := none, tn := if i = 0 then currTn - 1 else 0, killtn := 0 }
  chain c := (List.range nBts).filter fun i => bt1 i = c
  tnque := List.range nBts

/-- The walk along a chain for a block, at most `lcnt` records long: the record of the block, or that the queue head was reached;
`none` when the walk is cut off. -/
def findChain (recs : Nat → BtRec) (block : Nat) : Nat → List Nat → Option (Option Nat)
  | 0, _ => none
  | _ + 1, [] => some none
  | lcnt + 1, i :: rest => if (recs i).blk = some block then some (some i) else findChain recs block lcnt rest

/-- `bt_get`: the record of a block. A walk that is cut off answers as one that found nothing. -/
def btGet (t : BlockTable) (block : Nat) : Option Nat := (findChain t.recs block t.nBts (t.chain (t.bucket block))).join

/-- `bt_put`: the record of the block, moved to the tail of `tnque`, or the oldest record taken off its chain and given to the
block; either way it carries `currTn`. `none` is `ERR_BTFAIL`. -/
def btPut (t : BlockTable) (block currTn : Nat) : Option BlockTable :=
  match findChain t.recs block (t.nBts + 1) (t.chain (t.bucket block)), t.tnque with
  | none, _ => none
  | some (some i), _ =>
    some { t with
      recs := Function.update t.recs i { t.recs i with tn := currTn }
      tnque := t.tnque.erase i ++ [i] }
  | some none, [] => none
  | some none, i :: rest =>
    -- a record is on one chain only, so taking it off every chain takes it off its own
    some { t with
      recs := Function.update t.recs i { blk := some block, tn := currTn, killtn := currTn }
      chain := fun c => (t.chain c).erase i ++ if c = t.bucket block then [i] else []
      tnque := rest ++ [i] }

/-- `bt_put` for every block of a write set. -/
def btPutAll (t : BlockTable) (currTn : Nat) : List Nat → Option BlockTable
  | [] => some t
  | block :: rest => (t.btPut block currTn).bind fun t' => t'.btPutAll currTn rest

/-- `OLDEST_HIST_TN`: the number the head of `tnque` carries. -/
def oldestHistTn (t : BlockTable) : Nat := (t.tnque.head?.map fun i => (t.recs i).tn).getD 0

end BlockTable

end Gtm
