import Gtm.Mlk.Shrblk

/-!
# The rings of the lock tree

`mlk_tree_wake_children`, `mlk_unlock` and `mlk_shrblk_delete_if_empty` on the blocks themselves: the children of a node are a ring of
blocks linked both ways, of which the node points to one, and nodes are taken from the ring that is being gone around. A pointer to a
block is its number, and 0 is the null pointer. What a routine visits, wakes and deletes is told besides, in order.
-/

namespace Gtm

/-- `mlk_shrblk` with its pointers to other nodes. -/
structure RingBlk (σ : Type) where
  node : MlkShrblk σ
  parent : Nat
  children : Nat
  lsib : Nat
  rsib : Nat

/-- The blocks of a lock space, `blkroot` and the counters. `spaceSize` is the distance from `mlk_ctldata` to `subtop`. -/
structure ShrHeap (σ : Type) where
  blk : Nat → RingBlk σ
  blkroot : Nat
  spaceSize : Nat
  ctl : MlkCtl

/-- What is told of a run: a node is visited, the first live process that waits for it is woken, if there is one, or it is deleted, as
it was. -/
inductive WakeEvent (σ : Type) where
  | visit (b : Nat)
  | wake (d : Nat) (woken : Option Nat)
  | delete (node : MlkShrblk σ) (children : Nat)

/-- `SIZEOF(mlk_shrblk)`. -/
def sizeofMlkShrblk : Nat := 88

/-- `INVALID_LSIB_MARKER`. -/
def invalidLsibMarker : Nat := 0x1ee4c0de

variable {σ : Type}

namespace ShrHeap

/-- A block changed. -/
def modify (h : ShrHeap σ) (d : Nat) (f : RingBlk σ → RingBlk σ) : ShrHeap σ :=
  { h with blk := Function.update h.blk d (f (h.blk d)) }

/-- `max_loop_tries`. -/
def maxLoopTries (h : ShrHeap σ) : Nat := h.spaceSize / sizeofMlkShrblk

/-- `mlk_wake_pending` of a block. -/
def mlkWakePending (alive : Nat → Bool) (h : ShrHeap σ) (d : Nat) : ShrHeap σ × WakeEvent σ :=
  let (node, ctl) := Gtm.mlkWakePending alive (h.blk d).node h.ctl
  ({ h.modify d fun b => { b with node } with ctl }, .wake d (node.pending.head?.map MlkPrcblk.processId))

/-- The pointers to a block that leaves its ring, led past it. -/
def unlink (h : ShrHeap σ) (d : Nat) : ShrHeap σ :=
  let p := (h.blk d).parent
  let l := (h.blk d).lsib
  let r := (h.blk d).rsib
  if d = r then
    if p = 0 then { h with blkroot := 0 } else h.modify p fun b => { b with children := 0 }
  else
    let h := (h.modify r fun b => { b with lsib := l }).modify l fun b => { b with rsib := r }
    let h := if p ≠ 0 ∧ (h.blk p).children = d then h.modify p fun b => { b with children := r } else h
    if h.blkroot = d then { h with blkroot := r } else h

/-- A block put on the list of free blocks. -/
def free (h : ShrHeap σ) (d : Nat) : ShrHeap σ :=
  { h.modify d fun b =>
      { node := { b.node with owner := 0, auxowner := 0, sequence := 0, pending := [] }
        parent := 0
        children := 0
        lsib := invalidLsibMarker
        rsib := h.ctl.blkfree.headD 0 } with
    ctl := { h.ctl with blkfree := d :: h.ctl.blkfree } }

/-- `mlk_shrblk_delete_if_empty`. -/
def mlkShrblkDeleteIfEmpty (h : ShrHeap σ) (d : Nat) : ShrHeap σ × Bool × List (WakeEvent σ) :=
  let b := h.blk d
  if b.children ≠ 0 ∨ b.node.owner ≠ 0 ∨ b.node.pending ≠ [] then (h, false, [])
  else ((h.unlink d).free d, true, [.delete b.node b.children])

/-- The loop of `mlk_tree_wake_children`, for `k` turns and levels at most. -/
def treeWakeLoop (alive : Nat → Bool) :
    Nat → ShrHeap σ → Nat → Nat → Nat → Nat → Bool → Option (ShrHeap σ × Bool × List (WakeEvent σ))
  | 0, _, _, _, _, _, _ => none
  | k + 1, h, bhead, b, bnext, lcnt, gotone =>
    if bnext ≠ bhead ∧ h.maxLoopTries > lcnt then do
      let (h, gotoneInSubtree, sub) ←
        (if (h.blk b).children ≠ 0 ∧ (h.blk b).node.owner = 0 then
          treeWakeLoop alive k h (h.blk b).children (h.blk b).children 0 0 false
        else some (h, false, []))
      let bnext := (h.blk b).rsib
      if gotoneInSubtree = false ∧ (h.blk b).node.pending ≠ [] ∧ (h.blk b).node.owner = 0 then
        let (h, woken) := h.mlkWakePending alive b
        let (h, gotone, rest) ← treeWakeLoop alive k h bhead bnext bnext (lcnt + 1) true
        some (h, gotone, .visit b :: sub ++ woken :: rest)
      else
        let (h, deleteStatus, deleted) := h.mlkShrblkDeleteIfEmpty b
        if deleteStatus = true ∧ b = bhead then
          let b' := if b = bnext then 0 else bnext
          let (h, gotone, rest) ← treeWakeLoop alive k h b' b' 0 (lcnt + 1) (gotone || gotoneInSubtree)
          some (h, gotone, .visit b :: sub ++ deleted ++ rest)
        else
          let (h, gotone, rest) ← treeWakeLoop alive k h bhead bnext bnext (lcnt + 1) (gotone || gotoneInSubtree)
          some (h, gotone, .visit b :: sub ++ deleted ++ rest)
    else some (h, gotone, [])

/-- `mlk_tree_wake_children`. -/
def mlkTreeWakeChildren (alive : Nat → Bool) (k : Nat) (h : ShrHeap σ) (d : Nat) :
    Option (ShrHeap σ × Bool × List (WakeEvent σ)) := treeWakeLoop alive k h d d 0 0 false

/-- The loop of `mlk_unlock` over a node and its ancestors, for `k` turns at most. -/
def unlockLoop (alive : Nat → Bool) : Nat → ShrHeap σ → Nat → Bool → Option (ShrHeap σ × List (WakeEvent σ))
  | 0, _, _, _ => none
  | k + 1, h, d, stopWaking =>
    if d = 0 then some (h, [])
    else do
      let pnt := (h.blk d).parent
      if stopWaking = false ∧ (h.blk d).node.pending ≠ [] ∧ (h.blk d).node.owner = 0 then
        let (h, woken) := h.mlkWakePending alive d
        let (h, rest) ← unlockLoop alive k h pnt true
        some (h, .visit d :: woken :: rest)
      else
        let (h, _, deleted) := h.mlkShrblkDeleteIfEmpty d
        let (h, rest) ← unlockLoop alive k h pnt stopWaking
        some (h, .visit d :: deleted ++ rest)

/-- `mlk_unlock` of the block `d`, which the process got with the sequence number told. -/
def mlkUnlock (alive : Nat → Bool) (k : Nat) (h : ShrHeap σ) (processId d : Nat) (sequence : UInt32) :
    Option (ShrHeap σ × List (WakeEvent σ)) :=
  if (h.blk d).node.owner = processId ∧ sequence = (h.blk d).node.sequence then do
    let h := { h.modify d fun b => { b with node := { b.node with owner := 0, sequence := h.ctl.lockSequence } } with
      ctl := h.ctl.nextSequence }
    let (h, stopWaking, sub) ←
      (if (h.blk d).children ≠ 0 ∧ (h.blk d).node.owner = 0 then h.mlkTreeWakeChildren alive k (h.blk d).children
      else some (h, false, []))
    let (h, up) ← unlockLoop alive k h d stopWaking
    some (h, sub ++ up)
  else some (h, [])

end ShrHeap

end Gtm
