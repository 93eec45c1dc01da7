import Gtm.Lv.AvlTree

/-!
# Copies of local variables

`LV_TREE_CLONE` with `lvAvlTreeCloneSubTree`, which copy a tree of a local variable with the trees of all further subscript levels
(`lv_tree.h`, `lv_tree.c`, `lv_var_clone.c`). Nodes, trees and base variables are known by their slots. The slots that
`lvtreenode_getslot` and `lvtree_getslot` will return are told by the sequences `nodeSlots` and `treeSlots`, and a slot keeps what it
holds until it is written. `Option` is the result of a recursion that may be cut off.
-/

namespace Gtm

variable {α : Type}

/-! ## The data -/

/-- What a tree hangs at (`sbs_parent`). -/
inductive SbsParent
  | base (lv : Nat)
  | node (p : Nat)
deriving DecidableEq

/-- A node (`lvTreeNode`) with its value and its links to the levels beside it. `aliasCont` is the base variable at `v.str.addr` if the
value is an alias container. -/
structure LvLevelNode (α : Type) extends LvTreeNode where
  v : α
  aliasCont : Option Nat
  sbsChild : Option Nat
  treeParent : Nat

/-- A tree (`lvTree`) with its place between the levels. -/
structure LvLevelTree extends LvAvlTree where
  ident : Nat
  sbsDepth : Nat
  baseLv : Nat
  sbsParent : SbsParent

/-- The fields of a base variable (`lv_val`) that the copy reads or writes. -/
structure LvBaseVar where
  children : Option Nat
  trefcnt : Int
  crefcnt : Int

/-- The slots of a symbol table. -/
structure LvHeap (α : Type) where
  node : Nat → LvLevelNode α
  tree : Nat → LvLevelTree
  base : Nat → LvBaseVar
  nodeSlots : Nat → Nat
  treeSlots : Nat → Nat

namespace LvHeap

variable (s : LvHeap α)

def modifyNode (p : Nat) (f : LvLevelNode α → LvLevelNode α) : LvHeap α := { s with node := Function.update s.node p (f (s.node p)) }

def modifyTree (q : Nat) (f : LvLevelTree → LvLevelTree) : LvHeap α := { s with tree := Function.update s.tree q (f (s.tree q)) }

def modifyBase (lv : Nat) (f : LvBaseVar → LvBaseVar) : LvHeap α := { s with base := Function.update s.base lv (f (s.base lv)) }

/-- `lvtreenode_getslot`. -/
def lvtreenodeGetslot : Nat × LvHeap α := (s.nodeSlots 0, { s with nodeSlots := fun i => s.nodeSlots (i + 1) })

/-- `lvtree_getslot`. -/
def lvtreeGetslot : Nat × LvHeap α := (s.treeSlots 0, { s with treeSlots := fun i => s.treeSlots (i + 1) })

/-- `INCR_TREFCNT`. -/
def incrTrefcnt (lv : Nat) : LvHeap α := s.modifyBase lv fun b => { b with trefcnt := b.trefcnt + 1 }

/-- `INCR_CREFCNT`. -/
def incrCrefcnt (lv : Nat) : LvHeap α := s.modifyBase lv fun b => { b with crefcnt := b.crefcnt + 1 }

/-- `sbs_child` of what a tree hangs at, which for a base variable is `LV_CHILD`. -/
def setSbsChild (parent : SbsParent) (q : Option Nat) : LvHeap α :=
  match parent with
  | .base lv => s.modifyBase lv fun b => { b with children := q }
  | .node p => s.modifyNode p fun n => { n with sbsChild := q }

end LvHeap

/-! ## The copy -/

/-- A subtree copied by `cloneSubTree` if it is not `NULL`. -/
def cloneRoot (cloneSubTree : Nat → Nat → Option Nat → LvHeap α → Option (Nat × LvHeap α)) (root : Option Nat) (lvt : Nat)
    (avlParent : Option Nat) (s : LvHeap α) : Option (Option Nat × LvHeap α) :=
  match root with
  | some node => (cloneSubTree node lvt avlParent s).map fun r => (some r.1, r.2)
  | none => some (none, s)

/-- `LV_TREE_CLONE`. -/
def lvTreeClone (cloneSubTree : Nat → Nat → Option Nat → LvHeap α → Option (Nat × LvHeap α)) (lvt : Nat) (sbsParent : SbsParent)
    (baseLv : Nat) (s : LvHeap α) : Option (LvHeap α) := do
  let (cloneTree, s) := s.lvtreeGetslot
  let s := s.modifyTree cloneTree fun t =>
    { t with ident := (s.tree lvt).ident, sbsDepth := (s.tree lvt).sbsDepth, avlHeight := (s.tree lvt).avlHeight }
  let s := s.modifyTree cloneTree fun t => { t with baseLv := baseLv, sbsParent := sbsParent }
  let s := s.setSbsChild sbsParent (some cloneTree)
  let s := s.modifyTree cloneTree fun t => { t with lastNodeLookedUp := none }
  let (root, s) ← cloneRoot cloneSubTree (s.tree lvt).avlRoot cloneTree none s
  some (s.modifyTree cloneTree fun t => { t with avlRoot := root })

/-- The counts of what an alias container points to. -/
def countCont (refCntMaint : Bool) (cont : Option Nat) (s : LvHeap α) : LvHeap α :=
  match cont with
  | some cntnrLv => if refCntMaint then (s.incrTrefcnt cntnrLv).incrCrefcnt cntnrLv else s
  | none => s

/-- The tree below a node copied below `cloneNode`. -/
def cloneChild (cloneSubTree : Nat → Nat → Option Nat → LvHeap α → Option (Nat × LvHeap α)) (lvtChild : Option Nat) (cloneNode baseLv : Nat)
    (s : LvHeap α) : Option (LvHeap α) :=
  match lvtChild with
  | some lvtChild => lvTreeClone cloneSubTree lvtChild (.node cloneNode) baseLv s
  | none => some (s.modifyNode cloneNode fun n => { n with sbsChild := none })

/-- `lvAvlTreeCloneSubTree`. -/
def lvAvlTreeCloneSubTree (refCntMaint : Bool) : Nat → Nat → Nat → Option Nat → LvHeap α → Option (Nat × LvHeap α)
  | 0, _, _, _, _ => none
  | fuel + 1, node, lvt, avlParent, s => do
    let (cloneNode, s) := s.lvtreenodeGetslot
    -- the value, `tree_parent`, the key with the balance, and `avl_parent`
    let s := s.modifyNode cloneNode fun n =>
      { s.node node with treeParent := lvt, avlParent := avlParent, sbsChild := n.sbsChild, avlLeft := n.avlLeft, avlRight := n.avlRight }
    let s := countCont refCntMaint (s.node cloneNode).aliasCont s
    let s ← cloneChild (lvAvlTreeCloneSubTree refCntMaint fuel) (s.node node).sbsChild cloneNode (s.tree lvt).baseLv s
    let (left, s) ← cloneRoot (lvAvlTreeCloneSubTree refCntMaint fuel) (s.node node).avlLeft lvt (some cloneNode) s
    let s := s.modifyNode cloneNode fun n => { n with avlLeft := left }
    let (right, s) ← cloneRoot (lvAvlTreeCloneSubTree refCntMaint fuel) (s.node node).avlRight lvt (some cloneNode) s
    let s := s.modifyNode cloneNode fun n => { n with avlRight := right }
    some (cloneNode, s)

/-- `lv_var_clone`. -/
def lvVarClone (fuel : Nat) (cloneVar baseLv : Nat) (refCntMaint : Bool) (s : LvHeap α) : Option (LvHeap α) :=
  match (s.base cloneVar).children with
  | some cloneLvt => lvTreeClone (lvAvlTreeCloneSubTree refCntMaint fuel) cloneLvt (.base cloneVar) baseLv s
  | none => some s

end Gtm
