import Gtm.Compiler.LitFold
import Gtm.Key.Collating
import Gtm.Lib.BalancedTree

/-!
# The trees of local variables

The AVL tree of the subscripts of one level of a local variable (`lv_tree.c`, `lv_tree.h`): lookup with a clue from the lookup before,
insertion and deletion. Insertion and deletion do not search again. They go by the directions that the lookup has left in the nodes.
A node is known by its slot, and a pointer is that slot with `none` for `NULL`. The two sides of a node are treated by one text in
each routine here, with the side as an argument: `TREE_DESCEND_LEFT` and `TREE_LEFT_HEAVY` are `Side.left`, `TREE_DESCEND_RIGHT` and
`TREE_RIGHT_HEAVY` are `Side.right`, and a balance is `some` of these, or `none` for `TREE_BALANCED`. Loops along a path of the tree
run for `avl_height` turns at most.
-/

namespace Gtm

open BalTree

/-! ## The data -/

/-- A node (`lvTreeNode`, `lvTreeNodeNum`). `canonical` and `int` are the bits `MV_CANONICAL` and `MV_INT` of `key_mvtype`, and `keyStr`
is the string at `key_addr`. -/
structure LvTreeNode where
  canonical : Bool
  int : Bool
  keySgn : Bool
  keyE : Nat
  keyIconv : Bool
  keyM0 : Int
  keyM1 : Int
  keyStr : List UInt8
  balance : Option Side
  descentDir : Side
  avlLeft : Option Nat
  avlRight : Option Nat
  avlParent : Option Nat

namespace LvTreeNode

/-- The subtree on a side. -/
def child (n : LvTreeNode) : Side → Option Nat
  | .left => n.avlLeft
  | .right => n.avlRight

/-- The node with another subtree on a side. -/
def setChild (n : LvTreeNode) (s : Side) (q : Option Nat) : LvTreeNode :=
  match s with
  | .left => { n with avlLeft := q }
  | .right => { n with avlRight := q }

/-- `LV_NODE_GET_KEY`. -/
def getKey (n : LvTreeNode) : Mval :=
  if n.canonical then
    if n.int then { mvtype := { nm := true, int := true }, m1 := n.keyM0 }
    else { mvtype := { nm := true }, sgn := n.keySgn, e := n.keyE, m0 := n.keyM0, m1 := n.keyM1 }
  else { mvtype := { str := true }, str := n.keyStr }

/-- The subscript of a node. -/
def subsc (n : LvTreeNode) : Subsc := if n.canonical then .num n.getKey.numVal else .str n.keyStr

end LvTreeNode

/-- The nodes by their slots. -/
abbrev LvNodes := Nat → LvTreeNode

namespace LvNodes

variable (ns : LvNodes)

def modify (p : Nat) (f : LvTreeNode → LvTreeNode) : LvNodes := Function.update ns p (f (ns p))

def setChild (p : Nat) (s : Side) (q : Option Nat) : LvNodes := ns.modify p fun n => n.setChild s q

def setParent (p : Nat) (q : Option Nat) : LvNodes := ns.modify p fun n => { n with avlParent := q }

/-- The parent of a node that may be `NULL`. -/
def setParent? (p : Option Nat) (q : Option Nat) : LvNodes :=
  match p with
  | some p => ns.setParent p q
  | none => ns

def setBalance (p : Nat) (b : Option Side) : LvNodes := ns.modify p fun n => { n with balance := b }

def setDir (p : Nat) (s : Side) : LvNodes := ns.modify p fun n => { n with descentDir := s }

end LvNodes

/-- A tree (`lvTree`) with its clue (`treeSrchStatus`). -/
structure LvAvlTree where
  avlHeight : Nat
  avlRoot : Option Nat
  lastNodeLookedUp : Option Nat
  lastNodeMin : Option Nat
  lastNodeMax : Option Nat
deriving DecidableEq

/-- A key (`treeKeySubscr`): an mval with the bit `MV_CANONICAL`, which is set for a number in the range of the arithmetic. -/
structure TreeKey where
  key : Mval
  canonical : Bool
  valid : canonical = true → key.NumValid

/-- The subscript a key is. -/
def TreeKey.subsc (k : TreeKey) : Subsc := if k.canonical then .num k.key.numVal else .str k.key.str

/-! ## Comparisons -/

/-- `lvAvlTreeNodeFltConv`. For the integer zero only the exponent is set. -/
def lvAvlTreeNodeFltConv (n : LvTreeNode) : LvTreeNode :=
  if n.keyM0 ≠ 0 then
    let exp := promoteExp 9 n.keyM0.natAbs 0
    { n with
      keySgn := decide (n.keyM0 < 0)
      keyM1 := (n.keyM0.natAbs * tenPwr (9 - exp) : Nat)
      keyE := exp + (mvXbias - 3)
      keyIconv := true }
  else { n with keyE := 0, keyIconv := true }

/-- The part of `LV_AVL_TREE_INTKEY_CMP` and `LV_AVL_TREE_NUMKEY_CMP` that compares two numbers with an exponent. -/
def fltKeyCmp (a : Mval) (bSgn : Bool) (bE : Nat) (bM1 bM0 : Int) : Int :=
  let aSgn : Int := if a.sgn then -1 else 1
  let bSgn : Int := if bSgn then -1 else 1
  if aSgn ≠ bSgn then aSgn
  else
    let expDiff : Int := a.e - bE
    if expDiff ≠ 0 then expDiff * aSgn
    else
      let m1Diff := a.m1 - bM1
      if m1Diff ≠ 0 then m1Diff * aSgn
      else if a.m1 = 0 then 0
      else
        let m0Diff := a.m0 - bM0
        if m0Diff ≠ 0 then m0Diff * aSgn else 0

/-- `LV_AVL_TREE_INTKEY_CMP`. -/
def lvAvlTreeIntkeyCmp (aM1 : Int) (b : LvTreeNode) : Int × LvTreeNode :=
  if b.int then (aM1 - b.keyM0, b)
  else if b.canonical then
    (fltKeyCmp (promote { mvtype := { nm := true, int := true }, m1 := aM1 }) b.keySgn b.keyE b.keyM1 b.keyM0, b)
  else (-1, b)

/-- `LV_AVL_TREE_NUMKEY_CMP`, which converts an integer key of a node in place. -/
def lvAvlTreeNumkeyCmp (a : Mval) (b : LvTreeNode) : Int × LvTreeNode :=
  if b.canonical then
    let b := if b.int && !b.keyIconv then lvAvlTreeNodeFltConv b else b
    (fltKeyCmp a b.keySgn b.keyE b.keyM1 (if b.int then 0 else b.keyM0), b)
  else (-1, b)

/-- `LV_AVL_TREE_STRKEY_CMP`. -/
def lvAvlTreeStrkeyCmp (a : List UInt8) (b : LvTreeNode) : Int × LvTreeNode :=
  if b.canonical then (1, b) else (memvcmp a b.keyStr, b)

/-! ## Lookup -/

/-- A tree and the nodes. -/
structure LvTreeState where
  lvt : LvAvlTree
  nodes : LvNodes

/-- What a lookup returns: the node, or `NULL` with the node below which it would be. -/
inductive LvLookup
  | found (node : Nat)
  | missed (parent : Option Nat)
deriving DecidableEq

section Lookup

variable (cmp : LvTreeNode → Int × LvTreeNode)

/-- The comparison of the key with the key of a node. -/
def cmpAt (p : Nat) (s : LvTreeState) : Int × LvTreeState :=
  let (c, n) := cmp (s.nodes p)
  (c, { s with nodes := Function.update s.nodes p n })

/-- The traversal from the top. -/
def lookupLoop : Nat → Nat → Option Nat → Option Nat → LvTreeState → LvTreeState × LvLookup
  | 0, _, _, _, s => (s, .missed none)
  | fuel + 1, node, lastNodeMin, lastNodeMax, s =>
    let (c, s) := cmpAt cmp node s
    if c = 0 then ({ s with lvt := { s.lvt with lastNodeLookedUp := some node, lastNodeMin, lastNodeMax } }, .found node)
    else
      let side := if c < 0 then Side.left else Side.right
      let s := { s with nodes := s.nodes.setDir node side }
      match (s.nodes node).child side with
      | none => ({ s with lvt := { s.lvt with lastNodeLookedUp := some node, lastNodeMin, lastNodeMax } }, .missed (some node))
      | some next =>
        match side with
        | .left => lookupLoop fuel next lastNodeMin (some node) s
        | .right => lookupLoop fuel next (some node) lastNodeMax s

/-- The lookup without a clue. -/
def lookupTop (s : LvTreeState) : LvTreeState × LvLookup :=
  match s.lvt.avlRoot with
  | none => (s, .missed none)
  | some root => lookupLoop cmp s.lvt.avlHeight root none none s

/-- The key would be below the clue node `tmpNode` on the side `side`, where there is no subtree, if it is not beyond `bound`. -/
def lookupClue (tmpNode : Nat) (side : Side) (bound : Option Nat) (s : LvTreeState) : LvTreeState × LvLookup :=
  let miss (s : LvTreeState) : LvTreeState × LvLookup := ({ s with nodes := s.nodes.setDir tmpNode side }, .missed (some tmpNode))
  match bound with
  | none => miss s
  | some b =>
    let (c, s) := cmpAt cmp b s
    if c = 0 then (s, .found b)
    else if (match side with | .left => decide (0 < c) | .right => decide (0 > c)) then miss s
    else lookupTop cmp s

/-- The text that `lvAvlTreeLookupInt`, `lvAvlTreeLookupNum` and `lvAvlTreeLookupStr` share. -/
def lvAvlTreeLookupBy (s : LvTreeState) : LvTreeState × LvLookup :=
  match s.lvt.lastNodeLookedUp with
  | none => lookupTop cmp s
  | some tmpNode =>
    let (c, s) := cmpAt cmp tmpNode s
    if c = 0 then (s, .found tmpNode)
    else if 0 < c then
      if (s.nodes tmpNode).avlRight.isNone then lookupClue cmp tmpNode .right s.lvt.lastNodeMax s else lookupTop cmp s
    else if (s.nodes tmpNode).avlLeft.isNone then lookupClue cmp tmpNode .left s.lvt.lastNodeMin s
    else lookupTop cmp s

end Lookup

/-- `lvAvlTreeLookupInt`. -/
def lvAvlTreeLookupInt (key : Mval) : LvTreeState → LvTreeState × LvLookup := lvAvlTreeLookupBy (lvAvlTreeIntkeyCmp key.m1)

/-- `lvAvlTreeLookupNum`. -/
def lvAvlTreeLookupNum (key : Mval) : LvTreeState → LvTreeState × LvLookup := lvAvlTreeLookupBy (lvAvlTreeNumkeyCmp key)

/-- `lvAvlTreeLookupStr`. -/
def lvAvlTreeLookupStr (key : Mval) : LvTreeState → LvTreeState × LvLookup := lvAvlTreeLookupBy (lvAvlTreeStrkeyCmp key.str)

/-- `lvAvlTreeLookup`. -/
def lvAvlTreeLookup (k : TreeKey) : LvTreeState → LvTreeState × LvLookup :=
  if k.canonical then
    if k.key.mvtype.int then lvAvlTreeLookupInt k.key else lvAvlTreeLookupNum k.key
  else lvAvlTreeLookupStr k.key

/-! ## Rotations -/

/-- `lvAvlTreeSingleRotation`. -/
def lvAvlTreeSingleRotation (rebalanceNode anchorNode : Nat) (balanceFactor : Side) (ns : LvNodes) : Nat × LvNodes :=
  let node := (ns anchorNode).child balanceFactor.flip
  let ns := ns.setChild rebalanceNode balanceFactor node
  let ns := ns.setChild anchorNode balanceFactor.flip (some rebalanceNode)
  let ns := ns.setParent? node (some rebalanceNode)
  let ns := ns.setParent rebalanceNode (some anchorNode)
  let ns :=
    if (ns anchorNode).balance.isSome then (ns.setBalance rebalanceNode none).setBalance anchorNode none
    else ns.setBalance anchorNode (some balanceFactor.flip)
  (anchorNode, ns)

/-- `lvAvlTreeDoubleRotation`. -/
def lvAvlTreeDoubleRotation (rebalanceNode anchorNode : Nat) (balanceFactor : Side) (ns : LvNodes) : Nat × LvNodes :=
  match (ns anchorNode).child balanceFactor.flip with
  | none => (anchorNode, ns)
  | some newRoot =>
    let rebalanceChild := (ns newRoot).child balanceFactor.flip
    let ns := ns.setChild rebalanceNode balanceFactor rebalanceChild
    let anchorChild := (ns newRoot).child balanceFactor
    let ns := ns.setChild anchorNode balanceFactor.flip anchorChild
    let ns := ns.setChild newRoot balanceFactor (some anchorNode)
    let ns := ns.setChild newRoot balanceFactor.flip (some rebalanceNode)
    let ns := ns.setParent? rebalanceChild (some rebalanceNode)
    let ns := ns.setParent? anchorChild (some anchorNode)
    let ns := ns.setParent anchorNode (some newRoot)
    let ns := ns.setParent rebalanceNode (some newRoot)
    let balance := (ns newRoot).balance
    let ns :=
      if balance = some balanceFactor then (ns.setBalance rebalanceNode (some balanceFactor.flip)).setBalance anchorNode none
      else if balance = none then (ns.setBalance rebalanceNode none).setBalance anchorNode none
      else (ns.setBalance rebalanceNode none).setBalance anchorNode (some balanceFactor)
    (newRoot, ns.setBalance newRoot none)

/-- The new root of a rotated subtree is put below the parent of the old one, on the side that the direction of the parent says, or at
the top of the tree. -/
def attach (parent : Option Nat) (newRoot : Option Nat) (s : LvTreeState) : LvTreeState :=
  match parent with
  | some q => { s with nodes := s.nodes.setChild q (s.nodes q).descentDir newRoot }
  | none => { s with lvt := { s.lvt with avlRoot := newRoot } }

/-! ## Insertion -/

/-- A node for a key with no subtrees, below `parent`. What is not set keeps what the slot held before. -/
def initNode (k : TreeKey) (parent : Option Nat) (slot : LvTreeNode) : LvTreeNode :=
  let n := { slot with avlLeft := none, avlRight := none, avlParent := parent, balance := none }
  if k.canonical then
    if k.key.mvtype.int then { n with canonical := true, int := true, keyM0 := k.key.m1, keyIconv := false }
    else { n with canonical := true, int := false, keySgn := k.key.sgn, keyE := k.key.e, keyM0 := k.key.m0, keyM1 := k.key.m1 }
  else { n with canonical := false, int := false, keyStr := k.key.str }

/-- The loop of `lvAvlTreeNodeInsert` that goes up over the balanced nodes. -/
def insertLoop (root : Option Nat) : Nat → Nat → LvNodes → Nat × LvNodes
  | 0, tmpNode, ns => (tmpNode, ns)
  | fuel + 1, tmpNode, ns =>
    if root = some tmpNode then (tmpNode, ns)
    else if (ns tmpNode).balance.isSome then (tmpNode, ns)
    else
      let ns := ns.setBalance tmpNode (some (ns tmpNode).descentDir)
      match (ns tmpNode).avlParent with
      | some q => insertLoop root fuel q ns
      | none => (tmpNode, ns)

/-- What `lvAvlTreeNodeInsert` does at the node where the loop ends. -/
def insertRebalance (rebalanceNode : Nat) (s : LvTreeState) : LvTreeState :=
  let balanceFactor := (s.nodes rebalanceNode).descentDir
  let curBalance := (s.nodes rebalanceNode).balance
  match (s.nodes rebalanceNode).child balanceFactor with
  | none => s
  | some anchorNode =>
    if curBalance = none then
      { lvt := { s.lvt with avlHeight := s.lvt.avlHeight + 1 }, nodes := s.nodes.setBalance rebalanceNode (some balanceFactor) }
    else if curBalance = some balanceFactor.flip then { s with nodes := s.nodes.setBalance rebalanceNode none }
    else
      let rebalanceNodeParent := (s.nodes rebalanceNode).avlParent
      let (tmpNode, ns) :=
        if (s.nodes anchorNode).balance = some balanceFactor then lvAvlTreeSingleRotation rebalanceNode anchorNode balanceFactor s.nodes
        else lvAvlTreeDoubleRotation rebalanceNode anchorNode balanceFactor s.nodes
      attach rebalanceNodeParent (some tmpNode) { s with nodes := ns.setParent tmpNode rebalanceNodeParent }

/-- `lvAvlTreeNodeInsert`, where `lvtreenode_getslot` gives the slot `node`. -/
def lvAvlTreeNodeInsert (k : TreeKey) (parent : Option Nat) (node : Nat) (s : LvTreeState) : LvTreeState :=
  let ns := s.nodes.modify node (initNode k parent)
  let lvt := { s.lvt with lastNodeLookedUp := some node }
  match parent with
  | some p =>
    let side := (ns p).descentDir
    let ns := ns.setChild p side (some node)
    let lvt :=
      match side with
      | .left => { lvt with lastNodeMax := some p }
      | .right => { lvt with lastNodeMin := some p }
    let (rebalanceNode, ns) := insertLoop lvt.avlRoot lvt.avlHeight p ns
    insertRebalance rebalanceNode { lvt, nodes := ns }
  | none => { lvt := { lvt with avlRoot := some node, avlHeight := 1, lastNodeMin := none, lastNodeMax := none }, nodes := ns }

/-! ## Deletion -/

/-- The loop that goes to the in-order successor. -/
def nextLoop : Nat → Nat → LvNodes → Nat × LvNodes
  | 0, next, ns => (next, ns)
  | fuel + 1, next, ns =>
    match (ns next).avlLeft with
    | some left => nextLoop fuel left (ns.setDir next .left)
    | none => (next, ns)

/-- The balancing loop of `lvAvlTreeNodeDelete`. -/
def deleteLoop : Nat → Option Nat → LvTreeState → LvTreeState
  | _, none, s => { s with lvt := { s.lvt with avlHeight := s.lvt.avlHeight - 1 } }
  | 0, some _, s => s
  | fuel + 1, some balanceThisNode, s =>
    let balanceFactor := (s.nodes balanceThisNode).descentDir
    let curNodeBalance := (s.nodes balanceThisNode).balance
    if curNodeBalance = none then { s with nodes := s.nodes.setBalance balanceThisNode (some balanceFactor.flip) }
    else
      let nextBalanceThisNode := (s.nodes balanceThisNode).avlParent
      if curNodeBalance = some balanceFactor then
        deleteLoop fuel nextBalanceThisNode { s with nodes := s.nodes.setBalance balanceThisNode none }
      else
        let balanceFactor := balanceFactor.flip
        match (s.nodes balanceThisNode).child balanceFactor with
        | none => s
        | some anchorNode =>
          let treeBalanced := (s.nodes anchorNode).balance.isNone
          let (newRoot, ns) :=
            if treeBalanced || (s.nodes anchorNode).balance = some balanceFactor then
              lvAvlTreeSingleRotation balanceThisNode anchorNode balanceFactor s.nodes
            else lvAvlTreeDoubleRotation balanceThisNode anchorNode balanceFactor s.nodes
          let s := attach nextBalanceThisNode (some newRoot) { s with nodes := ns.setParent newRoot nextBalanceThisNode }
          if treeBalanced then s else deleteLoop fuel nextBalanceThisNode s

/-- The first part of `lvAvlTreeNodeDelete`: the node is taken out of the tree. The node to go up from is returned. -/
def deleteUnlink (node : Nat) (s : LvTreeState) : Option Nat × LvTreeState :=
  let nodeLeft := (s.nodes node).avlLeft
  let nodeParent := (s.nodes node).avlParent
  match (s.nodes node).avlRight with
  | none =>
    let s := attach nodeParent nodeLeft s
    (nodeParent, { s with nodes := s.nodes.setParent? nodeLeft nodeParent })
  | some nodeRight =>
    let (next, ns) := nextLoop s.lvt.avlHeight nodeRight s.nodes
    let nextRight := (ns next).avlRight
    let nextParent := (ns next).avlParent
    let (balanceThisNode, ns) :=
      match nextParent with
      | some np =>
        if np ≠ node then
          let ns := ns.setChild np (ns np).descentDir nextRight
          let ns := ns.setParent? nextRight nextParent
          let ns := ns.setChild next .right (some nodeRight)
          (np, ns.setParent nodeRight (some next))
        else (next, ns)
      | none => (next, ns)
    let ns := ns.setChild next .left nodeLeft
    let ns := ns.setParent? nodeLeft (some next)
    let ns := ns.setParent next nodeParent
    let ns := ns.setBalance next (ns node).balance
    let ns := ns.setDir next .right
    (some balanceThisNode, attach nodeParent (some next) { s with nodes := ns })

/-- `lvAvlTreeNodeDelete`. -/
def lvAvlTreeNodeDelete (node : Nat) (s : LvTreeState) : LvTreeState :=
  let (balanceThisNode, s) := deleteUnlink node s
  let s := deleteLoop s.lvt.avlHeight balanceThisNode s
  { s with lvt := { s.lvt with lastNodeLookedUp := none } }

end Gtm
