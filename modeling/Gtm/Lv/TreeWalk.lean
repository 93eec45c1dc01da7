import Gtm.Lv.AvlTree

/-!
# Walks over the trees of local variables

The routines of `lv_tree.c` that go from one node of a tree to the next: in order, in post-order and in collation order. They keep no
stack and go up by the parents. Forward and backward are one text here, with the side to go to as an argument: `Side.right` is forward.
-/

namespace Gtm

open BalTree

/-! ## In order -/

/-- The loop to the last node on a side. -/
def endLoop (side : Side) : Nat → Nat → LvNodes → Nat
  | 0, node, _ => node
  | fuel + 1, node, ns =>
    match (ns node).child side with
    | some next => endLoop side fuel next ns
    | none => node

/-- `lvAvlTreeFirst`. -/
def lvAvlTreeFirst (s : LvTreeState) : Option Nat := s.lvt.avlRoot.map fun root => endLoop .left s.lvt.avlHeight root s.nodes

/-- `lvAvlTreeLast`. -/
def lvAvlTreeLast (s : LvTreeState) : Option Nat := s.lvt.avlRoot.map fun root => endLoop .right s.lvt.avlHeight root s.nodes

/-- The loop up to the first ancestor that has the node on the other side. -/
def upLoop (side : Side) : Nat → Option Nat → Nat → LvNodes → Option Nat
  | 0, _, _, _ => none
  | _ + 1, none, _, _ => none
  | fuel + 1, some parent, tmp, ns =>
    if (ns parent).child side.flip = some tmp then some parent else upLoop side fuel (ns parent).avlParent parent ns

/-- The text that `lvAvlTreeNext` and `lvAvlTreePrev` share. -/
def lvAvlTreeStep (side : Side) (node : Nat) (s : LvTreeState) : Option Nat :=
  match (s.nodes node).child side with
  | some next => some (endLoop side.flip s.lvt.avlHeight next s.nodes)
  | none => upLoop side (s.lvt.avlHeight + 1) (s.nodes node).avlParent node s.nodes

/-- `lvAvlTreeNext`. -/
def lvAvlTreeNext : Nat → LvTreeState → Option Nat := lvAvlTreeStep .right

/-- `lvAvlTreePrev`. -/
def lvAvlTreePrev : Nat → LvTreeState → Option Nat := lvAvlTreeStep .left

/-- The text that `lvAvlTreeKeyNext` and `lvAvlTreeKeyPrev` share. An empty tree has no node below which the key would be, and the
routines are not called for one. -/
def lvAvlTreeKeyStep (side : Side) (key : TreeKey) (s : LvTreeState) : LvTreeState × Option Nat :=
  match lvAvlTreeLookup key s with
  | (s, .found node) => (s, lvAvlTreeStep side node s)
  | (s, .missed none) => (s, none)
  | (s, .missed (some parent)) =>
    (s, if (s.nodes parent).descentDir = side then lvAvlTreeStep side parent s else some parent)

/-- `lvAvlTreeKeyNext`. -/
def lvAvlTreeKeyNext : TreeKey → LvTreeState → LvTreeState × Option Nat := lvAvlTreeKeyStep .right

/-- `lvAvlTreeKeyPrev`. -/
def lvAvlTreeKeyPrev : TreeKey → LvTreeState → LvTreeState × Option Nat := lvAvlTreeKeyStep .left

/-! ## In collation order -/

/-- `LV_NODE_KEY_IS_NULL_SUBS`. -/
def LvTreeNode.isNullSubs (n : LvTreeNode) : Bool := !n.canonical && n.keyStr.isEmpty

/-- The node is hopped over if it holds the null subscript. -/
def hopNull (node : Option Nat) (s : LvTreeState) : Option Nat :=
  match node with
  | some p => if (s.nodes p).isNullSubs then lvAvlTreeNext p s else some p
  | none => none

/-- `lvAvlTreeKeyCollatedNext`. `stdNull` is `local_collseq_stdnull`. -/
def lvAvlTreeKeyCollatedNext (stdNull : Bool) (key : TreeKey) (s : LvTreeState) : LvTreeState × Option Nat :=
  if stdNull then
    let (s, node) := if key.key.mvtype.str && key.key.str.isEmpty then (s, lvAvlTreeFirst s) else lvAvlTreeKeyNext key s
    (s, hopNull node s)
  else lvAvlTreeKeyNext key s

/-- `lvAvlTreeNodeCollatedNext`. -/
def lvAvlTreeNodeCollatedNext (stdNull : Bool) (node : Nat) (s : LvTreeState) : Option Nat :=
  if stdNull then hopNull (if (s.nodes node).isNullSubs then lvAvlTreeFirst s else lvAvlTreeNext node s) s
  else lvAvlTreeNext node s

/-- The key `literal_null`. -/
def literalNull : TreeKey := ⟨{ mvtype := { str := true }, str := [] }, false, nofun⟩

/-- Where `op_fnquery` starts in a tree. -/
def collatedFirst (stdNull : Bool) (s : LvTreeState) : LvTreeState × Option Nat :=
  if stdNull then
    match lvAvlTreeLookupStr literalNull.key s with
    | (s, .found nullsubsnode) => (s, some nullsubsnode)
    | (s, .missed _) => (s, lvAvlTreeFirst s)
  else (s, lvAvlTreeFirst s)

/-! ## In post-order -/

/-- The loop down to a leaf. -/
def postLoop : Nat → Nat → LvNodes → Nat
  | 0, first, _ => first
  | fuel + 1, first, ns =>
    match (ns first).avlLeft with
    | some tmp => postLoop fuel tmp ns
    | none =>
      match (ns first).avlRight with
      | some tmp => postLoop fuel tmp ns
      | none => first

/-- `lvAvlTreeFirstPostOrder`. -/
def lvAvlTreeFirstPostOrder (s : LvTreeState) : Option Nat := s.lvt.avlRoot.map fun root => postLoop s.lvt.avlHeight root s.nodes

/-- `lvAvlTreeNextPostOrder`. -/
def lvAvlTreeNextPostOrder (node : Nat) (s : LvTreeState) : Option Nat :=
  match (s.nodes node).avlParent with
  | none => none
  | some parent =>
    if (s.nodes parent).avlRight = some node then some parent
    else match (s.nodes parent).avlRight with
      | none => some parent
      | some next => some (postLoop s.lvt.avlHeight next s.nodes)

end Gtm
