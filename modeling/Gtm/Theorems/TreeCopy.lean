import Gtm.Lemmas.TreeWalk
import Gtm.Lemmas.TreeClone
import Gtm.Theorems.LocalVarTree

/-!
# Freeing and copying trees

The walk in post-order comes to every node of a tree once, after its children, although each node it has left may be freed. The copy of
an array is an array of the same shape and content in new slots, with no link out of it.
-/

namespace Gtm

open BalTree BinTree

variable {α : Type}

/-! ## The walk that frees -/

/-- A walk in post-order: the nodes as they are, the node it is at, and those it has left. -/
structure PostWalk where
  state : LvTreeState
  node : Option Nat
  visited : List Nat

/-- A step: the successor of the node is looked up, and then this node, as those before it, may be given any content. -/
inductive PostStep : PostWalk → PostWalk → Prop
  | visit {w : PostWalk} {p : Nat} (nodes : LvNodes) (hp : w.node = some p) (hkept : ∀ q, q ∉ w.visited → q ≠ p → nodes q = w.state.nodes q) :
    PostStep w { state := { w.state with nodes }, node := lvAvlTreeNextPostOrder p w.state, visited := w.visited ++ [p] }

/-- The walks from the first node on. -/
inductive PostReach (s : LvTreeState) : PostWalk → Prop
  | first : PostReach s { state := s, node := lvAvlTreeFirstPostOrder s, visited := [] }
  | step {w w' : PostWalk} (h : PostReach s w) (hs : PostStep w w') : PostReach s w'

namespace TreeCopyAux

/-- Where a walk is: what is left begins with the node, and the nodes still to come are as they were at the start. -/
inductive PostAt (H : Nat) (L : List Nat) (w : PostWalk) : Prop
  | at_ {x : Nat} {c : List (Frame Nat)} (hlist : L = w.visited ++ x :: postRest c) (hnode : w.node = some x)
    (hctx : PostCtx H w.state.nodes x c) (hH : w.state.lvt.avlHeight = H)
  | done (hlist : L = w.visited) (hnode : w.node = none)

theorem postAt_first {s : LvTreeState} {t : BinTree Nat} (hs : Holds s t) (hn : t.toList.Nodup) (hh : s.lvt.avlHeight = t.height) :
    PostAt s.lvt.avlHeight t.postList { state := s, node := lvAvlTreeFirstPostOrder s, visited := [] } := by
  rw [Holds] at hs
  cases hr : s.lvt.avlRoot with
  | none =>
    rw [hr] at hs
    obtain rfl := hs.eq_nil
    exact .done rfl (by simp [lvAvlTreeFirstPostOrder, hr])
  | some root =>
    rw [hr] at hs
    obtain ⟨d, hlist, hup⟩ := postLoop_spec hs hn hh.ge hh.ge
    exact .at_ hlist (by simp [lvAvlTreeFirstPostOrder, hr]) (by simpa using hup [] hs.root_parent) rfl

theorem postAt_step {H : Nat} {L : List Nat} {w w' : PostWalk} (hn : L.Nodup) (h : PostAt H L w) (hs : PostStep w w') : PostAt H L w' := by
  cases hs with
  | @visit p nodes hp hkept =>
    cases h with
    | done hlist hnode => simp [hnode] at hp
    | @at_ x c hlist hnode hctx hH =>
      obtain rfl : x = p := Option.some.inj (hnode.symm.trans hp)
      subst hH
      rcases lvAvlTreeNextPostOrder_spec hctx with ⟨hrest, hnext⟩ | ⟨y, d, hnext, hrest, hctx'⟩
      · exact .done (by rw [hlist, hrest]) hnext
      · refine .at_ (by rw [hlist, hrest]; simp) hnext (hctx'.congr fun q hq => ?_) rfl
        -- a node still to come is none of those left
        rw [hlist, hrest] at hn
        have hvis := (List.nodup_append.1 hn).2.2
        have hx := (List.nodup_cons.1 (List.nodup_append.1 hn).2.1).1
        exact hkept q (fun hv => hvis q hv q (by simp [hq]) rfl) fun hqx => hx (hqx ▸ hq)

theorem postAt_reach {s : LvTreeState} {t : BinTree Nat} {w : PostWalk} (hs : Holds s t) (hn : t.toList.Nodup)
    (hh : s.lvt.avlHeight = t.height) (h : PostReach s w) : PostAt s.lvt.avlHeight t.postList w := by
  induction h with
  | first => exact postAt_first hs hn hh
  | step _ hstep ih => exact postAt_step ((postList_perm t).nodup_iff.2 hn) ih hstep

theorem PostAt.rest {H : Nat} {L : List Nat} {w : PostWalk} (h : PostAt H L w) : ∃ rest, L = w.visited ++ rest ∧ w.node = rest.head? := by
  cases h with
  | at_ hlist hnode => exact ⟨_, hlist, hnode⟩
  | done hlist hnode => exact ⟨[], by simpa using hlist, hnode⟩

theorem treeCopied_slots {rc : Bool} {s s' : LvHeap α} {a a' : LvArray} {tq baseLv : Nat} {parent : SbsParent}
    (h : TreeCopied rc s s' tq baseLv parent a a') (hf : FreshSlots s a.nodes (tq :: a.trees)) :
    a'.nodes.Nodup ∧ (s.treeSlots 0 :: a'.trees).Nodup ∧ (∀ p ∈ a'.nodes, p ∉ a.nodes) ∧
      ∀ q ∈ s.treeSlots 0 :: a'.trees, q ∉ tq :: a.trees := by
  have ht := h.taken
  obtain ⟨hslots, htslots, -⟩ := setSbsChild_slots s parent (some (s.treeSlots 0))
  refine ⟨?_, ?_, fun p hp => ?_, fun q hq => ?_⟩
  · rw [ht.nodes, hslots]
    exact nodup_nextSlots hf.nodeInj _
  · rw [ht.trees, htslots]
    exact nodup_nextSlots hf.treeInj _
  · obtain ⟨i, rfl⟩ := ht.mem_node hp
    rw [hslots]
    exact hf.node i
  · obtain ⟨i, rfl⟩ := ht.mem_tree hq
    rw [htslots]
    exact hf.tree i

/-- The array that was copied is still there. -/
theorem treeCopied_source {rc : Bool} {s s' : LvHeap α} {a a' : LvArray} {tq baseLv baseLv' : Nat} {parent : SbsParent}
    (h : TreeCopied rc s s' tq baseLv' parent a a') (hf : FreshSlots s a.nodes (tq :: a.trees))
    (hrep : ArrayRep s baseLv tq none (s.tree tq).avlRoot a) (hpar : ∀ p ∈ a.nodes, parent ≠ .node p) :
    ArrayRep s' baseLv tq none (s'.tree tq).avlRoot a := by
  obtain ⟨-, -, hn, ht⟩ := treeCopied_slots h hf
  have htree : ∀ q ∈ tq :: a.trees, s'.tree q = s.tree q := fun q hq => by
    rw [h.taken.tree q fun hq' => ht q hq' hq, (setSbsChild_slots _ _ _).2.2]
  rw [htree tq (by simp)]
  refine hrep.congr (fun p hp => ?_) fun q hq => htree q (by simp [hq])
  rw [h.taken.node p fun hp' => hn p hp' hp, setSbsChild_node _ _ _ (hpar p hp)]

end TreeCopyAux

open TreeCopyAux

/-! ## Copies of variables -/

/-- In post-order a walk comes to every node of a tree once and to no node before its children, whatever becomes of the nodes behind it.
And the copy of an array is an array of the same shape, keys, values, balances and heights, all in new slots. -/
theorem lvTree_postOrder_clone :
    (∀ (s : LvTreeState) (t : BinTree Nat), TreeRep s.nodes none s.lvt.avlRoot t → t.toList.Nodup → s.lvt.avlHeight = t.height →
      ∃ L : List Nat, L.Nodup ∧ (∀ p, p ∈ L ↔ p ∈ t.toList) ∧
        (∀ p ∈ L, ∀ side q, (s.nodes p).child side = some q → [q, p].Sublist L) ∧
        ∀ w, PostReach s w → ∃ rest, L = w.visited ++ rest ∧ w.node = rest.head?) ∧
    ∀ (rc : Bool) (s : LvHeap α) (a : LvArray) (tq baseLv baseLv' : Nat) (parent : SbsParent) (fuel : Nat),
      ArrayRep s baseLv tq none (s.tree tq).avlRoot a → FreshSlots s a.nodes (tq :: a.trees) → (∀ p ∈ a.nodes, parent ≠ .node p) →
      a.nodes.length ≤ fuel →
      ∃ s' a', lvTreeClone (lvAvlTreeCloneSubTree rc fuel) tq parent baseLv' s = some s' ∧
        CopyOf s s' a a' ∧ (s'.tree (s.treeSlots 0)).head = (s.tree tq).head ∧
        (s'.tree (s.treeSlots 0)).sbsParent = parent ∧ (s'.tree (s.treeSlots 0)).baseLv = baseLv' ∧
        ArrayRep s' baseLv' (s.treeSlots 0) none (s'.tree (s.treeSlots 0)).avlRoot a' ∧
        a'.nodes.Nodup ∧ (s.treeSlots 0 :: a'.trees).Nodup ∧ (∀ p ∈ a'.nodes, p ∉ a.nodes) ∧
        (∀ q ∈ s.treeSlots 0 :: a'.trees, q ∉ tq :: a.trees) ∧ ArrayRep s' baseLv tq none (s'.tree tq).avlRoot a := by
  constructor
  · intro s t hs hn hh
    refine ⟨t.postList, (postList_perm t).nodup_iff.2 hn, fun p => (postList_perm t).mem_iff, fun p hp side q hq => ?_, fun w hw => ?_⟩
    · exact postList_child hs ((postList_perm t).mem_iff.1 hp) hq
    · exact (postAt_reach hs hn hh hw).rest
  · intro rc s a tq baseLv baseLv' parent fuel hrep hf hpar hfuel
    obtain ⟨s', a', hrun, hcop⟩ := lvTreeClone_spec (clones_array rc a hfuel) baseLv' parent hrep hf hpar
    obtain ⟨hn, ht, hdn, hdt⟩ := treeCopied_slots hcop hf
    exact ⟨s', a', hrun, hcop.copy, hcop.head, hcop.sbsParent, hcop.treeBase, hcop.rep, hn, ht, hdn, hdt, treeCopied_source hcop hf hrep hpar⟩

/-- An array with two nodes in its first level and one below the root of it. -/
def LvHeap.twoLevels : LvHeap Nat :=
  let n : LvLevelNode Nat := { LvTreeNode.unused with v := 0, aliasCont := none, sbsChild := none, treeParent := 0 }
  let t : LvLevelTree :=
    { avlHeight := 2, avlRoot := some 0, lastNodeLookedUp := none, lastNodeMin := none, lastNodeMax := none, ident := 0, sbsDepth := 1,
      baseLv := 0, sbsParent := .base 0 }
  { node := fun p =>
      if p = 0 then { n with avlLeft := some 1, balance := some .left, sbsChild := some 1 }
      else if p = 1 then { n with avlParent := some 0 }
      else { n with treeParent := 1 }
    tree := fun q => if q = 0 then t else { t with avlHeight := 1, avlRoot := some 2, sbsDepth := 2, sbsParent := .node 0 }
    base := fun _ => { children := some 0, trefcnt := 1, crefcnt := 0 }
    nodeSlots := fun i => i + 3
    treeSlots := fun i => i + 2 }

theorem lvTree_postOrder_clone_twoLevels :
    let h := LvHeap.twoLevels
    let s : LvTreeState := { lvt := (h.tree 0).toLvAvlTree, nodes := fun p => (h.node p).toLvTreeNode }
    let t : BinTree Nat := node (node nil 1 none nil) 0 (some .left) nil
    let a : LvArray := .node (.node .nil 1 none .nil .nil) 0 (some 1) (.node .nil 2 none .nil .nil) .nil
    (∃ L : List Nat, L.Nodup ∧ (∀ p, p ∈ L ↔ p ∈ t.toList) ∧ (∀ p ∈ L, ∀ side q, (s.nodes p).child side = some q → [q, p].Sublist L) ∧
      ∀ w, PostReach s w → ∃ rest, L = w.visited ++ rest ∧ w.node = rest.head?) ∧
    ∃ s' a', lvTreeClone (lvAvlTreeCloneSubTree true 3) 0 (.base 7) 7 h = some s' ∧
      CopyOf h s' a a' ∧ (s'.tree 2).head = (h.tree 0).head ∧ (s'.tree 2).sbsParent = .base 7 ∧ (s'.tree 2).baseLv = 7 ∧
      ArrayRep s' 7 2 none (s'.tree 2).avlRoot a' ∧ a'.nodes.Nodup ∧ (2 :: a'.trees).Nodup ∧ (∀ p ∈ a'.nodes, p ∉ a.nodes) ∧
      (∀ q ∈ 2 :: a'.trees, q ∉ 0 :: a.trees) ∧ ArrayRep s' 0 0 none (s'.tree 0).avlRoot a := by
  intro h s t a
  obtain ⟨hpost, hclone⟩ := lvTree_postOrder_clone (α := Nat)
  constructor
  · exact hpost s t (by simp [s, t, h, TreeRep, LvHeap.twoLevels, LvTreeNode.unused]) (by simp [t, toList]) rfl
  · refine hclone true h a 0 0 7 (.base 7) 3 ?_ ?_ (by simp) (by simp [a, LvArray.nodes])
    · simp [h, a, ArrayRep, LvHeap.twoLevels, LvTreeNode.unused]
    · refine ⟨fun i j hij => Nat.add_right_cancel hij, fun i j hij => Nat.add_right_cancel hij, fun i => ?_, fun i => ?_⟩
      · simp only [h, a, LvHeap.twoLevels, LvArray.nodes]
        simp
      · simp only [h, a, LvHeap.twoLevels, LvArray.trees]
        simp

end Gtm
