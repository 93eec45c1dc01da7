import Gtm.Lv.TreeClone

/-!
# Arrays and their copies

`LvArray` tells in which slots an array is: the nodes of a tree, and below each of them the tree of the next subscript level. `ArrayRep`
says that a heap holds it with all links and back pointers, and `CopyOf` that two arrays differ in nothing but the slots.
-/

namespace Gtm

variable {α : Type}

/-! ## Arrays -/

/-- The nodes of a tree, each with the slot of the tree below it, if there is one, and what that tree holds. -/
inductive LvArray where
  | nil
  | node (l : LvArray) (p : Nat) (q : Option Nat) (sub r : LvArray)

namespace LvArray

/-- The slots of the nodes, in the order in which they are copied. -/
def nodes : LvArray → List Nat
  | nil => []
  | node l p _ sub r => p :: (sub.nodes ++ (l.nodes ++ r.nodes))

/-- The slots of the trees below the nodes. -/
def trees : LvArray → List Nat
  | nil => []
  | node l _ q sub r => q.toList ++ sub.trees ++ (l.trees ++ r.trees)

end LvArray

/-- The heap holds an array below the tree `lvt`, with its root `r` and the parent of the root. In it the trees of the further levels
point back to the node they are below and to the base variable. -/
def ArrayRep (s : LvHeap α) (baseLv : Nat) : Nat → Option Nat → Option Nat → LvArray → Prop
  | _, _, r, .nil => r = none
  | lvt, par, r, .node l p q sub rt =>
    r = some p ∧ (s.node p).avlParent = par ∧ (s.node p).treeParent = lvt ∧ (s.node p).sbsChild = q ∧
      ArrayRep s baseLv lvt (some p) (s.node p).avlLeft l ∧ ArrayRep s baseLv lvt (some p) (s.node p).avlRight rt ∧
      match q with
      | none => sub = .nil
      | some tq => (s.tree tq).sbsParent = .node p ∧ (s.tree tq).baseLv = baseLv ∧ ArrayRep s baseLv tq none (s.tree tq).avlRoot sub

/-- A node without its links. -/
def LvLevelNode.unlinked (n : LvLevelNode α) : LvLevelNode α :=
  { n with avlLeft := none, avlRight := none, avlParent := none, sbsChild := none, treeParent := 0 }

/-- The fields of a tree that are copied. -/
def LvLevelTree.head (t : LvLevelTree) : Nat × Nat × Nat := (t.ident, t.sbsDepth, t.avlHeight)

/-- The two arrays have the same shape, with the same keys, values and balances in the nodes and the same heights of the trees. The trees
of the second have no clue. -/
def CopyOf (s s' : LvHeap α) : LvArray → LvArray → Prop
  | .nil, .nil => True
  | .node l p q sub r, .node l' p' q' sub' r' =>
    (s'.node p').unlinked = (s.node p).unlinked ∧ q'.map (fun t => ((s'.tree t).head, (s'.tree t).lastNodeLookedUp)) = q.map (fun t => ((s.tree t).head, none)) ∧
      CopyOf s s' l l' ∧ CopyOf s s' sub sub' ∧ CopyOf s s' r r'
  | _, _ => False

section Congr

variable {s s' t t' : LvHeap α} {a a' : LvArray} {baseLv lvt : Nat} {par r : Option Nat}

theorem ArrayRep.congr (h : ArrayRep s baseLv lvt par r a) (hn : ∀ p ∈ a.nodes, t.node p = s.node p)
    (ht : ∀ q ∈ a.trees, t.tree q = s.tree q) : ArrayRep t baseLv lvt par r a := by
  induction a generalizing lvt par r with
  | nil => exact h
  | node l p q sub rt ihl ihs ihr =>
    obtain ⟨hr, hpar, htp, hq, hl, hrt, hsub⟩ := h
    simp only [LvArray.nodes, LvArray.trees, List.mem_cons, List.mem_append] at hn ht
    have hp := hn p (.inl rfl)
    refine ⟨hr, by rw [hp, hpar], by rw [hp, htp], by rw [hp, hq], ?_, ?_, ?_⟩
    · rw [hp]
      exact ihl hl (fun x hx => hn x (by tauto)) (fun x hx => ht x (by tauto))
    · rw [hp]
      exact ihr hrt (fun x hx => hn x (by tauto)) (fun x hx => ht x (by tauto))
    · cases q with
      | none => exact hsub
      | some tq =>
        have htq := ht tq (by simp)
        simp only [htq]
        exact ⟨hsub.1, hsub.2.1, ihs hsub.2.2 (fun x hx => hn x (by tauto)) (fun x hx => ht x (by tauto))⟩

theorem CopyOf.congr (h : CopyOf s s' a a') (hn : ∀ p ∈ a.nodes, t.node p = s.node p) (ht : ∀ q ∈ a.trees, t.tree q = s.tree q)
    (hn' : ∀ p ∈ a'.nodes, t'.node p = s'.node p) (ht' : ∀ q ∈ a'.trees, t'.tree q = s'.tree q) : CopyOf t t' a a' := by
  induction a generalizing a' with
  | nil =>
    cases a' with
    | nil => trivial
    | node => exact h
  | node l p q sub rt ihl ihs ihr =>
    cases a' with
    | nil => exact h
    | node l' p' q' sub' rt' =>
      obtain ⟨hnode, htree, hl, hsub, hr⟩ := h
      simp only [LvArray.nodes, LvArray.trees, List.mem_cons, List.mem_append] at hn ht hn' ht'
      refine ⟨?_, ?_, ?_, ?_, ?_⟩
      · rw [hn p (.inl rfl), hn' p' (.inl rfl), hnode]
      · have hq : q.map (fun x => ((t.tree x).head, (none : Option Nat))) = q.map (fun x => ((s.tree x).head, none)) := by
          cases q with
          | none => rfl
          | some x => simp [ht x (by simp)]
        have hq' : q'.map (fun x => ((t'.tree x).head, (t'.tree x).lastNodeLookedUp)) =
            q'.map (fun x => ((s'.tree x).head, (s'.tree x).lastNodeLookedUp)) := by
          cases q' with
          | none => rfl
          | some x => simp [ht' x (by simp)]
        rw [hq, hq', htree]
      · exact ihl hl (fun x hx => hn x (by tauto)) (fun x hx => ht x (by tauto)) (fun x hx => hn' x (by tauto))
          (fun x hx => ht' x (by tauto))
      · exact ihs hsub (fun x hx => hn x (by tauto)) (fun x hx => ht x (by tauto)) (fun x hx => hn' x (by tauto))
          (fun x hx => ht' x (by tauto))
      · exact ihr hr (fun x hx => hn x (by tauto)) (fun x hx => ht x (by tauto)) (fun x hx => hn' x (by tauto))
          (fun x hx => ht' x (by tauto))

end Congr

/-! ## Slots -/

/-- The next slots of a sequence. -/
def nextSlots (f : Nat → Nat) (n : Nat) : List Nat := (List.range n).map f

theorem nextSlots_add (f : Nat → Nat) (m n : Nat) : nextSlots f (m + n) = nextSlots f m ++ nextSlots (fun i => f (i + m)) n := by
  rw [nextSlots, List.range_add, List.map_append, List.map_map]
  congr 1
  exact List.map_congr_left fun i _ => congrArg f (Nat.add_comm m i)

@[simp] theorem length_nextSlots (f : Nat → Nat) (n : Nat) : (nextSlots f n).length = n := by simp [nextSlots]

theorem nodup_nextSlots {f : Nat → Nat} (hf : f.Injective) (n : Nat) : (nextSlots f n).Nodup := List.nodup_range.map hf

/-- The slots `N` and `T` were taken, and no others were changed. -/
structure TakenSlots (s s' : LvHeap α) (N T : List Nat) : Prop where
  nodes : N = nextSlots s.nodeSlots N.length
  trees : T = nextSlots s.treeSlots T.length
  nodeSlots : s'.nodeSlots = fun i => s.nodeSlots (i + N.length)
  treeSlots : s'.treeSlots = fun i => s.treeSlots (i + T.length)
  node (p : Nat) (hp : p ∉ N) : s'.node p = s.node p
  tree (q : Nat) (hq : q ∉ T) : s'.tree q = s.tree q

/-- The slots to be taken are different, and neither nodes of `N` nor trees of `T`. -/
structure FreshSlots (s : LvHeap α) (N T : List Nat) : Prop where
  nodeInj : s.nodeSlots.Injective
  treeInj : s.treeSlots.Injective
  node (i : Nat) : s.nodeSlots i ∉ N
  tree (i : Nat) : s.treeSlots i ∉ T

section TakenSlots

variable {s s₁ s₂ : LvHeap α} {N N₁ N₂ T T₁ T₂ : List Nat}

theorem TakenSlots.refl (s : LvHeap α) : TakenSlots s s [] [] := ⟨rfl, rfl, rfl, rfl, fun _ _ => rfl, fun _ _ => rfl⟩

theorem TakenSlots.trans (h₁ : TakenSlots s s₁ N₁ T₁) (h₂ : TakenSlots s₁ s₂ N₂ T₂) : TakenSlots s s₂ (N₁ ++ N₂) (T₁ ++ T₂) := by
  refine ⟨?_, ?_, ?_, ?_, fun p hp => ?_, fun q hq => ?_⟩
  · rw [List.length_append, nextSlots_add, ← h₁.nodeSlots, ← h₁.nodes, ← h₂.nodes]
  · rw [List.length_append, nextSlots_add, ← h₁.treeSlots, ← h₁.trees, ← h₂.trees]
  · funext i
    rw [h₂.nodeSlots, h₁.nodeSlots, List.length_append]
    simp only
    congr 1
    omega
  · funext i
    rw [h₂.treeSlots, h₁.treeSlots, List.length_append]
    simp only
    congr 1
    omega
  · rw [List.mem_append, not_or] at hp
    rw [h₂.node p hp.2, h₁.node p hp.1]
  · rw [List.mem_append, not_or] at hq
    rw [h₂.tree q hq.2, h₁.tree q hq.1]

theorem TakenSlots.modifyNode {p : Nat} (h : TakenSlots s s₁ N T) (hp : p ∈ N) (f : LvLevelNode α → LvLevelNode α) :
    TakenSlots s (s₁.modifyNode p f) N T where
  nodes := h.nodes
  trees := h.trees
  nodeSlots := h.nodeSlots
  treeSlots := h.treeSlots
  node q hq := (Function.update_of_ne (ne_of_mem_of_not_mem hp hq).symm _ _).trans (h.node q hq)
  tree := h.tree

theorem TakenSlots.modifyTree {p : Nat} (h : TakenSlots s s₁ N T) (hp : p ∈ T) (f : LvLevelTree → LvLevelTree) :
    TakenSlots s (s₁.modifyTree p f) N T where
  nodes := h.nodes
  trees := h.trees
  nodeSlots := h.nodeSlots
  treeSlots := h.treeSlots
  node := h.node
  tree q hq := (Function.update_of_ne (ne_of_mem_of_not_mem hp hq).symm _ _).trans (h.tree q hq)

theorem TakenSlots.mem_node {p : Nat} (h : TakenSlots s s₁ N T) (hp : p ∈ N) : ∃ i, p = s.nodeSlots i := by
  rw [h.nodes] at hp
  obtain ⟨i, -, rfl⟩ := List.mem_map.1 hp
  exact ⟨i, rfl⟩

theorem TakenSlots.mem_tree {q : Nat} (h : TakenSlots s s₁ N T) (hq : q ∈ T) : ∃ i, q = s.treeSlots i := by
  rw [h.trees] at hq
  obtain ⟨i, -, rfl⟩ := List.mem_map.1 hq
  exact ⟨i, rfl⟩

theorem FreshSlots.taken (hf : FreshSlots s N T) (h : TakenSlots s s₁ N₁ T₁) : FreshSlots s₁ N T := by
  refine ⟨fun i j hij => ?_, fun i j hij => ?_, fun i => ?_, fun i => ?_⟩
  · rw [h.nodeSlots] at hij
    exact Nat.add_right_cancel (hf.nodeInj hij)
  · rw [h.treeSlots] at hij
    exact Nat.add_right_cancel (hf.treeInj hij)
  · rw [h.nodeSlots]
    exact hf.node _
  · rw [h.treeSlots]
    exact hf.tree _

theorem FreshSlots.mono {N' T' : List Nat} (hf : FreshSlots s N T) (hN : N' ⊆ N) (hT : T' ⊆ T) : FreshSlots s N' T' :=
  ⟨hf.nodeInj, hf.treeInj, fun i hi => hf.node i (hN hi), fun i hi => hf.tree i (hT hi)⟩

/-- What is taken first stays when more is taken. -/
theorem TakenSlots.keeps (h₁ : TakenSlots s s₁ N₁ T₁) (h₂ : TakenSlots s₁ s₂ N₂ T₂) (hf : FreshSlots s N T) :
    (∀ p ∈ N₁, s₂.node p = s₁.node p) ∧ ∀ q ∈ T₁, s₂.tree q = s₁.tree q := by
  have h := h₁.trans h₂
  have hn := nodup_nextSlots hf.nodeInj (N₁ ++ N₂).length
  have ht := nodup_nextSlots hf.treeInj (T₁ ++ T₂).length
  rw [← h.nodes] at hn
  rw [← h.trees] at ht
  exact ⟨fun p hp => h₂.node p fun hp' => (List.nodup_append.1 hn).2.2 p hp p hp' rfl,
    fun q hq => h₂.tree q fun hq' => (List.nodup_append.1 ht).2.2 q hq q hq' rfl⟩

/-- What is in use stays. -/
theorem TakenSlots.keeps_used (h : TakenSlots s s₁ N₁ T₁) (hf : FreshSlots s N T) :
    (∀ p ∈ N, s₁.node p = s.node p) ∧ ∀ q ∈ T, s₁.tree q = s.tree q := by
  refine ⟨fun p hp => h.node p fun hp' => ?_, fun q hq => h.tree q fun hq' => ?_⟩
  · obtain ⟨i, rfl⟩ := h.mem_node hp'
    exact hf.node i hp
  · obtain ⟨i, rfl⟩ := h.mem_tree hq'
    exact hf.tree i hq

end TakenSlots

/-! ## References -/

/-- The base variables that the alias containers of an array point to. -/
def LvHeap.conts (s : LvHeap α) (a : LvArray) : List Nat := a.nodes.filterMap fun p => (s.node p).aliasCont

/-- A further reference to each of the base variables `C`. -/
def addRefs (refCntMaint : Bool) (C : List Nat) (base : Nat → LvBaseVar) : Nat → LvBaseVar := fun lv =>
  let n : Nat := if refCntMaint then C.count lv else 0
  { base lv with trefcnt := (base lv).trefcnt + n, crefcnt := (base lv).crefcnt + n }

@[simp] theorem addRefs_nil (rc : Bool) (base : Nat → LvBaseVar) : addRefs rc [] base = base := by
  funext lv
  simp [addRefs]

theorem addRefs_false (C : List Nat) (base : Nat → LvBaseVar) : addRefs false C base = base := by
  funext lv
  simp [addRefs]

theorem addRefs_append (rc : Bool) (C D : List Nat) (base : Nat → LvBaseVar) :
    addRefs rc (C ++ D) base = addRefs rc D (addRefs rc C base) := by
  funext lv
  cases rc <;> simp [addRefs, List.count_append, Int.add_assoc]

theorem conts_congr {s t : LvHeap α} {a : LvArray} (h : ∀ p ∈ a.nodes, t.node p = s.node p) : t.conts a = s.conts a :=
  List.filterMap_congr fun p hp => by rw [h p hp]

theorem conts_node (s : LvHeap α) (l sub r : LvArray) (p : Nat) (q : Option Nat) :
    s.conts (.node l p q sub r) = (s.node p).aliasCont.toList ++ (s.conts sub ++ (s.conts l ++ s.conts r)) := by
  simp only [LvHeap.conts, LvArray.nodes, List.filterMap_cons, List.filterMap_append]
  cases (s.node p).aliasCont <;> rfl

theorem countCont_eq (rc : Bool) (cont : Option Nat) (s : LvHeap α) :
    countCont rc cont s = { s with base := addRefs rc cont.toList s.base } := by
  cases cont with
  | none => simp [countCont]
  | some lv =>
    cases rc with
    | false => simp [countCont, addRefs_false]
    | true =>
      simp only [countCont, if_true, LvHeap.incrTrefcnt, LvHeap.incrCrefcnt, LvHeap.modifyBase]
      congr 1
      funext b
      by_cases hb : b = lv
      · simp [addRefs, hb]
      · simp [addRefs, hb, Ne.symm hb]

/-! ## The copy of an array -/

/-- What the copy of an array below the tree `lvt` leaves. -/
structure CopiedTo (rc : Bool) (s s' : LvHeap α) (baseLv lvt : Nat) (par r : Option Nat) (a a' : LvArray) : Prop where
  taken : TakenSlots s s' a'.nodes a'.trees
  rep : ArrayRep s' baseLv lvt par r a'
  copy : CopyOf s s' a a'
  base : s'.base = addRefs rc (s.conts a) s.base

/-- The routine copies an array. -/
def Clones (rc : Bool) (f : Nat → Nat → Option Nat → LvHeap α → Option (Nat × LvHeap α)) (a : LvArray) : Prop :=
  ∀ (s : LvHeap α) (baseLv lvt lvt' : Nat) (par par' r : Option Nat), ArrayRep s baseLv lvt par r a →
    FreshSlots s a.nodes (lvt' :: a.trees) →
      ∃ r' s' a', cloneRoot f r lvt' par' s = some (r', s') ∧ CopiedTo rc s s' (s.tree lvt').baseLv lvt' par' r' a a'

section Clone

variable {rc : Bool} {f : Nat → Nat → Option Nat → LvHeap α → Option (Nat × LvHeap α)} {a : LvArray} {s : LvHeap α} {baseLv : Nat}

/-- A tree copied by `LV_TREE_CLONE`, whose slots are `a'` in the end. -/
structure TreeCopied (rc : Bool) (s s' : LvHeap α) (tq baseLv : Nat) (parent : SbsParent) (a a' : LvArray) : Prop where
  taken : TakenSlots (s.setSbsChild parent (some (s.treeSlots 0))) s' a'.nodes (s.treeSlots 0 :: a'.trees)
  head : (s'.tree (s.treeSlots 0)).head = (s.tree tq).head
  sbsParent : (s'.tree (s.treeSlots 0)).sbsParent = parent
  treeBase : (s'.tree (s.treeSlots 0)).baseLv = baseLv
  clue : (s'.tree (s.treeSlots 0)).lastNodeLookedUp = none
  rep : ArrayRep s' baseLv (s.treeSlots 0) none (s'.tree (s.treeSlots 0)).avlRoot a'
  copy : CopyOf s s' a a'
  base : s'.base = addRefs rc (s.conts a) (s.setSbsChild parent (some (s.treeSlots 0))).base

theorem setSbsChild_slots (s : LvHeap α) (parent : SbsParent) (q : Option Nat) :
    (s.setSbsChild parent q).nodeSlots = s.nodeSlots ∧ (s.setSbsChild parent q).treeSlots = s.treeSlots ∧
      (s.setSbsChild parent q).tree = s.tree := by
  cases parent <;> exact ⟨rfl, rfl, rfl⟩

theorem setSbsChild_node {p : Nat} (s : LvHeap α) (parent : SbsParent) (q : Option Nat) (hp : parent ≠ .node p) :
    (s.setSbsChild parent q).node p = s.node p := by
  cases parent with
  | base lv => rfl
  | node p' => exact Function.update_of_ne (fun h => hp (congrArg SbsParent.node h.symm)) _ _

theorem lvTreeClone_spec (hc : Clones rc f a) {tq : Nat} (baseLv' : Nat) (parent : SbsParent)
    (hrep : ArrayRep s baseLv tq none (s.tree tq).avlRoot a) (hf : FreshSlots s a.nodes (tq :: a.trees))
    (hpar : ∀ p ∈ a.nodes, parent ≠ .node p) :
    ∃ s' a', lvTreeClone f tq parent baseLv' s = some s' ∧ TreeCopied rc s s' tq baseLv' parent a a' := by
  -- the new tree before its nodes
  obtain ⟨c, hcs⟩ : ∃ c, s.treeSlots 0 = c := ⟨_, rfl⟩
  obtain ⟨s₁, hs₁⟩ : ∃ s₁ : LvHeap α, s₁ = ((((s.lvtreeGetslot.2.modifyTree c fun t =>
        { t with ident := (s.tree tq).ident, sbsDepth := (s.tree tq).sbsDepth, avlHeight := (s.tree tq).avlHeight }).modifyTree c fun t =>
        { t with baseLv := baseLv', sbsParent := parent }).setSbsChild parent (some c)).modifyTree c fun t =>
        { t with lastNodeLookedUp := none }) := ⟨_, rfl⟩
  have hrun : lvTreeClone f tq parent baseLv' s =
      (cloneRoot f (s₁.tree tq).avlRoot c none s₁).bind fun r => some (r.2.modifyTree c fun t => { t with avlRoot := r.1 }) := by
    rw [hs₁, ← hcs]
    rfl
  have htaken : TakenSlots (s.setSbsChild parent (some c)) s₁ [] [c] := by
    rw [hs₁, ← hcs]
    constructor
    · rfl
    · cases parent <;> rfl
    · cases parent <;> rfl
    · cases parent <;> rfl
    · cases parent <;> exact fun _ _ => rfl
    · intro q hq
      have hqc : q ≠ s.treeSlots 0 := fun h => hq (by simp [h])
      cases parent <;> simp [LvHeap.modifyTree, LvHeap.setSbsChild, LvHeap.modifyNode, LvHeap.modifyBase, LvHeap.lvtreeGetslot, hqc]
  have htree : (s₁.tree c).head = (s.tree tq).head ∧ (s₁.tree c).sbsParent = parent ∧ (s₁.tree c).baseLv = baseLv' ∧
      (s₁.tree c).lastNodeLookedUp = none := by
    rw [hs₁]
    cases parent <;> simp [LvHeap.modifyTree, LvHeap.setSbsChild, LvHeap.modifyNode, LvHeap.modifyBase, LvLevelTree.head]
  have hbase : s₁.base = (s.setSbsChild parent (some c)).base := by
    rw [hs₁]
    cases parent <;> rfl
  -- the array that is copied
  have hnc : ∀ q ∈ tq :: a.trees, q ≠ c := by
    rintro q hq rfl
    exact hf.tree 0 (hcs ▸ hq)
  have hstree : ∀ q ∈ tq :: a.trees, s₁.tree q = s.tree q := fun q hq => by
    rw [htaken.tree q (by simpa using hnc q hq), (setSbsChild_slots _ _ _).2.2]
  have hsnode : ∀ p ∈ a.nodes, s₁.node p = s.node p := fun p hp => by
    rw [htaken.node p (by simp), setSbsChild_node _ _ _ (hpar p hp)]
  have hrep₁ : ArrayRep s₁ baseLv tq none (s₁.tree tq).avlRoot a := by
    rw [hstree tq (by simp)]
    exact hrep.congr hsnode fun q hq => hstree q (by simp [hq])
  have hf₁ : FreshSlots s₁ a.nodes (c :: a.trees) := by
    have hslots := htaken.nodeSlots
    have htslots := htaken.treeSlots
    simp only [(setSbsChild_slots s parent (some c)).1, List.length_nil, Nat.add_zero] at hslots
    simp only [(setSbsChild_slots s parent (some c)).2.1, List.length_singleton] at htslots
    refine ⟨hslots ▸ hf.nodeInj, fun i j hij => ?_, fun i => ?_, fun i => ?_⟩
    · rw [htslots] at hij
      exact Nat.add_right_cancel (hf.treeInj hij)
    · rw [hslots]
      exact hf.node i
    · rw [htslots, List.mem_cons, not_or]
      refine ⟨fun h => absurd (hf.treeInj (h.trans hcs.symm)) (by simp), fun h => hf.tree (i + 1) (by simp [h])⟩
  obtain ⟨r', s₂, a', hclone, hcop⟩ := hc s₁ baseLv tq c none none _ hrep₁ hf₁
  have hkeep := (htaken.keeps hcop.taken ⟨by simpa [setSbsChild_slots] using hf.nodeInj, by simpa [setSbsChild_slots] using hf.treeInj,
    fun _ => List.not_mem_nil, fun _ => List.not_mem_nil⟩).2 c (by simp)
  have htaken' := (htaken.trans hcop.taken).modifyTree (p := c) (by simp) fun t => { t with avlRoot := r' }
  have hnot : ∀ q ∈ a'.trees, q ≠ c := by
    rintro q hq rfl
    obtain ⟨i, hi⟩ := hcop.taken.mem_tree hq
    exact hf₁.tree i (by simp [← hi])
  have hsame : ∀ q ∈ a'.trees, (s₂.modifyTree c fun t => { t with avlRoot := r' }).tree q = s₂.tree q := fun q hq =>
    Function.update_of_ne (hnot q hq) _ _
  have hnew : (s₂.modifyTree c fun t => { t with avlRoot := r' }).tree c = { s₁.tree c with avlRoot := r' } := by
    rw [← hkeep]
    exact Function.update_self _ _ _
  refine ⟨s₂.modifyTree c fun t => { t with avlRoot := r' }, a', by rw [hrun, hclone]; rfl, ?_⟩
  constructor
  · rw [hcs]
    exact htaken'
  · rw [hcs, hnew]
    exact htree.1
  · rw [hcs, hnew]
    exact htree.2.1
  · rw [hcs, hnew]
    exact htree.2.2.1
  · rw [hcs, hnew]
    exact htree.2.2.2
  · rw [hcs, hnew]
    exact (htree.2.2.1 ▸ hcop.rep).congr (fun _ _ => rfl) hsame
  · exact hcop.copy.congr (fun p hp => (hsnode p hp).symm) (fun q hq => (hstree q (by simp [hq])).symm) (fun _ _ => rfl) hsame
  · rw [hcs, ← hbase, ← conts_congr hsnode]
    exact hcop.base

/-- The tree below a node. -/
def ChildRep (s : LvHeap α) (baseLv p : Nat) (q : Option Nat) (sub : LvArray) : Prop :=
  match q with
  | none => sub = .nil
  | some tq => (s.tree tq).sbsParent = .node p ∧ (s.tree tq).baseLv = baseLv ∧ ArrayRep s baseLv tq none (s.tree tq).avlRoot sub

theorem ChildRep.congr {t : LvHeap α} {p : Nat} {q : Option Nat} (h : ChildRep s baseLv p q a) (hn : ∀ x ∈ a.nodes, t.node x = s.node x)
    (ht : ∀ x ∈ q.toList ++ a.trees, t.tree x = s.tree x) : ChildRep t baseLv p q a := by
  cases q with
  | none => exact h
  | some tq =>
    obtain ⟨hpar, hbase, hrep⟩ := h
    have htq := ht tq (by simp)
    refine ⟨by rw [htq, hpar], by rw [htq, hbase], ?_⟩
    rw [htq]
    exact hrep.congr hn fun x hx => ht x (by simp [hx])

/-- The tree below a node copied below the node `c`. -/
theorem cloneChild_spec (hc : Clones rc f a) {p : Nat} (c baseLv' : Nat) {q : Option Nat} (hrep : ChildRep s baseLv p q a)
    (hf : FreshSlots s a.nodes (q.toList ++ a.trees)) (hca : c ∉ a.nodes) :
    ∃ s' q' a', cloneChild f q c baseLv' s = some s' ∧
      TakenSlots (s.modifyNode c fun n => { n with sbsChild := q' }) s' a'.nodes (q'.toList ++ a'.trees) ∧
      ChildRep s' baseLv' c q' a' ∧
      q'.map (fun t => ((s'.tree t).head, (s'.tree t).lastNodeLookedUp)) = q.map (fun t => ((s.tree t).head, none)) ∧
      CopyOf s s' a a' ∧ s'.base = addRefs rc (s.conts a) s.base := by
  cases q with
  | none =>
    obtain rfl : a = .nil := hrep
    exact ⟨_, none, .nil, rfl, .refl _, rfl, rfl, trivial, by simp [LvHeap.conts, LvArray.nodes, LvHeap.modifyNode]⟩
  | some tq =>
    obtain ⟨-, -, hrep⟩ := hrep
    have hpar : ∀ x ∈ a.nodes, SbsParent.node c ≠ .node x := by
      rintro x hx ⟨⟩
      exact hca hx
    obtain ⟨s', a', hrun, hcop⟩ := lvTreeClone_spec hc baseLv' (.node c) hrep hf hpar
    exact ⟨s', some (s.treeSlots 0), a', hrun, hcop.taken, ⟨hcop.sbsParent, hcop.treeBase, hcop.rep⟩, by simp [hcop.head, hcop.clue],
      hcop.copy, hcop.base⟩

/-- `lvAvlTreeCloneSubTree` copies every array, if it is not cut off. -/
theorem clones_array (rc : Bool) {fuel : Nat} (a : LvArray) (hfuel : a.nodes.length ≤ fuel) :
    Clones (α := α) rc (lvAvlTreeCloneSubTree rc fuel) a := by
  induction a generalizing fuel with
  | nil =>
    rintro s baseLv lvt lvt' par par' r hrep hf
    obtain rfl : r = none := hrep
    exact ⟨none, s, .nil, rfl, .refl s, rfl, trivial, by simp [LvHeap.conts, LvArray.nodes]⟩
  | node l p q sub rt ihl ihs ihr =>
    rintro s baseLv lvt lvt' par par' r ⟨rfl, -, -, hq, hl, hr, hsub⟩ hf
    rw [LvArray.nodes, List.length_cons, List.length_append, List.length_append] at hfuel
    obtain ⟨fuel, rfl⟩ := Nat.exists_eq_succ_of_ne_zero (show fuel ≠ 0 by omega)
    -- the new node before its subtrees
    obtain ⟨c, hcs⟩ : ∃ c, s.nodeSlots 0 = c := ⟨_, rfl⟩
    obtain ⟨m, hm⟩ : ∃ m : LvHeap α, m = s.lvtreenodeGetslot.2.modifyNode c fun n =>
      { s.node p with treeParent := lvt', avlParent := par', sbsChild := n.sbsChild, avlLeft := n.avlLeft, avlRight := n.avlRight } :=
      ⟨_, rfl⟩
    obtain ⟨s₀, hs₀⟩ : ∃ s₀, s₀ = countCont rc (m.node c).aliasCont m := ⟨_, rfl⟩
    have hrun : lvAvlTreeCloneSubTree rc (fuel + 1) p lvt' par' s =
        (cloneChild (lvAvlTreeCloneSubTree rc fuel) (s₀.node p).sbsChild c (s₀.tree lvt').baseLv s₀).bind fun s₁ =>
        (cloneRoot (lvAvlTreeCloneSubTree rc fuel) (s₁.node p).avlLeft lvt' (some c) s₁).bind fun left =>
        (cloneRoot (lvAvlTreeCloneSubTree rc fuel) ((left.2.modifyNode c fun n => { n with avlLeft := left.1 }).node p).avlRight lvt'
          (some c) (left.2.modifyNode c fun n => { n with avlLeft := left.1 })).bind fun right =>
        some (c, right.2.modifyNode c fun n => { n with avlRight := right.1 }) := by
      rw [hs₀, hm, ← hcs]
      rfl
    have hmc : m.node c = { s.node p with
        treeParent := lvt', avlParent := par', sbsChild := (s.node c).sbsChild, avlLeft := (s.node c).avlLeft, avlRight := (s.node c).avlRight } := by
      rw [hm]
      exact Function.update_self _ _ _
    rw [countCont_eq] at hs₀
    have htaken₀ : TakenSlots s s₀ [c] [] := by
      rw [hs₀, hm, ← hcs]
      exact ⟨rfl, rfl, rfl, rfl, fun x hx => Function.update_of_ne (by simpa using hx) _ _, fun _ _ => rfl⟩
    have hnode₀ : s₀.node c = m.node c := by rw [hs₀]
    have hbase₀ : s₀.base = addRefs rc (s.node p).aliasCont.toList s.base := by
      rw [hs₀, hmc, hm]
      rfl
    -- the tree below it
    have hused₀ := htaken₀.keeps_used hf
    simp only [LvArray.nodes, LvArray.trees] at hused₀ hf
    have hcn : c ∉ p :: (sub.nodes ++ (l.nodes ++ rt.nodes)) := hcs ▸ hf.node 0
    simp only [List.mem_cons, List.mem_append, not_or] at hcn
    have hsub₀ : ChildRep s₀ baseLv p q sub :=
      ChildRep.congr hsub (fun x hx => hused₀.1 x (by simp [hx])) fun x hx => hused₀.2 x (List.mem_cons_of_mem _ (List.mem_append_left _ hx))
    obtain ⟨s₁, q', sub', hchild, htakenc, hchild', hhead, hcopyc, hbasec⟩ := cloneChild_spec
      (ihs (show sub.nodes.length ≤ fuel by omega)) c (s.tree lvt').baseLv hsub₀
      ((hf.taken htaken₀).mono (fun x hx => by simp [hx]) fun x hx => List.mem_cons_of_mem _ (List.mem_append_left _ hx)) hcn.2.1
    have htaken₁ := (htaken₀.modifyNode (List.mem_singleton_self c) fun n => { n with sbsChild := q' }).trans htakenc
    have hused₁ := htaken₁.keeps_used hf
    -- the left subtree
    have hl₁ : ArrayRep s₁ baseLv lvt (some p) (s₁.node p).avlLeft l := by
      rw [hused₁.1 p (by simp)]
      exact hl.congr (fun x hx => hused₁.1 x (by simp [hx])) fun x hx => hused₁.2 x (by simp [hx])
    obtain ⟨left, s₂, l', hleft, hcop₂⟩ := ihl (show l.nodes.length ≤ fuel by omega) s₁ baseLv lvt lvt' (some p) (some c) _ hl₁
      ((hf.taken htaken₁).mono (fun x hx => by simp [hx]) (List.cons_subset_cons _ fun x hx => by simp [hx]))
    obtain ⟨m₂, hm₂⟩ : ∃ m₂, m₂ = s₂.modifyNode c fun n => { n with avlLeft := left } := ⟨_, rfl⟩
    have htaken₂ := (htaken₁.trans hcop₂.taken).modifyNode (p := c) (by simp) fun n => { n with avlLeft := left }
    rw [← hm₂] at htaken₂
    have hused₂ := htaken₂.keeps_used hf
    -- the right subtree
    have hr₂ : ArrayRep m₂ baseLv lvt (some p) (m₂.node p).avlRight rt := by
      rw [hused₂.1 p (by simp)]
      exact hr.congr (fun x hx => hused₂.1 x (by simp [hx])) fun x hx => hused₂.2 x (by simp [hx])
    obtain ⟨right, s₃, r', hright, hcop₃⟩ := ihr (show rt.nodes.length ≤ fuel by omega) m₂ baseLv lvt lvt' (some p) (some c) _ hr₂
      ((hf.taken htaken₂).mono (fun x hx => by simp [hx]) (List.cons_subset_cons _ fun x hx => by simp [hx]))
    obtain ⟨s', hs'⟩ : ∃ s', s' = s₃.modifyNode c fun n => { n with avlRight := right } := ⟨_, rfl⟩
    have htaken₃ := (htaken₂.trans hcop₃.taken).modifyNode (p := c) (by simp) fun n => { n with avlRight := right }
    rw [← hs'] at htaken₃
    have hdone : cloneRoot (lvAvlTreeCloneSubTree rc (fuel + 1)) (some p) lvt' par' s = some (some c, s') := by
      rw [hused₀.1 p (by simp), hq, hused₀.2 lvt' (by simp)] at hrun
      rw [cloneRoot, hrun, hchild, Option.bind_some, hleft, Option.bind_some, ← hm₂, hright, hs']
      rfl
    -- what was copied first is still there
    have hnd : (c :: (sub'.nodes ++ (l'.nodes ++ r'.nodes))).Nodup := by
      have hnd := nodup_nextSlots hf.nodeInj (([c] ++ sub'.nodes) ++ l'.nodes ++ r'.nodes).length
      rw [← htaken₃.nodes] at hnd
      simpa using hnd
    simp only [List.nodup_cons, List.mem_append, not_or] at hnd
    have hkeep₁ := (htaken₀.modifyNode (List.mem_singleton_self c) fun n => { n with sbsChild := q' }).keeps htakenc hf
    have hkeep₂ := htaken₁.keeps hcop₂.taken hf
    have hkeep₃ := htaken₂.keeps hcop₃.taken hf
    have hm₂n : ∀ x, x ≠ c → m₂.node x = s₂.node x := fun x hx => by
      rw [hm₂]
      exact Function.update_of_ne hx _ _
    have hs'n : ∀ x, x ≠ c → s'.node x = s₃.node x := fun x hx => by
      rw [hs']
      exact Function.update_of_ne hx _ _
    have hm₂t : m₂.tree = s₂.tree := by rw [hm₂]; rfl
    have hs't : s'.tree = s₃.tree := by rw [hs']; rfl
    have hsubn : ∀ x ∈ sub'.nodes, s'.node x = s₁.node x := fun x hx => by
      have hxc : x ≠ c := fun h => hnd.1.1 (h ▸ hx)
      rw [hs'n x hxc, hkeep₃.1 x (by simp [hx]), hm₂n x hxc, hkeep₂.1 x (by simp [hx])]
    have hsubt : ∀ x ∈ q'.toList ++ sub'.trees, s'.tree x = s₁.tree x := fun x hx => by
      rw [hs't, hkeep₃.2 x (List.mem_append_left _ hx), hm₂t, hkeep₂.2 x hx]
    have hln : ∀ x ∈ l'.nodes, s'.node x = s₂.node x := fun x hx => by
      have hxc : x ≠ c := fun h => hnd.1.2.1 (h ▸ hx)
      rw [hs'n x hxc, hkeep₃.1 x (by simp [hx]), hm₂n x hxc]
    have hlt : ∀ x ∈ l'.trees, s'.tree x = s₂.tree x := fun x hx => by
      rw [hs't, hkeep₃.2 x (List.mem_append_right _ hx), hm₂t]
    have hrn : ∀ x ∈ r'.nodes, s'.node x = s₃.node x := fun x hx => hs'n x fun h => hnd.1.2.2 (h ▸ hx)
    have hrt : ∀ x ∈ r'.trees, s'.tree x = s₃.tree x := fun x _ => by rw [hs't]
    have hnew : s'.node c = { s.node p with
        treeParent := lvt', avlParent := par', sbsChild := q', avlLeft := left, avlRight := right } := by
      have h₁ : s₁.node c = { s₀.node c with sbsChild := q' } := (hkeep₁.1 c (by simp)).trans (Function.update_self _ _ _)
      have h₂ : m₂.node c = { s₂.node c with avlLeft := left } := by
        rw [hm₂]
        exact Function.update_self _ _ _
      have h₃ : s'.node c = { s₃.node c with avlRight := right } := by
        rw [hs']
        exact Function.update_self _ _ _
      rw [h₃, hkeep₃.1 c (by simp), h₂, hkeep₂.1 c (by simp), h₁, hnode₀, hmc]
    have hlvt : ∀ x, x = lvt' → s₁.tree x = s.tree x ∧ m₂.tree x = s.tree x := by
      rintro x rfl
      exact ⟨hused₁.2 x (by simp), hused₂.2 x (by simp)⟩
    refine ⟨some c, s', .node l' c q' sub' r', hdone, ?_, ?_, ?_, ?_⟩
    · simpa [LvArray.nodes, LvArray.trees] using htaken₃
    · have hrep₂ := hcop₂.rep.congr hln hlt
      have hrep₃ := hcop₃.rep.congr hrn hrt
      rw [(hlvt lvt' rfl).1] at hrep₂
      rw [(hlvt lvt' rfl).2] at hrep₃
      refine ⟨rfl, by rw [hnew], by rw [hnew], by rw [hnew], ?_, ?_, hchild'.congr hsubn hsubt⟩
      · rw [hnew]
        exact hrep₂
      · rw [hnew]
        exact hrep₃
    · refine ⟨by rw [hnew]; rfl, ?_, ?_, ?_, ?_⟩
      · have hq' : q'.map (fun t => ((s'.tree t).head, (s'.tree t).lastNodeLookedUp)) =
            q'.map (fun t => ((s₁.tree t).head, (s₁.tree t).lastNodeLookedUp)) := by
          cases q' with
          | none => rfl
          | some t => simp [hsubt t (by simp)]
        rw [hq', hhead]
        cases q with
        | none => rfl
        | some t => simp [hused₀.2 t (by simp)]
      · exact hcop₂.copy.congr (fun x hx => (hused₁.1 x (by simp [hx])).symm) (fun x hx => (hused₁.2 x (by simp [hx])).symm) hln hlt
      · exact hcopyc.congr (fun x hx => (hused₀.1 x (by simp [hx])).symm) (fun x hx => (hused₀.2 x (by simp [hx])).symm) hsubn
          fun x hx => hsubt x (by simp [hx])
      · exact hcop₃.copy.congr (fun x hx => (hused₂.1 x (by simp [hx])).symm) (fun x hx => (hused₂.2 x (by simp [hx])).symm) hrn hrt
    · have hm₂b : m₂.base = s₂.base := by rw [hm₂]; rfl
      have hs'b : s'.base = s₃.base := by rw [hs']; rfl
      rw [conts_node, addRefs_append, addRefs_append, addRefs_append, hs'b, hcop₃.base, hm₂b, hcop₂.base, hbasec, hbase₀,
        conts_congr fun x hx => hused₀.1 x (by simp [hx]), conts_congr fun x hx => hused₁.1 x (by simp [hx]),
        conts_congr fun x hx => hused₂.1 x (by simp [hx])]

end Clone

end Gtm
