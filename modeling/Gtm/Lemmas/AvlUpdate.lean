import Gtm.Lemmas.AvlRep

/-!
# Insertion and deletion in the nodes

The ways up of `lvAvlTreeNodeInsert` and `lvAvlTreeNodeDelete` do in the nodes what `Grown` and `Shrunk` do to a tree, as long as the
directions of the nodes on the way lead to the place.
-/

namespace Gtm

open BalTree BinTree

/-- What the mending of a tree keeps: the keys, the directions and the clue. -/
structure Mended (s s' : LvTreeState) : Prop where
  kept : Kept s.nodes s'.nodes
  lastNodeLookedUp : s'.lvt.lastNodeLookedUp = s.lvt.lastNodeLookedUp
  lastNodeMin : s'.lvt.lastNodeMin = s.lvt.lastNodeMin
  lastNodeMax : s'.lvt.lastNodeMax = s.lvt.lastNodeMax

theorem Mended.trans {s₁ s₂ s₃ : LvTreeState} (h : Mended s₁ s₂) (h' : Mended s₂ s₃) : Mended s₁ s₃ where
  kept := h.kept.trans h'.kept
  lastNodeLookedUp := h'.lastNodeLookedUp.trans h.lastNodeLookedUp
  lastNodeMin := h'.lastNodeMin.trans h.lastNodeMin
  lastNodeMax := h'.lastNodeMax.trans h.lastNodeMax

theorem Mended.ofNodes {s : LvTreeState} {ns : LvNodes} (h : Kept s.nodes ns) : Mended s { s with nodes := ns } := ⟨h, rfl, rfl, rfl⟩

theorem attach_mended (par x : Option Nat) (s : LvTreeState) : Mended s (attach par x s) := by
  cases par with
  | none => exact ⟨.refl _, rfl, rfl, rfl⟩
  | some q => exact ⟨attach_kept _ _ _, rfl, rfl, rfl⟩

theorem attach_height (par x : Option Nat) (s : LvTreeState) : (attach par x s).lvt.avlHeight = s.lvt.avlHeight := by
  cases par <;> rfl

/-- The state holds a tree. -/
def Holds (s : LvTreeState) (t : BinTree Nat) : Prop := TreeRep s.nodes none s.lvt.avlRoot t

section Rotate

variable {s : LvTreeState} {c : List (Frame Nat)} {k : Side} {R A N : Nat} {B C D E : BinTree Nat} {bA bN bR : Option Side}

/-- A subtree that has been rotated, as `rep_singleRotation` and `rep_doubleRotation` tell it, is put in its place. -/
theorem holds_rotated {t t' : BinTree Nat} {rot : Nat × LvNodes} (root : Nat) (h : Holds s (plug c t)) (hn : (plug c t).toList.Nodup)
    (hd : Directs (dirOf s.nodes) c) (hl : t'.toList = t.toList) (hk : Kept s.nodes rot.2)
    (hrot : ∀ x, TreeRep s.nodes (parentOf none c) x t → rot.1 = root ∧
      (∀ p, p ∉ t.toList → SameShape s.nodes rot.2 p ∧ (rot.2 p).avlParent = (s.nodes p).avlParent) ∧
      TreeRep (rot.2.setParent root (parentOf none c)) (parentOf none c) (some root) t') :
    let s' := attach (parentOf none c) (some rot.1) { s with nodes := rot.2.setParent rot.1 (parentOf none c) }
    Holds s' (plug c t') ∧ Mended s s' ∧ s'.lvt.avlHeight = s.lvt.avlHeight := by
  obtain ⟨x, hc, ht⟩ := (rep_plug _ _).1 h
  obtain ⟨hroot, hout, hrep⟩ := hrot x ht
  have hdis := (List.nodup_append.1 ((toList_plug_perm _ _).nodup hn)).2.2
  have hmem : root ∈ t.toList := hl ▸ hrep.root_mem
  rw [hroot]
  have hkept : Kept s.nodes (rot.2.setParent root (parentOf none c)) := hk.setParent _ _
  refine ⟨rep_attach hc (hkept.directs hd) (toList_plug_congr c hl ▸ hn) (fun p hp => ?_) hrep, ?_, attach_height _ _ _⟩
  · have hpt : p ∉ t.toList := fun hpt => hdis p hpt p hp rfl
    have hne : p ≠ root := fun hf => hpt (hf ▸ hmem)
    obtain ⟨hshape, hpar⟩ := hout p hpt
    refine ⟨by simpa [SameShape] using hshape, ?_⟩
    rw [LvNodes.setParent_parent, if_neg hne, hpar]
  · exact (Mended.ofNodes hkept).trans (attach_mended _ _ _)

theorem holds_single (h : Holds s (plug c (mk k (mk k B A bA C) R bR D))) (hn : (plug c (mk k (mk k B A bA C) R bR D)).toList.Nodup)
    (hd : Directs (dirOf s.nodes) c) :
    let rot := lvAvlTreeSingleRotation R A k s.nodes
    let s' := attach (parentOf none c) (some rot.1) { s with nodes := rot.2.setParent rot.1 (parentOf none c) }
    Holds s' (plug c (mk k B A (if bA.isSome then none else some k.flip) (mk k C R (if bA.isSome then none else bR) D))) ∧
      Mended s s' ∧ s'.lvt.avlHeight = s.lvt.avlHeight := by
  have hnt := (List.nodup_append.1 ((toList_plug_perm _ _).nodup hn)).1
  refine holds_rotated A h hn hd (toList_single _ _ _ _ _ _ _ _ _ _) (singleRotation_kept _ _ _ _) ?_
  intro x hx
  obtain rfl : x = some R := ((rep_mk _ _ _ _ _).1 hx).1
  exact rep_singleRotation hx hnt

theorem holds_double (h : Holds s (plug c (mk k (mk k B A bA (mk k C N bN E)) R bR D)))
    (hn : (plug c (mk k (mk k B A bA (mk k C N bN E)) R bR D)).toList.Nodup) (hd : Directs (dirOf s.nodes) c) :
    let rot := lvAvlTreeDoubleRotation R A k s.nodes
    let s' := attach (parentOf none c) (some rot.1) { s with nodes := rot.2.setParent rot.1 (parentOf none c) }
    Holds s' (plug c (mk k (mk k B A (anchorBal k bN) C) N none (mk k E R (rootBal k bN) D))) ∧ Mended s s' ∧
      s'.lvt.avlHeight = s.lvt.avlHeight := by
  have hnt := (List.nodup_append.1 ((toList_plug_perm _ _).nodup hn)).1
  refine holds_rotated N h hn hd (toList_double _ _ _ _ _ _ _ _ _ _ _ _ _ _) (doubleRotation_kept _ _ _ _) ?_
  intro x hx
  obtain rfl : x = some R := ((rep_mk _ _ _ _ _).1 hx).1
  exact rep_doubleRotation hx hnt

end Rotate

/-! ## The way up after an insertion -/

/-- A tree that has grown is one new node, or its root is out of balance. -/
def GrownRoot : BinTree Nat → Prop
  | nil => False
  | node l _ b r => b.isSome ∨ max l.height r.height = 0

theorem grownRoot_mk (s : Side) (t : BinTree Nat) (a : Nat) (b : Option Side) (u : BinTree Nat) :
    GrownRoot (mk s t a b u) ↔ b.isSome ∨ max t.height u.height = 0 := by
  cases s
  · rfl
  · simp only [mk, GrownRoot, Nat.max_comm]

/-- The way up has gone from the frames `f :: c` to `f' :: c'`, with the same tree in the end. -/
structure Climbed (root : Option Nat) (ns : LvNodes) (f : Frame Nat) (c : List (Frame Nat)) (t : BinTree Nat) (res : Nat × LvNodes)
    (f' : Frame Nat) (c' : List (Frame Nat)) (t' : BinTree Nat) : Prop where
  node : res.1 = f'.a
  rep : TreeRep res.2 none root (plug (f' :: c') t')
  kept : Kept ns res.2
  list : (plug (f' :: c') t').toList = (plug (f :: c) t).toList
  directs : Directs (dirOf ns) (f' :: c')
  grownRoot : GrownRoot t'
  grown {t'' : BinTree Nat} {g : Bool} (h : Grown (f' :: c') t' t'' g) : Grown (f :: c) t t'' g
  avl {h : Nat} (hc : AvlCtx (f :: c) h) (ht : t.Avl) (hh : t.height = h + 1) : ∃ h', AvlCtx (f' :: c') h' ∧ t'.Avl ∧ t'.height = h' + 1

variable {c : List (Frame Nat)} {ns : LvNodes} {par : Option Nat} {f : Frame Nat} {fuel : Nat} {t : BinTree Nat} {s : LvTreeState}

theorem TreeRepCtx.root_mem {root : Option Nat} {x : Option Nat} (h : TreeRepCtx ns par root c x)
    (hc : c ≠ []) : ∃ p ∈ ctxNodes c, root = some p := by
  induction c generalizing x with
  | nil => exact absurd rfl hc
  | cons f c ih =>
    obtain ⟨-, -, -, -, h⟩ := h
    cases c with
    | nil => exact ⟨f.a, by simp, h⟩
    | cons g c =>
      obtain ⟨p, hp, hroot⟩ := ih h (by simp)
      refine ⟨p, ?_, hroot⟩
      exact List.mem_append_right _ hp

/-- The loop of `lvAvlTreeNodeInsert` ends at the top or at a node that is out of balance. -/
theorem insertLoop_spec {root : Option Nat}
    (h : TreeRep ns none root (plug (f :: c) t)) (hn : (plug (f :: c) t).toList.Nodup) (hd : Directs (dirOf ns) (f :: c))
    (hg : GrownRoot t) (hf : c.length ≤ fuel) :
    ∃ f' c' t', Climbed root ns f c t (insertLoop root fuel f.a ns) f' c' t' ∧ (c' = [] ∨ f'.bal.isSome) := by
  have hstay : Climbed root ns f c t (f.a, ns) f c t := ⟨rfl, h, .refl _, rfl, hd, hg, id, fun h₁ h₂ h₃ => ⟨_, h₁, h₂, h₃⟩⟩
  induction fuel generalizing c f t ns with
  | zero =>
    obtain rfl := List.length_eq_zero_iff.1 (Nat.le_zero.1 hf)
    exact ⟨f, [], t, hstay, .inl rfl⟩
  | succ fuel ih =>
    obtain ⟨x, ⟨-, -, hbal, hpar, hc⟩, -⟩ := (rep_plug _ _).1 h
    have hdir : (ns f.a).descentDir = f.side := hd f (by simp)
    rw [insertLoop]
    cases c with
    | nil =>
      have hroot : root = some f.a := hc
      rw [if_pos hroot]
      exact ⟨f, [], t, hstay, .inl rfl⟩
    | cons f₂ c =>
      have hroot : root ≠ some f.a := by
        obtain ⟨p, hp, rfl⟩ := hc.root_mem (by simp)
        rintro ⟨⟩
        have := (List.nodup_append.1 ((toList_plug_perm _ _).nodup hn)).2.1
        rw [ctxNodes_cons, List.cons_append, List.nodup_cons] at this
        exact this.1 (List.mem_append_right _ hp)
      rw [if_neg hroot]
      by_cases hsome : (ns f.a).balance.isSome
      · rw [if_pos hsome]
        exact ⟨f, f₂ :: c, t, hstay, .inr (hbal ▸ hsome)⟩
      · rw [if_neg hsome]
        obtain ⟨side, a, bal, u⟩ := f
        simp only [hbal, Bool.not_eq_true, Option.isSome_eq_false_iff, Option.isNone_iff_eq_none] at hsome hdir hpar
        subst hsome
        simp only [LvNodes.setBalance_parent, hpar, parentOf, hdir]
        -- the node is now higher on the side it was reached from
        have h' : TreeRep (ns.setBalance a (some side)) none root (plug (f₂ :: c) (mk side t a (some side) u)) := rep_setBalance h hn _
        have hlist : (plug (f₂ :: c) (mk side t a (some side) u)).toList = (plug (⟨side, a, none, u⟩ :: f₂ :: c) t).toList :=
          toList_plug_congr _ (toList_bal _ _ _ _ _ _)
        have hk : Kept ns (ns.setBalance a (some side)) := (Kept.refl ns).setBalance _ _
        have hd' : Directs (dirOf (ns.setBalance a (some side))) (f₂ :: c) := hk.directs fun g hg => hd g (by simp [hg])
        have hg' : GrownRoot (mk side t a (some side) u) := (grownRoot_mk _ _ _ _ _).2 (.inl rfl)
        obtain ⟨f', c', t', hcl, hend⟩ := ih h' (hlist ▸ hn) hd' hg' (by simpa using hf)
          ⟨rfl, h', .refl _, rfl, hd', hg', id, fun h₁ h₂ h₃ => ⟨_, h₁, h₂, h₃⟩⟩
        refine ⟨f', c', t', ⟨hcl.node, hcl.rep, hk.trans hcl.kept, hcl.list.trans hlist, ?_, hcl.grownRoot, fun hgr => .up (hcl.grown hgr), ?_⟩,
          hend⟩
        · exact fun g hg => (hk.dir g.a).symm.trans (hcl.directs g hg)
        · rintro n ⟨hu, hfit, hctx⟩ ht hh
          have hfit : n = u.height := hfit
          refine hcl.avl (h := max n u.height + 1) hctx ((avl_mk _ _ _ _ _).2 ⟨ht, hu, ?_⟩) (by rw [height_mk]; omega)
          simp only [Fits, if_pos]
          omega

/-- What `lvAvlTreeNodeInsert` does at the node where the loop ends mends the tree. -/
theorem insertRebalance_spec {h : Nat}
    (hs : Holds s (plug (f :: c) t)) (hn : (plug (f :: c) t).toList.Nodup) (hd : Directs (dirOf s.nodes) (f :: c)) (hg : GrownRoot t)
    (hc : AvlCtx (f :: c) h) (hta : t.Avl) (hh : t.height = h + 1) (hend : c = [] ∨ f.bal.isSome) :
    ∃ t' g, Grown (f :: c) t t' g ∧ Holds (insertRebalance f.a s) t' ∧ Mended s (insertRebalance f.a s) ∧
      (insertRebalance f.a s).lvt.avlHeight = s.lvt.avlHeight + g.toNat := by
  obtain ⟨x, ⟨hx, -, hbal, hpar, -⟩, ht⟩ := (rep_plug _ _).1 hs
  obtain ⟨k, R, b, D⟩ := f
  have hdir : (s.nodes R).descentDir = k := hd ⟨k, R, b, D⟩ (by simp)
  have hdc : Directs (dirOf s.nodes) c := fun g hg => hd g (by simp [hg])
  obtain ⟨B, A, bA, C, rfl⟩ := exists_mk_of_height k (t := t) (by omega)
  obtain ⟨rfl, -, hbA, -⟩ := (rep_mk _ _ _ _ _).1 ht
  rw [grownRoot_mk] at hg
  rw [height_mk] at hh
  simp only [insertRebalance, hdir, hx, hbal, hpar, hbA]
  rcases b with _ | k'
  · obtain rfl : c = [] := by simpa using hend
    refine ⟨_, true, .up (.top _), ?_, ?_, ?_⟩
    · exact rep_setBalance (c := []) hs hn _
    · exact ⟨(Kept.refl _).setBalance _ _, rfl, rfl, rfl⟩
    · rfl
  · rw [if_neg (by simp)]
    rcases k.eq_or_flip k' with rfl | rfl
    · rw [if_neg (by simp [Ne.symm k'.flip_ne])]
      obtain ⟨-, hfit, -⟩ := hc
      have hfit : h = D.height + 1 := by simpa [Fits] using hfit
      obtain ⟨kA, rfl⟩ := Option.isSome_iff_exists.1 (hg.resolve_right (by omega))
      rcases k'.eq_or_flip kA with rfl | rfl
      · rw [if_pos rfl]
        obtain ⟨h₁, h₂, h₃⟩ := holds_single hs hn hdc
        exact ⟨_, false, .single _, h₁, h₂, h₃⟩
      · rw [if_neg (by simp [k'.flip_ne])]
        have hCB : C.height = B.height + 1 := by simpa [Fits, k'.flip_ne] using ((avl_mk _ _ _ _ _).1 hta).2.2
        obtain ⟨C, N, bN, E, rfl⟩ := exists_mk_of_height k' (t := C) (by omega)
        obtain ⟨h₁, h₂, h₃⟩ := holds_double hs hn hdc
        exact ⟨_, false, .double _ _ _, h₁, h₂, h₃⟩
    · rw [if_pos rfl]
      exact ⟨_, false, .even _, rep_setBalance (c := c) hs hn none, .ofNodes ((Kept.refl _).setBalance _ _), rfl⟩

/-! ## Insertion -/

/-- The keys and directions of all nodes but one are the same. -/
structure KeptBut (n : Nat) (ns ns' : LvNodes) : Prop where
  key {p : Nat} (hp : p ≠ n) : (ns' p).SameKey (ns p)
  dir {p : Nat} (hp : p ≠ n) : (ns' p).descentDir = (ns p).descentDir

theorem KeptBut.trans_kept {n : Nat} {ns₁ ns₂ ns₃ : LvNodes} (h : KeptBut n ns₁ ns₂) (h' : Kept ns₂ ns₃) : KeptBut n ns₁ ns₃ :=
  ⟨fun hp => (h'.key _).trans (h.key hp), fun hp => (h'.dir _).trans (h.dir hp)⟩

theorem initNode_fields (k : TreeKey) (parent : Option Nat) (slot : LvTreeNode) :
    (∀ s, (initNode k parent slot).child s = none) ∧ (initNode k parent slot).avlParent = parent ∧
      (initNode k parent slot).balance = none := by
  unfold initNode
  split <;> [split; skip] <;> refine ⟨fun s => ?_, rfl, rfl⟩ <;> cases s <;> rfl

/-- The bound of the clue for a new node at a place, on the side where its parent is if the place is on the side `side` of it. -/
def boundAt (side : Side) (c : List (Frame Nat)) (old : Option Nat) : Option Nat :=
  match c with
  | [] => none
  | f :: _ => if f.side = side then some f.a else old

/-- What `lvAvlTreeNodeInsert` makes of a tree at the place where the key is missing. -/
structure Inserted (k : TreeKey) (parent : Option Nat) (n : Nat) (c : List (Frame Nat)) (s s' : LvTreeState) (t' : BinTree Nat) :
    Prop where
  holds : Holds s' t'
  avl : t'.Avl
  height : s'.lvt.avlHeight = t'.height
  list : t'.toList = before c ++ n :: after c
  kept : KeptBut n s.nodes s'.nodes
  key : (s'.nodes n).SameKey (initNode k parent (s.nodes n))
  points : Points (dirOf s'.nodes) n t'
  clue : s'.lvt.lastNodeLookedUp = some n
  min : s'.lvt.lastNodeMin = boundAt .right c s.lvt.lastNodeMin
  max : s'.lvt.lastNodeMax = boundAt .left c s.lvt.lastNodeMax

theorem lvAvlTreeNodeInsert_spec {n : Nat} (k : TreeKey) (hs : Holds s (plug c nil))
    (hn : (plug c nil).toList.Nodup) (ha : (plug c nil).Avl) (hh : s.lvt.avlHeight = (plug c nil).height)
    (hd : Directs (dirOf s.nodes) c) (hnew : n ∉ (plug c nil).toList) :
    ∃ t', Inserted k (parentOf none c) n c s (lvAvlTreeNodeInsert k (parentOf none c) n s) t' := by
  obtain ⟨hchild, hparent, hbalance⟩ := initNode_fields k (parentOf none c) (s.nodes n)
  rw [(toList_plug_perm _ _).mem_iff] at hnew
  have hnc : n ∉ ctxNodes c := fun h => hnew (List.mem_append_right _ h)
  obtain ⟨ns, hns⟩ : ∃ ns, ns = s.nodes.modify n (initNode k (parentOf none c)) := ⟨_, rfl⟩
  have hnsn : ns n = initNode k (parentOf none c) (s.nodes n) := by rw [hns, LvNodes.modify_apply, if_pos rfl]
  have hnsp : ∀ p, p ≠ n → ns p = s.nodes p := fun p hp => by rw [hns, LvNodes.modify_apply, if_neg hp]
  have hkb : KeptBut n s.nodes ns := ⟨fun hp => by rw [hnsp _ hp]; exact .refl _, fun hp => by rw [hnsp _ hp]⟩
  have hrep : TreeRep ns (parentOf none c) (some n) (node nil n none nil) := by
    refine ⟨rfl, by rw [hnsn, hparent], by rw [hnsn, hbalance], ?_, ?_⟩
    · rw [hnsn]
      exact hchild .left
    · rw [hnsn]
      exact hchild .right
  have hnodup : (plug c (node nil n none nil)).toList.Nodup := by
    refine (toList_plug_perm _ _).symm.nodup ?_
    exact List.nodup_cons.2 ⟨hnc, (toList_plug_perm c nil).nodup hn⟩
  have hlist : (plug c (node nil n none nil)).toList = before c ++ n :: after c := by simp [toList_plug, toList]
  cases c with
  | nil =>
    refine ⟨node nil n none nil, ?_⟩
    simp only [lvAvlTreeNodeInsert, parentOf] at hns ⊢
    rw [← hns]
    exact ⟨hrep, ⟨trivial, trivial, rfl⟩, rfl, rfl, hkb, hnsn ▸ .refl _, .inl rfl, rfl, rfl, rfl⟩
  | cons f c =>
    obtain ⟨x, hc, -⟩ := (rep_plug _ _).1 hs
    have hout : ∀ g ∈ f :: c, g.a ≠ n := by
      rintro g hg rfl
      refine hnc (List.mem_flatMap.2 ⟨g, hg, by simp⟩)
    have hd' : Directs (dirOf ns) (f :: c) := fun g hg => (hkb.dir (hout g hg)).trans (hd g hg)
    have hdir : (ns f.a).descentDir = f.side := hd' f (by simp)
    have hplace : TreeRep (ns.setChild f.a f.side (some n)) none s.lvt.avlRoot (plug (f :: c) (node nil n none nil)) := by
      have := rep_attach hc hd' hnodup (fun p hp => ?_) hrep
      · simpa only [attach, parentOf, hdir] using this
      · have hpn : p ≠ n := fun hf => hnc (hf ▸ hp)
        rw [SameShape, hnsp p hpn]
        exact ⟨⟨fun _ => rfl, rfl⟩, rfl⟩
    have hk₁ : Kept ns (ns.setChild f.a f.side (some n)) := (Kept.refl ns).setChild _ _ _
    have hfuel : c.length ≤ s.lvt.avlHeight := by
      have := length_le_height_plug (f :: c) (nil : BinTree Nat)
      rw [List.length_cons] at this
      omega
    have hgrow : GrownRoot (node nil n none nil) := .inr rfl
    obtain ⟨f', c', t', hcl, hend⟩ := insertLoop_spec hplace hnodup (hk₁.directs hd') hgrow hfuel
    obtain ⟨-, hctx⟩ := (avl_plug _ _).1 ha
    obtain ⟨h', hctx', ha', hh'⟩ := hcl.avl (h := 0) hctx ⟨trivial, trivial, rfl⟩ rfl
    -- the tree where the loop ends, with the clue
    obtain ⟨lvt, hlvt⟩ : ∃ lvt : LvAvlTree, lvt =
        if f.side = .left then { s.lvt with lastNodeLookedUp := some n, lastNodeMax := some f.a }
        else { s.lvt with lastNodeLookedUp := some n, lastNodeMin := some f.a } := ⟨_, rfl⟩
    have hroot : lvt.avlRoot = s.lvt.avlRoot := by rw [hlvt]; cases f.side <;> rfl
    have hheight : lvt.avlHeight = s.lvt.avlHeight := by rw [hlvt]; cases f.side <;> rfl
    obtain ⟨res, hres⟩ : ∃ res, res = insertLoop s.lvt.avlRoot s.lvt.avlHeight f.a (ns.setChild f.a f.side (some n)) := ⟨_, rfl⟩
    have heq : lvAvlTreeNodeInsert k (parentOf none (f :: c)) n s = insertRebalance res.1 { lvt, nodes := res.2 } := by
      simp only [lvAvlTreeNodeInsert, parentOf] at hns ⊢
      rw [← hns, hdir, hres, hlvt]
      cases f.side <;> rfl
    rw [← hres] at hcl
    have hholds : Holds { lvt, nodes := res.2 } (plug (f' :: c') t') := by
      unfold Holds
      simpa only [hroot] using hcl.rep
    have hdr : Directs (dirOf res.2) (f' :: c') := hcl.kept.directs hcl.directs
    obtain ⟨t'', g, hg, h₁, h₂, h₃⟩ := insertRebalance_spec hholds (hcl.list ▸ hnodup) hdr hcl.grownRoot hctx' ha' hh' hend
    rw [← hcl.node] at h₁ h₂ h₃
    rw [heq]
    have hgrown := hcl.grown hg
    obtain ⟨h₄, h₅, h₆⟩ := hgrown.spec (h := 0) hctx ⟨trivial, trivial, rfl⟩ rfl
    have hkept : Kept ns (insertRebalance res.1 { lvt, nodes := res.2 }).nodes := (hk₁.trans hcl.kept).trans h₂.kept
    refine ⟨t'', h₁, h₄, ?_, h₆.trans hlist, hkb.trans_kept hkept, ?_, ?_, ?_, ?_, ?_⟩
    · rw [h₃, h₅, hheight, hh, height_plug]
      rfl
    · rw [← hnsn]
      exact hkept.key n
    · exact hgrown.points (hkept.directs hd') hout (.inl rfl) (by simp [RootDirects])
    · rw [h₂.lastNodeLookedUp, hlvt]
      cases f.side <;> rfl
    · rw [h₂.lastNodeMin, hlvt, boundAt]
      cases f.side <;> rfl
    · rw [h₂.lastNodeMax, hlvt, boundAt]
      cases f.side <;> rfl

/-! ## The way up after a deletion -/

/-- The balancing loop of `lvAvlTreeNodeDelete` mends the tree. -/
theorem deleteLoop_spec {h : Nat} (hs : Holds s (plug c t))
    (hn : (plug c t).toList.Nodup) (hd : Directs (dirOf s.nodes) c) (hc : AvlCtx c (h + 1)) (ht : t.Avl) (hh : t.height = h)
    (hf : c.length ≤ fuel) :
    ∃ t' g, Shrunk c t t' g ∧ Holds (deleteLoop fuel (parentOf none c) s) t' ∧ Mended s (deleteLoop fuel (parentOf none c) s) ∧
      (deleteLoop fuel (parentOf none c) s).lvt.avlHeight = s.lvt.avlHeight - g.toNat := by
  induction fuel generalizing c t s h with
  | zero =>
    obtain rfl := List.length_eq_zero_iff.1 (Nat.le_zero.1 hf)
    exact ⟨t, true, .top t, hs, ⟨.refl _, rfl, rfl, rfl⟩, rfl⟩
  | succ fuel ih =>
    cases c with
    | nil => exact ⟨t, true, .top t, hs, ⟨.refl _, rfl, rfl, rfl⟩, rfl⟩
    | cons f c =>
      obtain ⟨x, ⟨-, hsib, hbal, hpar, -⟩, -⟩ := (rep_plug _ _).1 hs
      obtain ⟨k, R, b, D⟩ := f
      have hdir : (s.nodes R).descentDir = k := hd ⟨k, R, b, D⟩ (by simp)
      have hdc : Directs (dirOf s.nodes) c := fun g hg => hd g (by simp [hg])
      have hfc : c.length ≤ fuel := by simpa using hf
      obtain ⟨hD, hfit, hctx⟩ := hc
      -- one more turn, from a state in which the subtree has become lower
      have hgo : ∀ {s' : LvTreeState} {u : BinTree Nat}, Holds s' (plug c u) → Mended s s' → s'.lvt.avlHeight = s.lvt.avlHeight →
          (plug c u).toList.Nodup → u.Avl → u.height + 1 = max (h + 1) D.height + 1 →
          ∃ t' g, Shrunk c u t' g ∧ Holds (deleteLoop fuel (parentOf none c) s') t' ∧ Mended s (deleteLoop fuel (parentOf none c) s') ∧
            (deleteLoop fuel (parentOf none c) s').lvt.avlHeight = s.lvt.avlHeight - g.toNat := by
        intro s' u h₁ h₂ h₃ h₄ h₅ h₆
        rw [← h₆] at hctx
        obtain ⟨t', g, hsh, hh', hm, hht⟩ := ih h₁ h₄ (h₂.kept.directs hdc) hctx h₅ rfl hfc
        exact ⟨t', g, hsh, hh', h₂.trans hm, by rw [hht, h₃]⟩
      simp only [parentOf, deleteLoop, hdir, hbal, hpar]
      rcases b with _ | k'
      · exact ⟨_, false, .even _, rep_setBalance (c := c) hs hn _, .ofNodes ((Kept.refl _).setBalance _ _), rfl⟩
      · rw [if_neg (by simp)]
        rcases k.eq_or_flip k' with rfl | rfl
        · rw [if_pos rfl]
          have hfit : h + 1 = D.height + 1 := by simpa [Fits] using hfit
          have hlist : (plug c (mk k' t R none D)).toList = (plug (⟨k', R, some k', D⟩ :: c) t).toList :=
            toList_plug_congr c (toList_bal _ _ _ _ _ _)
          have hset : Holds { s with nodes := s.nodes.setBalance R none } (plug c (mk k' t R none D)) := rep_setBalance (c := c) hs hn none
          obtain ⟨t', g, hsh, hrest⟩ := hgo hset (.ofNodes ((Kept.refl _).setBalance _ _)) rfl (hlist ▸ hn)
            ((avl_mk _ _ _ _ _).2 ⟨ht, hD, by simp only [Fits]; omega⟩) (by rw [height_mk]; omega)
          exact ⟨t', g, .up hsh, hrest⟩
        · rw [if_neg (by simp [k.flip_ne])]
          -- the sibling is too high: the side of the rotation is that of the sibling
          obtain ⟨j, rfl⟩ : ∃ j : Side, k = j.flip := ⟨k.flip, k.flip_flip.symm⟩
          simp only [Side.flip_flip] at hsib hs hn hfit ⊢
          have hDh : D.height = h + 2 := by
            rw [fits_flip] at hfit
            simpa [Fits] using hfit
          obtain ⟨B, A, bA, C, rfl⟩ := exists_mk_of_height j (t := D) (by omega)
          obtain ⟨hA, -, hbA, -⟩ := (rep_mk _ _ _ _ _).1 hsib
          simp only [plug_cons, mk_flip] at hs hn
          obtain ⟨hB, hC, hBC⟩ := (avl_mk _ _ _ _ _).1 hD
          rw [height_mk] at hDh
          simp only [hA, hbA]
          rcases bA with _ | kA
          · obtain ⟨h₁, h₂, h₃⟩ := holds_single hs hn hdc
            exact ⟨_, false, .stop _ _, h₁, h₂, h₃⟩
          · rcases j.eq_or_flip kA with rfl | rfl
            · simp only [Option.isNone_some, Bool.false_or, decide_true, if_true, Bool.false_eq_true, if_false]
              obtain ⟨h₁, h₂, h₃⟩ := holds_single hs hn hdc
              simp only [Option.isSome_some, if_true] at h₁
              have hBC : B.height = C.height + 1 := by simpa [Fits] using hBC
              have hlist := toList_plug_congr c (toList_single kA B C t A R none none (some kA) (some kA))
              obtain ⟨t', g, hsh, hrest⟩ := hgo h₁ h₂ h₃ (hlist ▸ hn) (by
                simp only [avl_mk, height_mk, Fits]
                exact ⟨hB, ⟨hC, ht, by omega⟩, by omega⟩) (by simp only [height_mk]; omega)
              exact ⟨t', g, .single _ hsh, hrest⟩
            · have hne : ¬ (some j.flip = some j) := by simp [j.flip_ne]
              simp only [Option.isNone_some, Bool.false_or, decide_eq_true_eq, if_neg hne, Bool.false_eq_true, if_false]
              have hBC : C.height = B.height + 1 := by simpa [Fits, j.flip_ne] using hBC
              obtain ⟨C, N, bN, E, rfl⟩ := exists_mk_of_height j (t := C) (by omega)
              obtain ⟨hC, hE, hCE⟩ := (avl_mk _ _ _ _ _).1 hC
              rw [height_mk] at hBC hDh
              obtain ⟨h₁, h₂, h₃⟩ := holds_double hs hn hdc
              have hlist := toList_plug_congr c
                (toList_double j B C t E A N R (anchorBal j bN) none (rootBal j bN) (some j.flip) bN (some j))
              obtain ⟨t', g, hsh, hrest⟩ := hgo h₁ h₂ h₃ (hlist ▸ hn)
                (avl_doubled A N R hB hC hE ht hCE (by omega) (by omega)) (by simp only [height_mk]; omega)
              exact ⟨t', g, .double _ _ _ hsh, hrest⟩

/-! ## The in-order successor -/

/-- All but the directions is the same. -/
structure Steered (ns ns' : LvNodes) : Prop where
  key (p : Nat) : (ns' p).SameKey (ns p)
  shape (p : Nat) : SameShape ns ns' p
  parent (p : Nat) : (ns' p).avlParent = (ns p).avlParent

theorem Steered.refl (ns : LvNodes) : Steered ns ns := ⟨fun _ => .refl _, fun _ => ⟨fun _ => rfl, rfl⟩, fun _ => rfl⟩

theorem Steered.trans {ns₁ ns₂ ns₃ : LvNodes} (h : Steered ns₁ ns₂) (h' : Steered ns₂ ns₃) : Steered ns₁ ns₃ where
  key p := (h'.key p).trans (h.key p)
  shape p := ⟨fun s => ((h'.shape p).1 s).trans ((h.shape p).1 s), (h'.shape p).2.trans (h.shape p).2⟩
  parent p := (h'.parent p).trans (h.parent p)

theorem Steered.rep {ns' : LvNodes} {r : Option Nat} (h : Steered ns ns') (ht : TreeRep ns par r t) : TreeRep ns' par r t :=
  ht.congr fun p _ => ⟨h.shape p, h.parent p⟩

theorem steered_setDir (ns : LvNodes) (p : Nat) (s : Side) : Steered ns (ns.setDir p s) where
  key q := by
    rw [LvNodes.setDir, LvNodes.modify_apply]
    split
    · exact ⟨rfl, rfl, rfl, rfl, rfl, rfl, rfl, rfl⟩
    · exact .refl _
  shape q := by simp [SameShape]
  parent q := by simp

/-- The loop that goes to the in-order successor ends at the leftmost node, to which the directions then lead. -/
theorem nextLoop_spec {p : Nat} (h : TreeRep ns par (some p) t) (hn : t.toList.Nodup) (hf : t.height ≤ fuel + 1) :
    ∃ e x bx rx, t = plug e (node nil x bx rx) ∧ (∀ f ∈ e, f.side = .left) ∧ (nextLoop fuel p ns).1 = x ∧
      Steered ns (nextLoop fuel p ns).2 ∧ Directs (dirOf (nextLoop fuel p ns).2) e ∧
      ∀ q, q ∉ t.toList → dirOf (nextLoop fuel p ns).2 q = dirOf ns q := by
  induction t generalizing ns par p fuel with
  | nil => exact absurd h (by simp [TreeRep])
  | node l a b r ihl _ =>
    obtain ⟨ha, -, -, hl, -⟩ := h
    obtain rfl := Option.some.inj ha
    cases l with
    | nil =>
      have hleft : (ns p).avlLeft = none := hl
      have hloop : nextLoop fuel p ns = (p, ns) := by cases fuel <;> simp only [nextLoop, hleft]
      rw [hloop]
      exact ⟨[], p, b, r, rfl, by simp, rfl, .refl _, by simp [Directs], fun _ _ => rfl⟩
    | node ll q bl lr =>
      have hleft : (ns p).avlLeft = some q := hl.1
      obtain ⟨fuel, rfl⟩ : ∃ m, fuel = m + 1 := by
        refine ⟨fuel - 1, ?_⟩
        simp only [height] at hf
        omega
      have hloop : nextLoop (fuel + 1) p ns = nextLoop fuel q (ns.setDir p .left) := by simp only [nextLoop, hleft]
      rw [hleft] at hl
      have hnl : (node ll q bl lr).toList.Nodup ∧ p ∉ (node ll q bl lr).toList := by
        rw [toList, List.nodup_append] at hn
        exact ⟨hn.1, fun hp => hn.2.2 p hp p (by simp) rfl⟩
      have hfl : (node ll q bl lr).height ≤ fuel + 1 := by
        rw [height] at hf
        omega
      obtain ⟨e, x, bx, rx, heq, hside, hx, hst, hdir, hout⟩ := ihl ((steered_setDir ns p .left).rep hl) hnl.1 hfl
      rw [hloop]
      refine ⟨e ++ [⟨.left, p, b, r⟩], x, bx, rx, ?_, ?_, hx, (steered_setDir ns p .left).trans hst, ?_, ?_⟩
      · rw [plug_append, ← heq]
        rfl
      · intro f hf
        rcases List.mem_append.1 hf with hf | hf
        · exact hside f hf
        · rw [List.mem_singleton.1 hf]
      · intro f hf
        rcases List.mem_append.1 hf with hf | hf
        · exact hdir f hf
        · obtain rfl := List.mem_singleton.1 hf
          refine (hout p hnl.2).trans ?_
          simp [dirOf, LvNodes.setDir_dir]
      · intro z hz
        simp only [toList, List.mem_append, List.mem_cons, not_or] at hz hout
        rw [hout z (by tauto), dirOf, LvNodes.setDir_dir, if_neg hz.2.1]
        rfl

/-- The successor is taken from its place, which its right subtree fills, and the rest becomes its right subtree. -/
theorem rep_splice {nr x : Nat} {e : List (Frame Nat)} {bx : Option Side}
    {rx : BinTree Nat} (h : TreeRep ns par (some nr) (plug (f :: e) (node nil x bx rx)))
    (hn : (plug (f :: e) (node nil x bx rx)).toList.Nodup) :
    let ns' := (((ns.setChild f.a f.side (ns x).avlRight).setParent? (ns x).avlRight (some f.a)).setChild x .right
      (some nr)).setParent nr (some x)
    TreeRep ns' (some x) (some nr) (plug (f :: e) rx) ∧
      ∀ p, p ∉ (plug (f :: e) (node nil x bx rx)).toList → SameShape ns ns' p ∧ (ns' p).avlParent = (ns p).avlParent := by
  intro ns'
  obtain ⟨y, hc, hx⟩ := (rep_plug _ _).1 h
  obtain ⟨rfl, -, -, -, hrx⟩ := hx
  have hperm := toList_plug_perm (f :: e) (node nil x bx rx)
  have hn' := hperm.nodup hn
  simp only [toList, List.nil_append, List.cons_append, List.nodup_cons, List.mem_append, not_or, List.nodup_append] at hn'
  obtain ⟨⟨hxr, hxc⟩, hnrx, hnc, hdis⟩ := hn'
  have hfa : f.a ∈ ctxNodes (f :: e) := by simp
  have hrx_mem : ∀ p, (ns x).avlRight = some p → p ∈ rx.toList := by
    intro p hp
    rw [hp] at hrx
    exact hrx.root_mem
  -- the place is filled first
  obtain ⟨ns₁, hns₁⟩ : ∃ ns₁, ns₁ = (ns.setChild f.a f.side (ns x).avlRight).setParent? (ns x).avlRight (some f.a) := ⟨_, rfl⟩
  have hfilled : TreeRep ns₁ par (some nr) (plug (f :: e) rx) := by
    refine (rep_plug _ _).2 ⟨(ns x).avlRight, ?_, ?_⟩
    · refine (hc.fill hnc).congr fun p hp => ?_
      have hne : (ns x).avlRight ≠ some p := fun hf => hdis p (hrx_mem p hf) p hp rfl
      simp [hns₁, SameShape, hne]
    · refine hrx.move hnrx (fun p hp => ?_) (fun p hp hroot => ?_) (fun p hp => ?_)
      · have hpf : p ≠ f.a := fun hf => hdis p hp p (hf ▸ hfa) rfl
        simp [hns₁, SameShape, hpf]
      · simp [hns₁, hroot]
      · simp [hns₁, hp, parentOf]
  have hperm' := toList_plug_perm (f :: e) rx
  have hxnot : x ∉ (plug (f :: e) rx).toList := by
    rw [hperm'.mem_iff, List.mem_append]
    exact fun hx => hx.elim hxr hxc
  have hns' : ns' = (ns₁.setChild x .right (some nr)).setParent nr (some x) := by rw [hns₁]
  constructor
  · rw [hns']
    refine hfilled.move (hperm'.symm.nodup (List.nodup_append.2 ⟨hnrx, hnc, hdis⟩)) (fun p hp => ?_) (fun p hp hroot => ?_)
      (fun p hp => ?_)
    · have hpx : p ≠ x := fun hf => hxnot (hf ▸ hp)
      simp [SameShape, hpx]
    · have hpn : p ≠ nr := fun hf => hroot (hf ▸ rfl)
      simp [hpn]
    · obtain rfl := Option.some.inj hp
      simp
  · intro p hp
    have hpnr : p ≠ nr := by
      rintro rfl
      exact hp h.root_mem
    rw [hperm.mem_iff] at hp
    simp only [toList, List.nil_append, List.cons_append, List.mem_cons, List.mem_append, not_or] at hp
    obtain ⟨hpx, hprx, hpc⟩ := hp
    have hpf : p ≠ f.a := fun hf => hpc (hf ▸ hfa)
    have hpr : (ns x).avlRight ≠ some p := fun hf => hprx (hrx_mem p hf)
    rw [hns', hns₁]
    simp [SameShape, hpx, hpf, hpr, hpnr]

/-- The successor takes the place of a node: it gets its left subtree, its parent and its balance. -/
theorem rep_succeed {N x : Nat} {nl : Option Nat} {l T : BinTree Nat} (par : Option Nat) (b : Option Side)
    (hl : TreeRep ns (some N) nl l) (hT : TreeRep ns (some x) (ns x).avlRight T) (hn : (x :: l.toList ++ T.toList).Nodup) :
    let ns' := ((((ns.setChild x .left nl).setParent? nl (some x)).setParent x par).setBalance x b).setDir x .right
    TreeRep ns' par (some x) (node l x b T) ∧ ∀ p, p ≠ x → p ∉ l.toList → SameShape ns ns' p ∧ (ns' p).avlParent = (ns p).avlParent := by
  intro ns'
  simp only [List.cons_append, List.nodup_cons, List.mem_append, not_or, List.nodup_append] at hn
  obtain ⟨⟨hxl, hxT⟩, hnl, -, hdis⟩ := hn
  have hnl_mem : ∀ p, nl = some p → p ∈ l.toList := by
    intro p hp
    rw [hp] at hl
    exact hl.root_mem
  have hother : ∀ p, p ≠ x → SameShape ns ns' p := by
    intro p hp
    simp [ns', SameShape, hp]
  have hpar : ∀ p, p ≠ x → (ns' p).avlParent = if nl = some p then some x else (ns p).avlParent := by
    intro p hp
    simp [ns', hp]
  have hleft : (ns' x).avlLeft = nl := by
    have : (ns' x).child .left = nl := by simp [ns']
    exact this
  have hright : (ns' x).avlRight = (ns x).avlRight := by
    have : (ns' x).child .right = (ns x).child .right := by simp [ns']
    exact this
  refine ⟨⟨rfl, by simp [ns'], by simp [ns'], ?_, ?_⟩, ?_⟩
  · rw [hleft]
    refine hl.move hnl (fun p hp => ?_) (fun p hp hroot => ?_) (fun p hp => ?_)
    · exact hother p fun hf => hxl (hf ▸ hp)
    · rw [hpar p fun hf => hxl (hf ▸ hp), if_neg hroot]
    · have hpl := hnl_mem p hp
      rw [hpar p fun hf => hxl (hf ▸ hpl), if_pos hp]
  · rw [hright]
    refine hT.congr fun p hp => ?_
    have hpx : p ≠ x := fun hf => hxT (hf ▸ hp)
    refine ⟨hother p hpx, ?_⟩
    rw [hpar p hpx, if_neg fun hf => hdis p (hnl_mem p hf) p hp rfl]
  · intro p hpx hpl
    refine ⟨hother p hpx, ?_⟩
    rw [hpar p hpx, if_neg fun hf => hpl (hnl_mem p hf)]

/-! ## Deletion -/

/-- A node has been taken out of a tree: the tree `t'` at the place `c'` has become lower by one. -/
structure Unlinked (s : LvTreeState) (list : List Nat) (height : Nat) (res : Option Nat × LvTreeState) (c' : List (Frame Nat))
    (t' : BinTree Nat) : Prop where
  holds : Holds res.2 (plug c' t')
  node : res.1 = parentOf none c'
  directs : Directs (dirOf res.2.nodes) c'
  avl : t'.Avl
  ctx : AvlCtx c' (t'.height + 1)
  ctxHeight : ctxHeight c' (t'.height + 1) = height
  list : (plug c' t').toList = list
  key (p : Nat) : (res.2.nodes p).SameKey (s.nodes p)
  avlHeight : res.2.lvt.avlHeight = s.lvt.avlHeight

section Unlink

variable {s : LvTreeState} {c : List (Frame Nat)} {l r : BinTree Nat} {N : Nat} {b : Option Side}

theorem deleteUnlink_no_right (hs : Holds s (plug c (node l N b nil))) (hn : (plug c (node l N b nil)).toList.Nodup)
    (ha : (plug c (node l N b nil)).Avl) (hd : Directs (dirOf s.nodes) c) :
    Unlinked s (before c ++ l.toList ++ after c) (plug c (node l N b nil)).height (deleteUnlink N s) c l := by
  obtain ⟨x, hc, rfl, hpar, -, hl, hr⟩ := (rep_plug _ _).1 hs
  have hright : (s.nodes N).avlRight = none := hr
  have hperm := toList_plug_perm c (node l N b nil)
  have hn' := hperm.nodup hn
  simp only [toList, List.append_assoc, List.cons_append, List.nil_append, List.nodup_append, List.nodup_cons, List.mem_cons] at hn'
  obtain ⟨hnl, ⟨-, hnc⟩, hdis⟩ := hn'
  have hl_mem : ∀ p, (s.nodes N).avlLeft = some p → p ∈ l.toList := by
    intro p hp
    rw [hp] at hl
    exact hl.root_mem
  obtain ⟨ns, hns⟩ : ∃ ns, ns = s.nodes.setParent? (s.nodes N).avlLeft (parentOf none c) := ⟨_, rfl⟩
  have hk : Kept s.nodes ns := hns ▸ (Kept.refl _).setParent? _ _
  have hrep : TreeRep ns (parentOf none c) (s.nodes N).avlLeft l := by
    refine hl.move hnl (fun p hp => ?_) (fun p hp hroot => ?_) (fun p hp => ?_)
    · simp [hns, SameShape]
    · simp [hns, hroot]
    · simp [hns, hp]
  have hnodup : (plug c l).toList.Nodup := by
    refine (toList_plug_perm _ _).symm.nodup ?_
    rw [List.nodup_append]
    exact ⟨hnl, hnc, fun p hp q hq => hdis p hp q (.inr hq)⟩
  have hat := rep_attach hc (hk.directs hd) hnodup (fun p hp => ?_) hrep
  swap
  · have hne : (s.nodes N).avlLeft ≠ some p := fun hf => hdis p (hl_mem p hf) p (.inr hp) rfl
    simp [hns, SameShape, hne]
  -- the code sets the parent after the subtree of the parent
  have hunl : deleteUnlink N s = (parentOf none c, { attach (parentOf none c) (s.nodes N).avlLeft s with
        nodes := (attach (parentOf none c) (s.nodes N).avlLeft s).nodes.setParent? (s.nodes N).avlLeft (parentOf none c) }) := by
    simp only [deleteUnlink, hright, hpar]
  have hk' : Kept s.nodes (deleteUnlink N s).2.nodes := by
    rw [hunl]
    exact (attach_kept _ _ _).setParent? _ _
  have hheight : (node l N b nil).height = l.height + 1 := by simp [height]
  refine ⟨?_, by rw [hunl], hk'.directs hd, ((avl_plug _ _).1 ha).1.1, hheight ▸ ((avl_plug _ _).1 ha).2, ?_, toList_plug _ _, hk'.key, ?_⟩
  · rw [hunl]
    have hroot : (attach (parentOf none c) (s.nodes N).avlLeft s).lvt.avlRoot =
        (attach (parentOf none c) (s.nodes N).avlLeft { s with nodes := ns }).lvt.avlRoot := by
      cases parentOf none c <;> rfl
    simp only [Holds, hroot]
    refine hat.congr fun p _ => ?_
    cases hpc : parentOf none c with
    | none => simp [attach, hns, hpc, SameShape]
    | some q =>
      have hdq : (ns q).descentDir = (s.nodes q).descentDir := hk.dir q
      simp only [attach, hdq, SameShape]
      simp [hns, hpc]
  · rw [height_plug, hheight]
  · rw [hunl]
    exact attach_height _ _ _

theorem deleteUnlink_right (hs : Holds s (plug c (node l N b r))) (hn : (plug c (node l N b r)).toList.Nodup)
    (ha : (plug c (node l N b r)).Avl) (hd : Directs (dirOf s.nodes) c) (hh : s.lvt.avlHeight = (plug c (node l N b r)).height)
    (hr : r ≠ nil) :
    ∃ c' t', Unlinked s (before c ++ l.toList ++ (r.toList ++ after c)) (plug c (node l N b r)).height (deleteUnlink N s) c' t' := by
  obtain ⟨x, hc, rfl, hpar, hbal, hl, hrt⟩ := (rep_plug _ _).1 hs
  obtain ⟨nr, hnr⟩ : ∃ nr, (s.nodes N).avlRight = some nr := by
    cases hright : (s.nodes N).avlRight with
    | none => exact absurd (hright ▸ hrt).eq_nil hr
    | some nr => exact ⟨nr, rfl⟩
  rw [hnr] at hrt
  have hperm := toList_plug_perm c (node l N b r)
  have hn' := hperm.nodup hn
  simp only [toList, List.append_assoc, List.cons_append, List.nodup_append, List.nodup_cons, List.mem_cons, List.mem_append,
    not_or] at hn'
  obtain ⟨hnl, ⟨⟨hNr, -⟩, hnr', hnc, hrc⟩, hdis⟩ := hn'
  have hfuel : r.height ≤ s.lvt.avlHeight + 1 := by
    have := length_le_height_plug c (node l N b r)
    simp only [height] at this
    omega
  obtain ⟨e, x, bx, rx, rfl, hside, hx, hst, hdir, hout⟩ := nextLoop_spec hrt hnr' hfuel
  have hrlist : (plug e (node nil x bx rx)).toList = x :: (plug e rx).toList := by
    simp [toList_plug, before_eq_nil hside, toList]
  obtain ⟨ns, hns⟩ : ∃ ns, ns = (nextLoop s.lvt.avlHeight nr s.nodes).2 := ⟨_, rfl⟩
  rw [← hns] at hst hdir hout
  have hrt' : TreeRep ns (some N) (some nr) (plug e (node nil x bx rx)) := hst.rep hrt
  -- the nodes before the successor takes the place of the node
  have hmid : ∃ ns₁, deleteUnlink N s = (parentOf (some x) e, attach (parentOf none c) (some x) { s with
        nodes := ((((ns₁.setChild x .left (s.nodes N).avlLeft).setParent? (s.nodes N).avlLeft (some x)).setParent x
          (parentOf none c)).setBalance x b).setDir x .right }) ∧
      TreeRep ns₁ (some x) (ns₁ x).avlRight (plug e rx) ∧ Kept ns ns₁ ∧
      ∀ p, p ∉ (plug e (node nil x bx rx)).toList → SameShape ns ns₁ p ∧ (ns₁ p).avlParent = (ns p).avlParent := by
    obtain ⟨y, -, rfl, hxpar, -, -, hrx⟩ := (rep_plug _ _).1 hrt'
    have hbN : (ns N).balance = b := (hst.shape N).2.trans hbal
    have hnext : nextLoop s.lvt.avlHeight nr s.nodes = (x, ns) := Prod.ext hx hns.symm
    cases e with
    | nil =>
      refine ⟨ns, ?_, hrx, .refl _, fun p _ => ⟨⟨fun _ => rfl, rfl⟩, rfl⟩⟩
      simp only [deleteUnlink, hnr, hnext, hxpar, hpar, ne_eq, not_true_eq_false, if_false, parentOf]
      simp [hbN]
    | cons f e =>
      have hfN : f.a ≠ N := by
        rintro rfl
        refine hNr ((toList_plug_perm _ _).mem_iff.2 (List.mem_append_right _ ?_))
        simp
      have hfdir : (ns f.a).descentDir = f.side := hdir f (by simp)
      obtain ⟨h₁, h₂⟩ := rep_splice hrt' hnr'
      have hk₁ : Kept ns ((((ns.setChild f.a f.side (ns x).avlRight).setParent? (ns x).avlRight (some f.a)).setChild x .right
          (some nr)).setParent nr (some x)) := (((Kept.refl ns).setChild _ _ _).setParent? _ _).setChild _ _ _ |>.setParent _ _
      refine ⟨_, ?_, ?_, hk₁, h₂⟩
      · simp only [deleteUnlink, hnr, hnext, hxpar, hpar, hfdir, ne_eq, hfN, not_false_eq_true, if_true, parentOf]
        simp [hbN]
      · have hright : ((((ns.setChild f.a f.side (ns x).avlRight).setParent? (ns x).avlRight (some f.a)).setChild x .right
            (some nr)).setParent nr (some x) x).child .right = some nr := by simp
        rw [LvTreeNode.child] at hright
        rw [hright]
        exact h₁
  obtain ⟨ns₁, hunl, hT, hk₁, hshape⟩ := hmid
  have hl₁ : TreeRep ns₁ (some N) (s.nodes N).avlLeft l := by
    refine (hst.rep hl).congr fun p hp => hshape p fun hpr => ?_
    exact hdis p hp p (.inr (.inl hpr)) rfl
  have hnx : (x :: l.toList ++ (plug e rx).toList).Nodup := by
    rw [hrlist] at hnr'
    rw [List.cons_append, List.nodup_cons, List.mem_append, not_or, List.nodup_append]
    refine ⟨⟨fun hxl => hdis x hxl x (.inr (.inl (by simp [hrlist]))) rfl, (List.nodup_cons.1 hnr').1⟩, hnl, (List.nodup_cons.1 hnr').2, ?_⟩
    intro p hp q hq
    exact hdis p hp q (.inr (.inl (by simp [hrlist, hq])))
  obtain ⟨hrep, hshape₂⟩ := rep_succeed (parentOf none c) b hl₁ hT hnx
  obtain ⟨ns₂, hns₂⟩ : ∃ ns₂, ns₂ = ((((ns₁.setChild x .left (s.nodes N).avlLeft).setParent? (s.nodes N).avlLeft (some x)).setParent x
          (parentOf none c)).setBalance x b).setDir x .right := ⟨_, rfl⟩
  rw [← hns₂] at hrep hshape₂ hunl
  have hdir₂ : ∀ p, dirOf ns₂ p = if p = x then .right else dirOf ns p := by
    intro p
    have hk₂ : Kept ns ((((ns₁.setChild x .left (s.nodes N).avlLeft).setParent? (s.nodes N).avlLeft (some x)).setParent x
          (parentOf none c)).setBalance x b) := (((hk₁.setChild _ _ _).setParent? _ _).setParent _ _).setBalance _ _
    rw [hns₂, dirOf, LvNodes.setDir_dir, hk₂.dir p]
    rfl
  have hcx : ∀ p ∈ ctxNodes c, p ≠ x ∧ p ∉ l.toList ∧ p ∉ (plug e (node nil x bx rx)).toList := by
    intro p hp
    refine ⟨?_, fun hpl => hdis p hpl p (.inr (.inr hp)) rfl, fun hpr => hrc p hpr p hp rfl⟩
    rintro rfl
    exact hrc p (by simp [hrlist]) p hp rfl
  have hd₂ : Directs (dirOf ns₂) c := by
    intro f hf
    obtain ⟨hfx, -, hfr⟩ := hcx f.a (List.mem_flatMap.2 ⟨f, hf, by simp⟩)
    rw [hdir₂, if_neg hfx, hout f.a hfr]
    exact hd f hf
  have hnodup : (plug c (node l x b (plug e rx))).toList.Nodup := by
    refine (toList_plug_perm _ _).symm.nodup ?_
    rw [List.nodup_append]
    have hmiddle : (l.toList ++ x :: (plug e rx).toList).Perm (x :: l.toList ++ (plug e rx).toList) := List.perm_middle
    refine ⟨hmiddle.symm.nodup hnx, hnc, ?_⟩
    intro p hp q hq hpq
    subst hpq
    obtain ⟨hpx, hpl, hpr⟩ := hcx p hq
    rw [hrlist] at hpr
    simp only [toList, List.mem_append, List.mem_cons] at hp hpr
    tauto
  have hat := rep_attach hc hd₂ hnodup (fun p hp => ?_) hrep
  swap
  · obtain ⟨hpx, hpl, hpr⟩ := hcx p hp
    obtain ⟨⟨h₁, h₂⟩, h₃⟩ := hshape p hpr
    obtain ⟨⟨h₄, h₅⟩, h₆⟩ := hshape₂ p hpx hpl
    exact ⟨⟨fun s => (h₄ s).trans ((h₁ s).trans ((hst.shape p).1 s)), h₅.trans (h₂.trans (hst.shape p).2)⟩,
      h₆.trans (h₃.trans (hst.parent p))⟩
  have hplug : ∀ a t, plug (e ++ ⟨.right, a, b, l⟩ :: c) t = plug c (node l a b (plug e t)) := fun a t => plug_append _ _ _
  have hka := attach_kept (parentOf none c) (some x) { s with nodes := ns₂ }
  have ha' := ha
  rw [← hplug, avl_plug] at ha'
  have hrxh : (node nil x bx rx).height = rx.height + 1 := by simp [height]
  refine ⟨e ++ ⟨.right, x, b, l⟩ :: c, rx, ?_, ?_, ?_, ha'.1.2.1, ?_, ?_, ?_, ?_, ?_⟩
  · rw [hunl, hplug]
    exact hat
  · rw [hunl, parentOf_append]
    rfl
  · rw [hunl]
    refine hka.directs fun f hf => ?_
    rw [hdir₂]
    rcases List.mem_append.1 hf with hf | hf
    · have hfx : f.a ≠ x := by
        rintro hfx
        rw [hrlist, List.nodup_cons, (toList_plug_perm _ _).mem_iff] at hnr'
        exact hnr'.1 (List.mem_append_right _ (List.mem_flatMap.2 ⟨f, hf, by simp [hfx]⟩))
      rw [if_neg hfx]
      exact hdir f hf
    · rcases List.mem_cons.1 hf with rfl | hf
      · rw [if_pos rfl]
      · rw [← hdir₂]
        exact hd₂ f hf
  · rw [avlCtx_rename e c .right x N]
    exact ha'.2
  · rw [ctxHeight_rename e c .right x N, ← hplug, height_plug, hrxh]
  · rw [hplug, toList_plug, hrlist]
    simp [toList]
  · intro p
    rw [hunl]
    refine (hka.key p).trans (LvTreeNode.SameKey.trans ?_ (hst.key p))
    have hk₂ : Kept ns ((((ns₁.setChild x .left (s.nodes N).avlLeft).setParent? (s.nodes N).avlLeft (some x)).setParent x
          (parentOf none c)).setBalance x b) := (((hk₁.setChild _ _ _).setParent? _ _).setParent _ _).setBalance _ _
    rw [hns₂]
    exact ((steered_setDir _ x .right).key p).trans (hk₂.key p)
  · rw [hunl]
    exact attach_height _ _ _

end Unlink

/-- `lvAvlTreeNodeDelete` takes a node to which the directions lead out of the tree. -/
theorem lvAvlTreeNodeDelete_spec {s : LvTreeState} {c : List (Frame Nat)} {l r : BinTree Nat} {N : Nat} {b : Option Side}
    (hs : Holds s (plug c (node l N b r))) (hn : (plug c (node l N b r)).toList.Nodup) (ha : (plug c (node l N b r)).Avl)
    (hh : s.lvt.avlHeight = (plug c (node l N b r)).height) (hd : Directs (dirOf s.nodes) c) :
    ∃ t', Holds (lvAvlTreeNodeDelete N s) t' ∧ t'.Avl ∧ (lvAvlTreeNodeDelete N s).lvt.avlHeight = t'.height ∧
      t'.toList = before c ++ l.toList ++ (r.toList ++ after c) ∧ (∀ p, ((lvAvlTreeNodeDelete N s).nodes p).SameKey (s.nodes p)) ∧
      (lvAvlTreeNodeDelete N s).lvt.lastNodeLookedUp = none := by
  have hunl : ∃ c' t', Unlinked s (before c ++ l.toList ++ (r.toList ++ after c)) (plug c (node l N b r)).height (deleteUnlink N s) c' t' := by
    by_cases hr : r = nil
    · subst hr
      exact ⟨c, l, deleteUnlink_no_right hs hn ha hd⟩
    · exact deleteUnlink_right hs hn ha hd hh hr
  obtain ⟨c', t, hu⟩ := hunl
  have hnodup : (plug c' t).toList.Nodup := by
    rw [hu.list]
    rw [toList_plug, toList, List.append_assoc, List.append_assoc, ← List.append_assoc] at hn
    exact (List.nodup_middle.1 hn).of_cons
  have hfuel : c'.length ≤ (deleteUnlink N s).2.lvt.avlHeight := by
    rw [hu.avlHeight, hh, ← hu.ctxHeight]
    exact (Nat.le_add_right _ _).trans (length_le_ctxHeight _ _)
  obtain ⟨t', g, hsh, h₁, h₂, h₃⟩ := deleteLoop_spec hu.holds hnodup hu.directs hu.ctx hu.avl rfl hfuel
  obtain ⟨h₄, h₅, h₆⟩ := hsh.spec hu.ctx hu.avl rfl
  rw [← hu.node] at h₁ h₂ h₃
  refine ⟨t', h₁, h₄, ?_, h₆.trans hu.list, fun p => (h₂.kept.key p).trans (hu.key p), rfl⟩
  rw [lvAvlTreeNodeDelete, h₃, hu.avlHeight, hh, ← hu.ctxHeight]
  omega

end Gtm
