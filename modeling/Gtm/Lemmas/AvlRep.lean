import Gtm.Lv.AvlTree

/-!
# The tree that the nodes hold

`TreeRep` says that the links and the balances of the nodes are those of a tree, and `TreeRepCtx` says it of the way up from a place. The
assignments of the code are taken field by field, and rotations and the filling of a place are then told by `TreeRep`.
-/

namespace Gtm

open BalTree BinTree

/-! ## Fields after an assignment -/

namespace LvTreeNode

@[simp] theorem child_setChild (n : LvTreeNode) (s s' : Side) (q : Option Nat) :
    (n.setChild s q).child s' = if s' = s then q else n.child s' := by
  cases s <;> cases s' <;> rfl

@[simp] theorem setChild_parent (n : LvTreeNode) (s : Side) (q : Option Nat) : (n.setChild s q).avlParent = n.avlParent := by
  cases s <;> rfl

@[simp] theorem setChild_balance (n : LvTreeNode) (s : Side) (q : Option Nat) : (n.setChild s q).balance = n.balance := by
  cases s <;> rfl

/-- What the shape of the tree does not concern. -/
structure SameKey (m n : LvTreeNode) : Prop where
  canonical : m.canonical = n.canonical
  int : m.int = n.int
  keySgn : m.keySgn = n.keySgn
  keyE : m.keyE = n.keyE
  keyIconv : m.keyIconv = n.keyIconv
  keyM0 : m.keyM0 = n.keyM0
  keyM1 : m.keyM1 = n.keyM1
  keyStr : m.keyStr = n.keyStr

theorem SameKey.refl (n : LvTreeNode) : SameKey n n := ⟨rfl, rfl, rfl, rfl, rfl, rfl, rfl, rfl⟩

theorem SameKey.trans {l m n : LvTreeNode} (h : SameKey l m) (h' : SameKey m n) : SameKey l n where
  canonical := h.canonical.trans h'.canonical
  int := h.int.trans h'.int
  keySgn := h.keySgn.trans h'.keySgn
  keyE := h.keyE.trans h'.keyE
  keyIconv := h.keyIconv.trans h'.keyIconv
  keyM0 := h.keyM0.trans h'.keyM0
  keyM1 := h.keyM1.trans h'.keyM1
  keyStr := h.keyStr.trans h'.keyStr

theorem SameKey.subsc {m n : LvTreeNode} (h : SameKey m n) : m.subsc = n.subsc := by
  simp only [LvTreeNode.subsc, LvTreeNode.getKey, h.canonical, h.int, h.keySgn, h.keyE, h.keyM0, h.keyM1, h.keyStr]

end LvTreeNode

namespace LvNodes

variable (ns : LvNodes) (p : Nat) (q : Option Nat) (s s' : Side) (b : Option Side) (x : Nat)

theorem modify_apply (f : LvTreeNode → LvTreeNode) : ns.modify p f x = if x = p then f (ns x) else ns x := by
  by_cases h : x = p
  · subst h
    simp [modify]
  · simp [modify, h]

@[simp] theorem setChild_child : (ns.setChild p s q x).child s' = if x = p ∧ s' = s then q else (ns x).child s' := by
  by_cases h : x = p <;> simp [setChild, modify_apply, h]

@[simp] theorem setChild_parent : (ns.setChild p s q x).avlParent = (ns x).avlParent := by
  by_cases h : x = p <;> simp [setChild, modify_apply, h]

@[simp] theorem setChild_balance : (ns.setChild p s q x).balance = (ns x).balance := by
  by_cases h : x = p <;> simp [setChild, modify_apply, h]

@[simp] theorem setParent_child : (ns.setParent p q x).child s = (ns x).child s := by
  by_cases h : x = p <;> cases s <;> simp [setParent, modify_apply, h, LvTreeNode.child]

@[simp] theorem setParent_parent : (ns.setParent p q x).avlParent = if x = p then q else (ns x).avlParent := by
  by_cases h : x = p <;> simp [setParent, modify_apply, h]

@[simp] theorem setParent_balance : (ns.setParent p q x).balance = (ns x).balance := by
  by_cases h : x = p <;> simp [setParent, modify_apply, h]

@[simp] theorem setParent?_child (o : Option Nat) : (ns.setParent? o q x).child s = (ns x).child s := by
  cases o <;> simp [setParent?]

@[simp] theorem setParent?_parent (o : Option Nat) :
    (ns.setParent? o q x).avlParent = if o = some x then q else (ns x).avlParent := by
  cases o <;> simp [setParent?, eq_comm]

@[simp] theorem setParent?_balance (o : Option Nat) : (ns.setParent? o q x).balance = (ns x).balance := by
  cases o <;> simp [setParent?]

@[simp] theorem setBalance_child : (ns.setBalance p b x).child s = (ns x).child s := by
  by_cases h : x = p <;> cases s <;> simp [setBalance, modify_apply, h, LvTreeNode.child]

@[simp] theorem setBalance_parent : (ns.setBalance p b x).avlParent = (ns x).avlParent := by
  by_cases h : x = p <;> simp [setBalance, modify_apply, h]

@[simp] theorem setBalance_balance : (ns.setBalance p b x).balance = if x = p then b else (ns x).balance := by
  by_cases h : x = p <;> simp [setBalance, modify_apply, h]

@[simp] theorem setDir_child : (ns.setDir p s' x).child s = (ns x).child s := by
  by_cases h : x = p <;> cases s <;> simp [setDir, modify_apply, h, LvTreeNode.child]

@[simp] theorem setDir_parent : (ns.setDir p s x).avlParent = (ns x).avlParent := by
  by_cases h : x = p <;> simp [setDir, modify_apply, h]

@[simp] theorem setDir_balance : (ns.setDir p s x).balance = (ns x).balance := by
  by_cases h : x = p <;> simp [setDir, modify_apply, h]

theorem setDir_dir : (ns.setDir p s x).descentDir = if x = p then s else (ns x).descentDir := by
  by_cases h : x = p <;> simp [setDir, modify_apply, h]

end LvNodes

/-- The keys and the directions are the same: what the rotations keep. -/
structure Kept (ns ns' : LvNodes) : Prop where
  key (p : Nat) : (ns' p).SameKey (ns p)
  dir (p : Nat) : (ns' p).descentDir = (ns p).descentDir

namespace Kept

variable {ns ns' : LvNodes}

theorem refl (ns : LvNodes) : Kept ns ns := ⟨fun _ => .refl _, fun _ => rfl⟩

theorem trans {ns₁ ns₂ ns₃ : LvNodes} (h : Kept ns₁ ns₂) (h' : Kept ns₂ ns₃) : Kept ns₁ ns₃ :=
  ⟨fun p => (h'.key p).trans (h.key p), fun p => (h'.dir p).trans (h.dir p)⟩

theorem modify (ns : LvNodes) (p : Nat) {f : LvTreeNode → LvTreeNode} (hk : ∀ n, (f n).SameKey n)
    (hd : ∀ n, (f n).descentDir = n.descentDir) : Kept ns (ns.modify p f) := by
  constructor <;> intro x <;> rw [LvNodes.modify_apply] <;> split
  · exact hk _
  · exact .refl _
  · exact hd _
  · rfl

theorem setChild (h : Kept ns ns') (p : Nat) (s : Side) (q : Option Nat) : Kept ns (ns'.setChild p s q) :=
  h.trans (modify ns' p (fun n => by cases s <;> exact ⟨rfl, rfl, rfl, rfl, rfl, rfl, rfl, rfl⟩) (fun n => by cases s <;> rfl))

theorem setParent (h : Kept ns ns') (p : Nat) (q : Option Nat) : Kept ns (ns'.setParent p q) :=
  h.trans (modify ns' p (fun _ => ⟨rfl, rfl, rfl, rfl, rfl, rfl, rfl, rfl⟩) fun _ => rfl)

theorem setParent? (h : Kept ns ns') (p : Option Nat) (q : Option Nat) : Kept ns (ns'.setParent? p q) := by
  cases p with
  | none => exact h
  | some p => exact h.setParent p q

theorem setBalance (h : Kept ns ns') (p : Nat) (b : Option Side) : Kept ns (ns'.setBalance p b) :=
  h.trans (modify ns' p (fun _ => ⟨rfl, rfl, rfl, rfl, rfl, rfl, rfl, rfl⟩) fun _ => rfl)

end Kept

/-! ## Trees in the nodes -/

/-- The nodes hold a tree: `r` points to its root, and the parent of the root is `par`. -/
def TreeRep (ns : LvNodes) : Option Nat → Option Nat → BinTree Nat → Prop
  | _, r, .nil => r = none
  | par, r, .node l p b rt =>
    r = some p ∧ (ns p).avlParent = par ∧ (ns p).balance = b ∧ TreeRep ns (some p) (ns p).avlLeft l ∧ TreeRep ns (some p) (ns p).avlRight rt

section TreeRep

variable {ns ns' : LvNodes} {par par' r : Option Nat} {t : BinTree Nat}

theorem rep_mk (s : Side) (t : BinTree Nat) (p : Nat) (b : Option Side) (u : BinTree Nat) :
    TreeRep ns par r (mk s t p b u) ↔ r = some p ∧ (ns p).avlParent = par ∧ (ns p).balance = b ∧
      TreeRep ns (some p) ((ns p).child s) t ∧ TreeRep ns (some p) ((ns p).child s.flip) u := by
  cases s
  · rfl
  · simp only [mk, TreeRep, LvTreeNode.child, Side.flip]
    tauto

theorem TreeRep.root_mem {p : Nat} (h : TreeRep ns par (some p) t) : p ∈ t.toList := by
  cases t with
  | nil => simp [TreeRep] at h
  | node l q b rt =>
    obtain rfl : p = q := by simpa using h.1
    simp [toList]

theorem TreeRep.eq_nil (h : TreeRep ns par none t) : t = nil := by
  cases t with
  | nil => rfl
  | node l q b rt => simp [TreeRep] at h

theorem TreeRep.ne_nil {p : Nat} (h : TreeRep ns par (some p) t) : t ≠ nil := by
  rintro rfl
  simp [TreeRep] at h

/-- The links and the balance of a node are the same. -/
def SameShape (ns ns' : LvNodes) (p : Nat) : Prop := (∀ s, (ns' p).child s = (ns p).child s) ∧ (ns' p).balance = (ns p).balance

/-- The same tree in other nodes, below another parent. -/
theorem TreeRep.move (h : TreeRep ns par r t) (hn : t.toList.Nodup) (hs : ∀ p ∈ t.toList, SameShape ns ns' p)
    (hp : ∀ p ∈ t.toList, r ≠ some p → (ns' p).avlParent = (ns p).avlParent) (hr : ∀ p, r = some p → (ns' p).avlParent = par') :
    TreeRep ns' par' r t := by
  induction t generalizing par par' r with
  | nil => exact h
  | node l p b rt ihl ihr =>
    obtain ⟨rfl, -, hbal, hl, hrt⟩ := h
    simp only [toList, List.nodup_append, List.nodup_cons, List.mem_cons, List.mem_append] at hn hs hp
    obtain ⟨hnl, ⟨hpr, hnr⟩, hdis⟩ := hn
    have hroot : ∀ {q : Nat} {u : BinTree Nat} {x : Option Nat}, TreeRep ns (some p) x u → x = some q → (ns q).avlParent = some p := by
      intro q u x hu hx
      subst hx
      cases u with
      | nil => simp [TreeRep] at hu
      | node l' q' b' r' =>
        obtain ⟨hq, hq', -⟩ := hu
        obtain rfl : q = q' := by simpa using hq
        exact hq'
    obtain ⟨hch, hbal'⟩ := hs p (.inr (.inl rfl))
    refine ⟨rfl, hr p rfl, hbal'.trans hbal, ?_, ?_⟩
    · have hleft : (ns' p).avlLeft = (ns p).avlLeft := hch .left
      rw [hleft]
      refine ihl hl hnl (fun q hq => hs q (.inl hq)) ?_ ?_
      · intro q hq _
        exact hp q (.inl hq) fun hpq => hdis q hq q (.inl (Option.some.inj hpq).symm) rfl
      · intro q hq
        rw [hq] at hl
        have hql : q ∈ l.toList := hl.root_mem
        rw [hp q (.inl hql) fun hpq => hdis q hql q (.inl (Option.some.inj hpq).symm) rfl]
        exact hroot hl rfl
    · have hright : (ns' p).avlRight = (ns p).avlRight := hch .right
      rw [hright]
      refine ihr hrt hnr (fun q hq => hs q (.inr (.inr hq))) ?_ ?_
      · intro q hq _
        exact hp q (.inr (.inr hq)) fun hpq => hpr (Option.some.inj hpq ▸ hq)
      · intro q hq
        rw [hq] at hrt
        have hqr : q ∈ rt.toList := hrt.root_mem
        rw [hp q (.inr (.inr hqr)) fun hpq => hpr (Option.some.inj hpq ▸ hqr)]
        exact hroot hrt rfl

/-- The same tree in other nodes. -/
theorem TreeRep.congr (h : TreeRep ns par r t) (hs : ∀ p ∈ t.toList, SameShape ns ns' p ∧ (ns' p).avlParent = (ns p).avlParent) :
    TreeRep ns' par r t := by
  induction t generalizing par r with
  | nil => exact h
  | node l p b rt ihl ihr =>
    obtain ⟨rfl, hpar, hbal, hl, hrt⟩ := h
    simp only [toList, List.mem_cons, List.mem_append] at hs
    obtain ⟨⟨hch, hbal'⟩, hpar'⟩ := hs p (.inr (.inl rfl))
    have hleft : (ns' p).avlLeft = (ns p).avlLeft := hch .left
    have hright : (ns' p).avlRight = (ns p).avlRight := hch .right
    refine ⟨rfl, hpar'.trans hpar, hbal'.trans hbal, ?_, ?_⟩
    · rw [hleft]
      exact ihl hl fun q hq => hs q (.inl hq)
    · rw [hright]
      exact ihr hrt fun q hq => hs q (.inr (.inr hq))

end TreeRep

/-! ## Places -/

/-- The node above a place, below a tree whose parent is `par`. -/
def parentOf (par : Option Nat) : List (Frame Nat) → Option Nat
  | [] => par
  | f :: _ => some f.a

/-- The nodes hold the way up from a place to which `x` points. `root` points to the top, which is below `par`. -/
def TreeRepCtx (ns : LvNodes) (par root : Option Nat) : List (Frame Nat) → Option Nat → Prop
  | [], x => root = x
  | f :: c, x =>
    (ns f.a).child f.side = x ∧ TreeRep ns (some f.a) ((ns f.a).child f.side.flip) f.sib ∧ (ns f.a).balance = f.bal ∧
      (ns f.a).avlParent = parentOf par c ∧ TreeRepCtx ns par root c (some f.a)

section TreeRepCtx

variable {ns ns' : LvNodes} {par root x y : Option Nat} {c d : List (Frame Nat)} {t : BinTree Nat}

theorem rep_plug (c : List (Frame Nat)) (t : BinTree Nat) :
    TreeRep ns par root (plug c t) ↔ ∃ x, TreeRepCtx ns par root c x ∧ TreeRep ns (parentOf par c) x t := by
  induction c generalizing t with
  | nil => simp [TreeRepCtx, parentOf]
  | cons f c ih =>
    rw [plug_cons, ih]
    constructor
    · rintro ⟨y, hc, ht⟩
      obtain ⟨rfl, hpar, hbal, hsub, hsib⟩ := (rep_mk _ _ _ _ _).1 ht
      exact ⟨_, ⟨rfl, hsib, hbal, hpar, hc⟩, hsub⟩
    · rintro ⟨y, ⟨rfl, hsib, hbal, hpar, hc⟩, ht⟩
      exact ⟨_, hc, (rep_mk _ _ _ _ _).2 ⟨rfl, hpar, hbal, ht, hsib⟩⟩

theorem parentOf_append (c d : List (Frame Nat)) : parentOf par (c ++ d) = parentOf (parentOf par d) c := by
  cases c <;> rfl

/-- The same way up in other nodes. -/
theorem TreeRepCtx.congr (h : TreeRepCtx ns par root c x)
    (hs : ∀ p ∈ ctxNodes c, SameShape ns ns' p ∧ (ns' p).avlParent = (ns p).avlParent) : TreeRepCtx ns' par root c x := by
  induction c generalizing x with
  | nil => exact h
  | cons f c ih =>
    obtain ⟨h₁, h₂, h₃, h₄, hc⟩ := h
    simp only [ctxNodes_cons, List.cons_append, List.mem_cons, List.mem_append] at hs
    obtain ⟨⟨hch, hbal⟩, hpar⟩ := hs f.a (.inl rfl)
    refine ⟨(hch _).trans h₁, ?_, hbal.trans h₃, hpar.trans h₄, ih hc fun p hp => hs p (.inr (.inr hp))⟩
    rw [hch]
    exact h₂.congr fun p hp => hs p (.inr (.inl hp))

/-- The directions of the nodes. -/
def dirOf (ns : LvNodes) (p : Nat) : Side := (ns p).descentDir

theorem Kept.directs (h : Kept ns ns') (hd : Directs (dirOf ns) c) : Directs (dirOf ns') c := fun f hf => (h.dir f.a).trans (hd f hf)

/-- The subtree of a node at a place below another node is set. -/
theorem TreeRepCtx.fill {f : Frame Nat} (h : TreeRepCtx ns par root (f :: c) y) (hn : (ctxNodes (f :: c)).Nodup) : TreeRepCtx (ns.setChild f.a f.side x) par root (f :: c) x := by
  obtain ⟨-, h₂, h₃, h₄, hc⟩ := h
  simp only [ctxNodes_cons, List.cons_append, List.nodup_cons, List.mem_append, not_or] at hn
  obtain ⟨⟨hsib, hup⟩, -⟩ := hn
  have hother : ∀ p, p ≠ f.a → SameShape ns (ns.setChild f.a f.side x) p ∧ (ns.setChild f.a f.side x p).avlParent = (ns p).avlParent := by
    intro p hp
    simp [SameShape, hp]
  refine ⟨by simp, ?_, by simpa using h₃, by simpa using h₄, ?_⟩
  · rw [LvNodes.setChild_child, if_neg fun hf => f.side.flip_ne hf.2]
    refine h₂.congr fun p hp => hother p ?_
    rintro rfl
    exact hsib hp
  · refine hc.congr fun p hp => hother p ?_
    rintro rfl
    exact hup hp

/-- A place is filled by the node that `x` points to: `attach`. -/
theorem TreeRepCtx.attach {s : LvTreeState} (h : TreeRepCtx s.nodes none s.lvt.avlRoot c y) (hd : Directs (dirOf s.nodes) c)
    (hn : (ctxNodes c).Nodup) (x : Option Nat) :
    TreeRepCtx (attach (parentOf none c) x s).nodes none (attach (parentOf none c) x s).lvt.avlRoot c x := by
  cases c with
  | nil => rfl
  | cons f c =>
    have hdir : (s.nodes f.a).descentDir = f.side := hd f (by simp)
    simp only [parentOf, Gtm.attach, hdir]
    exact h.fill hn

/-- `attach` keeps keys and directions. -/
theorem attach_kept (par x : Option Nat) (s : LvTreeState) : Kept s.nodes (attach par x s).nodes := by
  cases par with
  | none => exact .refl _
  | some q => exact (Kept.refl _).setChild _ _ _

/-- `attach` leaves all of a node but a subtree of the parent. -/
theorem attach_shape (par x : Option Nat) (s : LvTreeState) {p : Nat} (hp : par ≠ some p) :
    SameShape s.nodes (attach par x s).nodes p ∧ ((attach par x s).nodes p).avlParent = (s.nodes p).avlParent := by
  cases par with
  | none => exact ⟨⟨fun _ => rfl, rfl⟩, rfl⟩
  | some q =>
    have hne : p ≠ q := fun h => hp (h ▸ rfl)
    simp [attach, SameShape, hne]

theorem parentOf_mem {p : Nat} (h : parentOf none c = some p) : p ∈ ctxNodes c := by
  cases c with
  | nil => simp [parentOf] at h
  | cons f c =>
    obtain rfl : f.a = p := by simpa [parentOf] using h
    simp

/-- The balance of a node is set. -/
theorem rep_setBalance {s : Side} {p : Nat} {b : Option Side} {u : BinTree Nat} (h : TreeRep ns none root (plug c (mk s t p b u)))
    (hn : (plug c (mk s t p b u)).toList.Nodup) (b' : Option Side) : TreeRep (ns.setBalance p b') none root (plug c (mk s t p b' u)) := by
  obtain ⟨x, hc, ht⟩ := (rep_plug _ _).1 h
  obtain ⟨rfl, hpar, -, ht, hu⟩ := (rep_mk _ _ _ _ _).1 ht
  have hn := ((toList_plug_perm _ _).trans ((toList_mk_perm _ _ _ _ _).append_right _)).nodup hn
  simp only [List.cons_append, List.append_assoc, List.nodup_cons, List.mem_append, not_or] at hn
  obtain ⟨⟨hpt, hpu, hpc⟩, -⟩ := hn
  have hother : ∀ q, q ≠ p → SameShape ns (ns.setBalance p b') q ∧ (ns.setBalance p b' q).avlParent = (ns q).avlParent := by
    intro q hq
    simp [SameShape, hq]
  refine (rep_plug _ _).2 ⟨_, hc.congr fun q hq => hother q ?_, (rep_mk _ _ _ _ _).2 ⟨rfl, by simpa using hpar, by simp, ?_, ?_⟩⟩
  · rintro rfl
    exact hpc hq
  · rw [LvNodes.setBalance_child]
    exact ht.congr fun q hq => hother q fun h => hpt (h ▸ hq)
  · rw [LvNodes.setBalance_child]
    exact hu.congr fun q hq => hother q fun h => hpu (h ▸ hq)

/-- A tree in changed nodes is put at a place by `attach`. -/
theorem rep_attach {s : LvTreeState} (hc : TreeRepCtx s.nodes none s.lvt.avlRoot c y) (hd : Directs (dirOf ns') c)
    (hn : (plug c t).toList.Nodup)
    (hs : ∀ p ∈ ctxNodes c, SameShape s.nodes ns' p ∧ (ns' p).avlParent = (s.nodes p).avlParent) (ht : TreeRep ns' (parentOf none c) x t) :
    TreeRep (attach (parentOf none c) x { s with nodes := ns' }).nodes none (attach (parentOf none c) x { s with nodes := ns' }).lvt.avlRoot
      (plug c t) := by
  have hn := (toList_plug_perm _ _).nodup hn
  rw [List.nodup_append] at hn
  obtain ⟨-, hnc, hdis⟩ := hn
  refine (rep_plug _ _).2 ⟨x, ?_, ?_⟩
  · have hc' : TreeRepCtx ns' none s.lvt.avlRoot c y := hc.congr hs
    exact TreeRepCtx.attach (s := { s with nodes := ns' }) hc' hd hnc x
  · refine ht.congr fun p hp => attach_shape _ _ _ fun hpar => ?_
    exact hdis p hp p (parentOf_mem hpar) rfl

end TreeRepCtx

/-! ## Rotations -/

section Rotation

variable {ns : LvNodes} {par : Option Nat} {k : Side} {R A N : Nat} {B C D E : BinTree Nat} {bA bN bR : Option Side}

theorem singleRotation_kept (R A : Nat) (k : Side) (ns : LvNodes) : Kept ns (lvAvlTreeSingleRotation R A k ns).2 := by
  have h := ((((Kept.refl ns).setChild R k ((ns A).child k.flip)).setChild A k.flip (some R)).setParent? ((ns A).child k.flip)
    (some R)).setParent R (some A)
  simp only [lvAvlTreeSingleRotation]
  split
  · exact (h.setBalance _ _).setBalance _ _
  · exact h.setBalance _ _

theorem doubleRotation_kept (R A : Nat) (k : Side) (ns : LvNodes) : Kept ns (lvAvlTreeDoubleRotation R A k ns).2 := by
  unfold lvAvlTreeDoubleRotation
  split
  · exact .refl _
  · refine Kept.setBalance ?_ _ _
    split <;> [skip; split] <;> refine Kept.setBalance (Kept.setBalance ?_ _ _) _ _ <;>
      exact ((((((((Kept.refl ns).setChild _ _ _).setChild _ _ _).setChild _ _ _).setChild _ _ _).setParent? _ _).setParent?
        _ _).setParent _ _).setParent _ _

/-- `lvAvlTreeSingleRotation` rotates the tree. -/
theorem rep_singleRotation (h : TreeRep ns par (some R) (mk k (mk k B A bA C) R bR D)) (hn : (mk k (mk k B A bA C) R bR D).toList.Nodup) :
    (lvAvlTreeSingleRotation R A k ns).1 = A ∧
    (∀ p, p ∉ (mk k (mk k B A bA C) R bR D).toList → SameShape ns (lvAvlTreeSingleRotation R A k ns).2 p ∧
      ((lvAvlTreeSingleRotation R A k ns).2 p).avlParent = (ns p).avlParent) ∧
    TreeRep ((lvAvlTreeSingleRotation R A k ns).2.setParent A par) par (some A)
      (mk k B A (if bA.isSome then none else some k.flip) (mk k C R (if bA.isSome then none else bR) D)) := by
  obtain ⟨-, hR, hbR, hA, hD⟩ := (rep_mk _ _ _ _ _).1 h
  obtain ⟨-, hAR, hbA, hB, hC⟩ := (rep_mk _ _ _ _ _).1 hA
  have hperm : (mk k (mk k B A bA C) R bR D).toList.Perm (R :: A :: (B.toList ++ C.toList ++ D.toList)) := by
    refine (toList_mk_perm _ _ _ _ _).trans (List.Perm.cons R ?_)
    exact (toList_mk_perm _ _ _ _ _).append_right _
  have hn := hperm.nodup hn
  simp only [List.nodup_cons, List.mem_cons, List.mem_append, not_or, List.nodup_append, List.append_assoc] at hn
  obtain ⟨⟨hne, hRB, hRC, hRD⟩, ⟨hAB, hAC, hAD⟩, -, ⟨hnC, -, hCD⟩, hBCD⟩ := hn
  have hkf := k.flip_ne
  -- the fields of every node after the rotation
  obtain ⟨ns', hns'⟩ : ∃ ns', ns' = (lvAvlTreeSingleRotation R A k ns).2 := ⟨_, rfl⟩
  have hchild : ∀ p s, (ns' p).child s = if p = A ∧ s = k.flip then some R else if p = R ∧ s = k then (ns A).child k.flip
      else (ns p).child s := by
    intro p s
    rw [hns']
    simp only [lvAvlTreeSingleRotation]
    split <;> simp
  have hparent : ∀ p, (ns' p).avlParent = if p = R then some A else if (ns A).child k.flip = some p then some R
      else (ns p).avlParent := by
    intro p
    rw [hns']
    simp only [lvAvlTreeSingleRotation]
    split <;> simp
  have hbalance : ∀ p, (ns' p).balance = if p = A then (if bA.isSome then none else some k.flip)
      else if p = R then (if bA.isSome then none else bR) else (ns p).balance := by
    intro p
    rw [hns']
    simp only [lvAvlTreeSingleRotation, LvNodes.setParent_balance, LvNodes.setParent?_balance, LvNodes.setChild_balance, hbA]
    by_cases hpR : p = R
    · subst hpR
      cases bA <;> simp [hne, hbR]
    · cases bA <;> simp [hpR]
  have hC_ne : ∀ p, (ns A).child k.flip = some p → p ∈ C.toList := by
    intro p hp
    rw [hp] at hC
    exact hC.root_mem
  have hother : ∀ p, p ≠ A → p ≠ R → SameShape ns ns' p := by
    intro p hA hR
    refine ⟨fun s => ?_, ?_⟩
    · rw [hchild, if_neg (by tauto), if_neg (by tauto)]
    · rw [hbalance, if_neg hA, if_neg hR]
  have hotherPar : ∀ p, p ≠ R → p ∉ C.toList → (ns' p).avlParent = (ns p).avlParent := by
    intro p hR hC
    rw [hparent, if_neg hR, if_neg fun hp => hC (hC_ne p hp)]
  refine ⟨rfl, ?_, ?_⟩
  · intro p hp
    rw [hperm.mem_iff] at hp
    simp only [List.mem_cons, List.mem_append, not_or] at hp
    rw [← hns']
    exact ⟨hother p hp.2.1 hp.1, hotherPar p hp.1 hp.2.2.1.2⟩
  have hAk : (ns' A).child k = (ns A).child k := by simp [hchild, hkf.symm, Ne.symm hne]
  have hAf : (ns' A).child k.flip = some R := by simp [hchild]
  have hRk : (ns' R).child k = (ns A).child k.flip := by simp [hchild, hne]
  have hRf : (ns' R).child k.flip = (ns R).child k.flip := by simp [hchild, hne, hkf]
  have hset : ∀ p, p ≠ A → p ≠ R → SameShape ns (ns'.setParent A par) p := by
    intro p hA hR
    simpa [SameShape] using hother p hA hR
  have hsetPar : ∀ p, p ≠ A → (ns'.setParent A par p).avlParent = (ns' p).avlParent := by
    intro p hp
    simp [hp]
  rw [← hns', rep_mk, rep_mk]
  simp only [LvNodes.setParent_child, LvNodes.setParent_balance, hAk, hAf, hRk, hRf]
  refine ⟨trivial, by simp, by simp [hbalance], ?_, trivial, ?_, by simp [hbalance, hne], ?_, ?_⟩
  · refine hB.congr fun p hp => ?_
    have hpA : p ≠ A := fun hf => hAB (hf ▸ hp)
    have hpR : p ≠ R := fun hf => hRB (hf ▸ hp)
    refine ⟨hset p hpA hpR, (hsetPar p hpA).trans (hotherPar p hpR ?_)⟩
    intro hpC
    exact hBCD p hp p (.inl hpC) rfl
  · rw [hsetPar R hne, hparent, if_pos rfl]
  · refine hC.move hnC (fun p hp => ?_) (fun p hp hroot => ?_) (fun p hp => ?_)
    · exact hset p (fun hf => hAC (hf ▸ hp)) fun hf => hRC (hf ▸ hp)
    · have hpR : p ≠ R := fun hf => hRC (hf ▸ hp)
      rw [hsetPar p fun hf => hAC (hf ▸ hp), hparent, if_neg hpR, if_neg hroot]
    · have hpC := hC_ne p hp
      have hpR : p ≠ R := fun hf => hRC (hf ▸ hpC)
      rw [hsetPar p fun hf => hAC (hf ▸ hpC), hparent, if_neg hpR, if_pos hp]
  · refine hD.congr fun p hp => ?_
    have hpA : p ≠ A := fun hf => hAD (hf ▸ hp)
    have hpR : p ≠ R := fun hf => hRD (hf ▸ hp)
    refine ⟨hset p hpA hpR, (hsetPar p hpA).trans (hotherPar p hpR ?_)⟩
    intro hpC
    exact hCD p hpC p hp rfl

/-- `lvAvlTreeDoubleRotation` rotates the tree. -/
theorem rep_doubleRotation (h : TreeRep ns par (some R) (mk k (mk k B A bA (mk k C N bN E)) R bR D))
    (hn : (mk k (mk k B A bA (mk k C N bN E)) R bR D).toList.Nodup) : (lvAvlTreeDoubleRotation R A k ns).1 = N ∧
    (∀ p, p ∉ (mk k (mk k B A bA (mk k C N bN E)) R bR D).toList → SameShape ns (lvAvlTreeDoubleRotation R A k ns).2 p ∧
      ((lvAvlTreeDoubleRotation R A k ns).2 p).avlParent = (ns p).avlParent) ∧
    TreeRep ((lvAvlTreeDoubleRotation R A k ns).2.setParent N par) par (some N)
      (mk k (mk k B A (anchorBal k bN) C) N none (mk k E R (rootBal k bN) D)) := by
  obtain ⟨-, hR, -, hA, hD⟩ := (rep_mk _ _ _ _ _).1 h
  obtain ⟨-, hAR, hbA, hB, hN⟩ := (rep_mk _ _ _ _ _).1 hA
  obtain ⟨hAN, -, hbN, hC, hE⟩ := (rep_mk _ _ _ _ _).1 hN
  have hperm : (mk k (mk k B A bA (mk k C N bN E)) R bR D).toList.Perm
      (R :: A :: N :: (B.toList ++ (C.toList ++ (E.toList ++ D.toList)))) := by
    refine (toList_mk_perm _ _ _ _ _).trans (List.Perm.cons R ?_)
    refine ((toList_mk_perm _ _ _ _ _).append_right _).trans (List.Perm.cons A ?_)
    refine (((toList_mk_perm _ _ _ _ _).append_left _).append_right _).trans ?_
    simp only [List.cons_append, List.append_assoc]
    exact List.perm_middle
  have hn := hperm.nodup hn
  simp only [List.nodup_cons, List.mem_cons, List.mem_append, not_or, List.nodup_append] at hn
  obtain ⟨⟨hRneA, hRneN, hRB, hRC, hRE, hRD⟩, ⟨hAneN, hAB, hAC, hAE, hAD⟩, ⟨hNB, hNC, hNE, hND⟩, -,
    ⟨hnC, ⟨hnE, -, hED⟩, hCED⟩, hBCED⟩ := hn
  have hkf := k.flip_ne
  -- the fields of every node after the rotation
  obtain ⟨ns', hns'⟩ : ∃ ns', ns' = (lvAvlTreeDoubleRotation R A k ns).2 := ⟨_, rfl⟩
  have hfst : (lvAvlTreeDoubleRotation R A k ns).1 = N := by simp only [lvAvlTreeDoubleRotation, hAN]
  have hchild : ∀ p s, (ns' p).child s = if p = N ∧ s = k.flip then some R else if p = N ∧ s = k then some A
      else if p = A ∧ s = k.flip then (ns N).child k else if p = R ∧ s = k then (ns N).child k.flip else (ns p).child s := by
    intro p s
    rw [hns']
    simp only [lvAvlTreeDoubleRotation, hAN]
    split <;> [skip; split] <;> simp [Ne.symm hRneN]
  have hparent : ∀ p, (ns' p).avlParent = if p = R then some N else if p = A then some N else
      if (ns N).child k = some p then some A else if (ns N).child k.flip = some p then some R else (ns p).avlParent := by
    intro p
    rw [hns']
    simp only [lvAvlTreeDoubleRotation, hAN]
    split <;> [skip; split] <;> simp [Ne.symm hRneN]
  have hbalance : ∀ p, (ns' p).balance = if p = N then none else if p = A then anchorBal k bN else if p = R then rootBal k bN
      else (ns p).balance := by
    intro p
    rw [hns']
    simp only [lvAvlTreeDoubleRotation, hAN, LvNodes.setParent_balance, LvNodes.setParent?_balance, LvNodes.setChild_balance, hbN]
    rcases bN with _ | s
    · simp [anchorBal, rootBal]
    · rcases k.eq_or_flip s with rfl | rfl <;> simp [anchorBal, rootBal, hkf, hkf.symm]
  have hC_ne : ∀ p, (ns N).child k = some p → p ∈ C.toList := by
    intro p hp
    rw [hp] at hC
    exact hC.root_mem
  have hE_ne : ∀ p, (ns N).child k.flip = some p → p ∈ E.toList := by
    intro p hp
    rw [hp] at hE
    exact hE.root_mem
  have hother : ∀ p, p ≠ R → p ≠ A → p ≠ N → SameShape ns ns' p := by
    intro p hR hA hN
    refine ⟨fun s => ?_, ?_⟩
    · rw [hchild, if_neg (by tauto), if_neg (by tauto), if_neg (by tauto), if_neg (by tauto)]
    · rw [hbalance, if_neg hN, if_neg hA, if_neg hR]
  have hotherPar : ∀ p, p ≠ R → p ≠ A → p ∉ C.toList → p ∉ E.toList → (ns' p).avlParent = (ns p).avlParent := by
    intro p hR hA hC hE
    rw [hparent, if_neg hR, if_neg hA, if_neg fun hp => hC (hC_ne p hp), if_neg fun hp => hE (hE_ne p hp)]
  refine ⟨hfst, ?_, ?_⟩
  · intro p hp
    rw [hperm.mem_iff] at hp
    simp only [List.mem_cons, List.mem_append, not_or] at hp
    obtain ⟨hpR, hpA, hpN, -, hpC, hpE, -⟩ := hp
    rw [← hns']
    exact ⟨hother p hpR hpA hpN, hotherPar p hpR hpA hpC hpE⟩
  have hNk : (ns' N).child k = some A := by simp [hchild, hkf.symm]
  have hNf : (ns' N).child k.flip = some R := by simp [hchild]
  have hAk : (ns' A).child k = (ns A).child k := by simp [hchild, hkf.symm, hAneN, Ne.symm hRneA]
  have hAf : (ns' A).child k.flip = (ns N).child k := by simp [hchild, hAneN]
  have hRk : (ns' R).child k = (ns N).child k.flip := by simp [hchild, hRneN, hRneA]
  have hRf : (ns' R).child k.flip = (ns R).child k.flip := by simp [hchild, hRneN, hRneA, hkf]
  have hset : ∀ p, p ≠ R → p ≠ A → p ≠ N → SameShape ns (ns'.setParent N par) p := by
    intro p hR hA hN
    simpa [SameShape] using hother p hR hA hN
  have hsetPar : ∀ p, p ≠ N → (ns'.setParent N par p).avlParent = (ns' p).avlParent := by
    intro p hp
    simp [hp]
  rw [← hns', rep_mk, rep_mk, rep_mk]
  simp only [LvNodes.setParent_child, LvNodes.setParent_balance, hNk, hNf, hAk, hAf, hRk, hRf]
  refine ⟨trivial, by simp, by simp [hbalance], ⟨trivial, ?_, by simp [hbalance, hAneN], ?_, ?_⟩,
    trivial, ?_, by simp [hbalance, hRneN, hRneA], ?_, ?_⟩
  · rw [hsetPar A hAneN, hparent, if_neg (Ne.symm hRneA), if_pos rfl]
  · refine hB.congr fun p hp => ?_
    have hpR : p ≠ R := fun hf => hRB (hf ▸ hp)
    have hpA : p ≠ A := fun hf => hAB (hf ▸ hp)
    have hpN : p ≠ N := fun hf => hNB (hf ▸ hp)
    refine ⟨hset p hpR hpA hpN, (hsetPar p hpN).trans (hotherPar p hpR hpA ?_ ?_)⟩
    · exact fun hpC => hBCED p hp p (.inl hpC) rfl
    · exact fun hpE => hBCED p hp p (.inr (.inl hpE)) rfl
  · have hne : ∀ p ∈ C.toList, p ≠ R ∧ p ≠ A ∧ p ≠ N := fun p hp =>
      ⟨fun hf => hRC (hf ▸ hp), fun hf => hAC (hf ▸ hp), fun hf => hNC (hf ▸ hp)⟩
    refine hC.move hnC (fun p hp => ?_) (fun p hp hroot => ?_) (fun p hp => ?_)
    · obtain ⟨hpR, hpA, hpN⟩ := hne p hp
      exact hset p hpR hpA hpN
    · obtain ⟨hpR, hpA, hpN⟩ := hne p hp
      have hpE : (ns N).child k.flip ≠ some p := fun hf => hCED p hp p (.inl (hE_ne p hf)) rfl
      rw [hsetPar p hpN, hparent, if_neg hpR, if_neg hpA, if_neg hroot, if_neg hpE]
    · obtain ⟨hpR, hpA, hpN⟩ := hne p (hC_ne p hp)
      rw [hsetPar p hpN, hparent, if_neg hpR, if_neg hpA, if_pos hp]
  · rw [hsetPar R hRneN, hparent, if_pos rfl]
  · have hne : ∀ p ∈ E.toList, p ≠ R ∧ p ≠ A ∧ p ≠ N := fun p hp =>
      ⟨fun hf => hRE (hf ▸ hp), fun hf => hAE (hf ▸ hp), fun hf => hNE (hf ▸ hp)⟩
    have hnotC : ∀ p ∈ E.toList, (ns N).child k ≠ some p := fun p hp hf => hCED p (hC_ne p hf) p (.inl hp) rfl
    refine hE.move hnE (fun p hp => ?_) (fun p hp hroot => ?_) (fun p hp => ?_)
    · obtain ⟨hpR, hpA, hpN⟩ := hne p hp
      exact hset p hpR hpA hpN
    · obtain ⟨hpR, hpA, hpN⟩ := hne p hp
      rw [hsetPar p hpN, hparent, if_neg hpR, if_neg hpA, if_neg (hnotC p hp), if_neg hroot]
    · obtain ⟨hpR, hpA, hpN⟩ := hne p (hE_ne p hp)
      rw [hsetPar p hpN, hparent, if_neg hpR, if_neg hpA, if_neg (hnotC p (hE_ne p hp)), if_pos hp]
  · refine hD.congr fun p hp => ?_
    have hpR : p ≠ R := fun hf => hRD (hf ▸ hp)
    have hpA : p ≠ A := fun hf => hAD (hf ▸ hp)
    have hpN : p ≠ N := fun hf => hND (hf ▸ hp)
    refine ⟨hset p hpR hpA hpN, (hsetPar p hpN).trans (hotherPar p hpR hpA ?_ ?_)⟩
    · exact fun hpC => hCED p hpC p (.inr hp) rfl
    · exact fun hpE => hED p hpE p hp rfl

end Rotation

end Gtm
