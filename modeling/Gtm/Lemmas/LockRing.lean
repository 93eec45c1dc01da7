import Gtm.Lemmas.LockTree
import Gtm.Lib.PtrRing
import Gtm.Mlk.ShrblkRing

/-!
# The rings that the blocks hold

`Nodes` says that the blocks hold the nodes of a tree, with the rings below them. The ring of the nodes themselves is told apart from
it, as the blocks of the nodes before them and theirs, since a walk around it is somewhere in the middle.
-/

namespace Gtm

open PtrRing

variable {σ : Type}

namespace ShrForest

/-- The blocks of a ring. -/
def ringIdxs : ShrForest σ → List Nat
  | .empty => []
  | .node d _ rsib => d.idx :: rsib.ringIdxs

/-- The blocks of a ring and of the rings below it. -/
def idxs : ShrForest σ → List Nat
  | .empty => []
  | .node d children rsib => d.idx :: (children.idxs ++ rsib.idxs)

theorem ringIdxs_sublist (f : ShrForest σ) : f.ringIdxs.Sublist f.idxs := by
  induction f with
  | empty => exact List.Sublist.refl _
  | node d children rsib _ ihr => exact (ihr.trans (List.sublist_append_right _ _)).cons_cons _

theorem ringIdxs_eq_nil {f : ShrForest σ} : f.ringIdxs = [] ↔ f.isEmpty = true := by cases f <;> simp [ringIdxs, isEmpty]

end ShrForest

namespace LockRing

variable {h h' h'' : ShrHeap σ} {par : Nat} {ks : List Nat} {d : MlkShrblk σ} {f children rsib : ShrForest σ}

/-- The pointer that a ring hangs from: that of the parent, or `blkroot`. -/
def headPtr (h : ShrHeap σ) (par : Nat) : Nat := if par = 0 then h.blkroot else (h.blk par).children

/-- The blocks are linked in a ring. -/
def RingOf (h : ShrHeap σ) (l : List Nat) : Prop := Ring (fun x => (h.blk x).rsib) (fun x => (h.blk x).lsib) l

/-- The blocks hold the nodes of the tree, whose parent is `par`. -/
def Nodes (h : ShrHeap σ) (par : Nat) : ShrForest σ → Prop
  | .empty => True
  | .node d children rsib =>
    ((h.blk d.idx).node = d ∧ (h.blk d.idx).parent = par ∧ (h.blk d.idx).children = children.ringIdxs.headD 0 ∧
      RingOf h children.ringIdxs ∧ Nodes h d.idx children) ∧ Nodes h par rsib

/-- What a routine leaves as it is that works on some blocks below `par`, in a ring with the blocks `ks`: of the other blocks it
changes only the links of `ks` and the pointer of `par`. -/
structure Frame (h h' : ShrHeap σ) (par : Nat) (ks own : List Nat) : Prop where
  node : ∀ x ∉ own, (h'.blk x).node = (h.blk x).node
  parent : ∀ x ∉ own, (h'.blk x).parent = (h.blk x).parent
  children : ∀ x ∉ own, x ≠ par → (h'.blk x).children = (h.blk x).children
  rsib : ∀ x ∉ own, x ∉ ks → (h'.blk x).rsib = (h.blk x).rsib
  lsib : ∀ x ∉ own, x ∉ ks → (h'.blk x).lsib = (h.blk x).lsib
  blkroot : par ≠ 0 → h'.blkroot = h.blkroot
  size : h'.spaceSize = h.spaceSize

theorem Frame.refl (h : ShrHeap σ) (par : Nat) (ks own : List Nat) : Frame h h par ks own :=
  ⟨fun _ _ => rfl, fun _ _ => rfl, fun _ _ _ => rfl, fun _ _ _ => rfl, fun _ _ _ => rfl, fun _ => rfl, rfl⟩

theorem RingOf.congr {l : List Nat} (hr : RingOf h l) (hrs : ∀ x ∈ l, (h'.blk x).rsib = (h.blk x).rsib)
    (hls : ∀ x ∈ l, (h'.blk x).lsib = (h.blk x).lsib) : RingOf h' l := Ring.congr hr hrs hls

/-- The nodes of a tree are in its own blocks; the links of the ring they are in do not matter. -/
theorem Nodes.congr (hn : Nodes h par f) (hnd : f.idxs.Nodup)
    (hblk : ∀ x ∈ f.idxs, (h'.blk x).node = (h.blk x).node ∧ (h'.blk x).parent = (h.blk x).parent ∧ (h'.blk x).children = (h.blk x).children)
    (hsib : ∀ x ∈ f.idxs, x ∉ f.ringIdxs → (h'.blk x).rsib = (h.blk x).rsib ∧ (h'.blk x).lsib = (h.blk x).lsib) : Nodes h' par f := by
  induction f generalizing par with
  | empty => trivial
  | node d children rsib ihc ihr =>
    obtain ⟨⟨hd, hp, hc, hring, hcn⟩, hr⟩ := hn
    simp only [ShrForest.idxs, List.nodup_cons, List.mem_append, not_or, List.nodup_append] at hnd
    obtain ⟨⟨hdc, hdr⟩, hnc, hnr, hcr⟩ := hnd
    obtain ⟨hb1, hb2, hb3⟩ := hblk d.idx (by simp [ShrForest.idxs])
    have hinner : ∀ x ∈ children.idxs, (h'.blk x).rsib = (h.blk x).rsib ∧ (h'.blk x).lsib = (h.blk x).lsib := by
      intro x hx
      refine hsib x (by simp [ShrForest.idxs, hx]) ?_
      simp only [ShrForest.ringIdxs, List.mem_cons, not_or]
      exact ⟨fun heq => hdc (heq ▸ hx), fun hm => hcr x hx x (rsib.ringIdxs_sublist.subset hm) rfl⟩
    refine ⟨⟨hb1.trans hd, hb2.trans hp, hb3.trans hc, hring.congr (fun x hx => ?_) fun x hx => ?_, ?_⟩, ?_⟩
    · exact (hinner x (children.ringIdxs_sublist.subset hx)).1
    · exact (hinner x (children.ringIdxs_sublist.subset hx)).2
    · exact ihc hcn hnc (fun x hx => hblk x (by simp [ShrForest.idxs, hx])) fun x hx _ => hinner x hx
    · refine ihr hr hnr (fun x hx => hblk x (by simp [ShrForest.idxs, hx])) fun x hx hxr => hsib x (by simp [ShrForest.idxs, hx]) ?_
      simp only [ShrForest.ringIdxs, List.mem_cons, not_or]
      exact ⟨fun heq => hdr (heq ▸ hx), hxr⟩

/-- Where a routine that works on some blocks of a ring leaves the nodes of others. -/
theorem Frame.nodes {p : Nat} {own : List Nat} (hf : Frame h h' par ks own) (hn : Nodes h p f) (hnd : f.idxs.Nodup)
    (hown : ∀ x ∈ f.idxs, x ∉ own) (hpar : par ∉ f.idxs) (hks : ∀ x ∈ f.idxs, x ∈ ks → x ∈ f.ringIdxs) : Nodes h' p f := by
  refine hn.congr hnd (fun x hx => ⟨hf.node x (hown x hx), hf.parent x (hown x hx), hf.children x (hown x hx) ?_⟩) fun x hx hxr =>
    ⟨hf.rsib x (hown x hx) fun hk => hxr (hks x hx hk), hf.lsib x (hown x hx) fun hk => hxr (hks x hx hk)⟩
  rintro rfl
  exact hpar hx

@[simp] theorem blk_modify (d x : Nat) (g : RingBlk σ → RingBlk σ) : (h.modify d g).blk x = if x = d then g (h.blk d) else h.blk x := by
  simp only [ShrHeap.modify, Function.update_apply]

@[simp] theorem blkroot_modify (d : Nat) (g : RingBlk σ → RingBlk σ) : (h.modify d g).blkroot = h.blkroot := rfl

@[simp] theorem spaceSize_modify (d : Nat) (g : RingBlk σ → RingBlk σ) : (h.modify d g).spaceSize = h.spaceSize := rfl

@[simp] theorem ctl_modify (d : Nat) (g : RingBlk σ → RingBlk σ) : (h.modify d g).ctl = h.ctl := rfl

/-! ## Frames -/

theorem Frame.trans {own : List Nat} (hf : Frame h h' par ks own) (hf' : Frame h' h'' par ks own) : Frame h h'' par ks own where
  node x hx := (hf'.node x hx).trans (hf.node x hx)
  parent x hx := (hf'.parent x hx).trans (hf.parent x hx)
  children x hx hp := (hf'.children x hx hp).trans (hf.children x hx hp)
  rsib x hx hk := (hf'.rsib x hx hk).trans (hf.rsib x hx hk)
  lsib x hx hk := (hf'.lsib x hx hk).trans (hf.lsib x hx hk)
  blkroot hp := (hf'.blkroot hp).trans (hf.blkroot hp)
  size := hf'.size.trans hf.size

/-- A routine that works on fewer blocks, on those below one of them for instance. -/
theorem Frame.mono {par' : Nat} {ks' own own' : List Nat} (hf : Frame h h' par' ks' own') (hown : own' ⊆ own)
    (hks : ∀ x ∈ ks', x ∈ ks ∨ x ∈ own) (hpar : par' = par ∨ par' ∈ own ∧ par' ≠ 0) : Frame h h' par ks own where
  node x hx := hf.node x fun hm => hx (hown hm)
  parent x hx := hf.parent x fun hm => hx (hown hm)
  children x hx hp := by
    refine hf.children x (fun hm => hx (hown hm)) ?_
    rintro rfl
    rcases hpar with heq | ⟨hm, -⟩
    · exact hp heq
    · exact hx hm
  rsib x hx hk := hf.rsib x (fun hm => hx (hown hm)) fun hm => (hks x hm).elim hk hx
  lsib x hx hk := hf.lsib x (fun hm => hx (hown hm)) fun hm => (hks x hm).elim hk hx
  blkroot hp := hf.blkroot (by rcases hpar with rfl | ⟨-, h0⟩ <;> assumption)
  size := hf.size

/-! ## A place in a ring -/

/-- The blocks hold a tree whose first nodes come after the blocks `ks` in their ring. -/
structure At (h : ShrHeap σ) (par : Nat) (ks : List Nat) (f : ShrForest σ) : Prop where
  nodes : Nodes h par f
  ring : RingOf h (ks ++ f.ringIdxs)
  head : headPtr h par = (ks ++ f.ringIdxs).headD 0
  nodup : (ks ++ f.idxs).Nodup
  zero : 0 ∉ ks ++ f.idxs
  parent : par ∉ ks ++ f.idxs
  root : par ≠ 0 → h.blkroot ∉ ks ++ f.idxs

/-- The children of a node are a tree of their own. -/
theorem At.below (ha : At h par ks (.node d children rsib)) : At h d.idx [] children := by
  obtain ⟨⟨⟨-, -, hc, hring, hcn⟩, -⟩, -, hhead, hnd, h0, -, hroot⟩ := ha
  have hd0 : d.idx ≠ 0 := by
    rintro heq
    exact h0 (by simp [ShrForest.idxs, heq])
  simp only [ShrForest.idxs, List.nodup_append, List.nodup_cons, List.mem_append, List.mem_cons, not_or] at hnd
  refine ⟨hcn, hring, by simp [headPtr, hd0, hc], by simpa using hnd.2.1.2.1, ?_, by simpa using hnd.2.1.1.1, fun _ => ?_⟩
  · exact fun hm => h0 (by simp [ShrForest.idxs, show 0 ∈ children.idxs by simpa using hm])
  · rintro hm
    have hm : h.blkroot ∈ children.idxs := by simpa using hm
    rcases eq_or_ne par 0 with rfl | hpar
    -- the root of the ring of all is the first of it
    · rw [headPtr] at hhead
      cases ks with
      | nil =>
        rw [show h.blkroot = d.idx from hhead] at hm
        exact hnd.2.1.1.1 hm
      | cons k ks =>
        rw [show h.blkroot = k from hhead] at hm
        exact hnd.2.2 k (by simp) k (by simp [hm]) rfl
    · exact hroot hpar (by simp [ShrForest.idxs, hm])

/-- On to the next node of the ring. -/
theorem At.skip (ha : At h par ks (.node d children rsib)) : At h par (ks ++ [d.idx]) rsib := by
  have hsub : (ks ++ [d.idx] ++ rsib.idxs).Sublist (ks ++ (ShrForest.node d children rsib).idxs) := by
    rw [List.append_assoc]
    exact (List.Sublist.cons_cons _ (List.sublist_append_right _ _)).append_left ks
  obtain ⟨⟨-, hr⟩, hring, hhead, hnd, h0, hp, hroot⟩ := ha
  refine ⟨hr, by simpa [ShrForest.ringIdxs] using hring, by simpa [ShrForest.ringIdxs] using hhead, hnd.sublist hsub,
    fun hm => h0 (hsub.subset hm), fun hm => hp (hsub.subset hm), fun h' hm => hroot h' (hsub.subset hm)⟩

/-- Back from the next node of the ring. -/
theorem At.unskip {rsib' : ShrForest σ} (ha : At h par ks (.node d children rsib)) (hf : Frame h h' par (ks ++ [d.idx]) rsib.idxs)
    (ha' : At h' par (ks ++ [d.idx]) rsib') (hsub : rsib'.idxs.Sublist rsib.idxs) : At h' par ks (.node d children rsib') := by
  have hs : (ks ++ (ShrForest.node d children rsib').idxs).Sublist (ks ++ (ShrForest.node d children rsib).idxs) :=
    ((hsub.append_left children.idxs).cons_cons d.idx).append_left ks
  obtain ⟨⟨⟨hd, hp, hc, hring, hcn⟩, -⟩, -, -, hnd, h0, hpar, hroot⟩ := ha
  have hnd' := hnd
  simp only [ShrForest.idxs, List.nodup_append, List.nodup_cons, List.mem_append, List.mem_cons, not_or] at hnd'
  obtain ⟨-, ⟨⟨hdc, hdr⟩, hnc, -, hcr⟩, hk⟩ := hnd'
  have hdpar : d.idx ≠ par := fun heq => hpar (by simp [ShrForest.idxs, heq])
  have hcr' : ∀ x ∈ children.idxs, x ∉ rsib.idxs := fun x hx hm => hcr x hx x hm rfl
  have hck : ∀ x ∈ children.idxs, x ∉ ks ++ [d.idx] := by
    intro x hx hm
    rcases List.mem_append.mp hm with hm | hm
    · exact hk x hm x (.inr (.inl hx)) rfl
    · exact hdc (List.mem_singleton.mp hm ▸ hx)
  have hcl : ∀ x ∈ children.ringIdxs, x ∉ rsib.idxs ∧ x ∉ ks ++ [d.idx] := fun x hx =>
    ⟨hcr' x (children.ringIdxs_sublist.subset hx), hck x (children.ringIdxs_sublist.subset hx)⟩
  refine ⟨⟨⟨(hf.node _ hdr).trans hd, (hf.parent _ hdr).trans hp, (hf.children _ hdr hdpar).trans hc,
    hring.congr (fun x hx => hf.rsib x (hcl x hx).1 (hcl x hx).2) fun x hx => hf.lsib x (hcl x hx).1 (hcl x hx).2, ?_⟩, ha'.nodes⟩,
    by simpa [ShrForest.ringIdxs] using ha'.ring, by simpa [ShrForest.ringIdxs] using ha'.head, hnd.sublist hs,
    fun hm => h0 (hs.subset hm), fun hm => hpar (hs.subset hm), fun hne hm => hroot hne (hf.blkroot hne ▸ hs.subset hm)⟩
  exact hf.nodes hcn hnc hcr' (fun hm => hpar (by simp [ShrForest.idxs, hm])) fun x hx hm => absurd hm (hck x hx)

/-- Back from the children of a node. -/
theorem At.above {children' : ShrForest σ} (ha : At h par ks (.node d children rsib)) (hf : Frame h h' d.idx [] children.idxs)
    (ha' : At h' d.idx [] children') (hsub : children'.idxs.Sublist children.idxs) : At h' par ks (.node d children' rsib) := by
  have hs : (ks ++ (ShrForest.node d children' rsib).idxs).Sublist (ks ++ (ShrForest.node d children rsib).idxs) :=
    ((hsub.append_right rsib.idxs).cons_cons d.idx).append_left ks
  obtain ⟨⟨⟨hd, hp, -, -, -⟩, hr⟩, hring, hhead, hnd, h0, hpar, hroot⟩ := ha
  have hnd' := hnd
  simp only [ShrForest.idxs, List.nodup_append, List.nodup_cons, List.mem_append, List.mem_cons, not_or] at hnd'
  obtain ⟨-, ⟨⟨hdc, hdr⟩, -, hnr, hcr⟩, hk⟩ := hnd'
  have hd0 : d.idx ≠ 0 := by
    rintro heq
    exact h0 (by simp [ShrForest.idxs, heq])
  have hrc : ∀ x ∈ rsib.idxs, x ∉ children.idxs := fun x hx hm => hcr x hm x hx rfl
  have hout : ∀ x ∈ ks ++ (ShrForest.node d children rsib).ringIdxs, x ∉ children.idxs := by
    intro x hx hm
    rcases List.mem_append.mp hx with hx | hx
    · exact hk x hx x (.inr (.inl hm)) rfl
    · rcases List.mem_cons.mp hx with rfl | hx
      · exact hdc hm
      · exact hrc x (rsib.ringIdxs_sublist.subset hx) hm
  have hparne : par ∉ children.idxs ∧ par ≠ d.idx := by
    refine ⟨fun hm => hpar (by simp [ShrForest.idxs, hm]), fun heq => hpar (by simp [ShrForest.idxs, heq])⟩
  have hhead' : headPtr h' par = headPtr h par := by
    unfold headPtr
    split
    · exact hf.blkroot hd0
    · exact hf.children par hparne.1 hparne.2
  have hchildren : (h'.blk d.idx).children = children'.ringIdxs.headD 0 := by
    have hh := ha'.head
    rwa [headPtr, if_neg hd0] at hh
  refine ⟨⟨⟨(hf.node _ hdc).trans hd, (hf.parent _ hdc).trans hp, hchildren, by simpa using ha'.ring, ha'.nodes⟩, ?_⟩, ?_,
    hhead'.trans hhead, hnd.sublist hs, fun hm => h0 (hs.subset hm), fun hm => hpar (hs.subset hm),
    fun hne hm => hroot hne (hf.blkroot hd0 ▸ hs.subset hm)⟩
  · exact hf.nodes hr hnr hrc hdr fun x _ hm => nomatch hm
  · exact hring.congr (fun x hx => hf.rsib x (hout x hx) List.not_mem_nil) fun x hx => hf.lsib x (hout x hx) List.not_mem_nil

/-- A node with something else in it. -/
def setNode (h : ShrHeap σ) (d' : MlkShrblk σ) (ctl' : MlkCtl) : ShrHeap σ :=
  { h.modify d'.idx fun b => { b with node := d' } with ctl := ctl' }

section SetNode

variable (d' : MlkShrblk σ) (ctl' : MlkCtl) (x : Nat)

theorem setNode_blk : (setNode h d' ctl').blk x = { h.blk x with node := if x = d'.idx then d' else (h.blk x).node } := by
  simp only [setNode, blk_modify]
  split
  · subst x; rfl
  · rfl

theorem setNode_node : ((setNode h d' ctl').blk x).node = if x = d'.idx then d' else (h.blk x).node := by rw [setNode_blk]

@[simp] theorem setNode_parent : ((setNode h d' ctl').blk x).parent = (h.blk x).parent := by rw [setNode_blk]

@[simp] theorem setNode_children : ((setNode h d' ctl').blk x).children = (h.blk x).children := by rw [setNode_blk]

@[simp] theorem setNode_rsib : ((setNode h d' ctl').blk x).rsib = (h.blk x).rsib := by rw [setNode_blk]

@[simp] theorem setNode_lsib : ((setNode h d' ctl').blk x).lsib = (h.blk x).lsib := by rw [setNode_blk]

@[simp] theorem setNode_ctl : (setNode h d' ctl').ctl = ctl' := rfl

theorem frame_setNode {own : List Nat} (hm : d'.idx ∈ own) : Frame h (setNode h d' ctl') par ks own where
  node x hx := by
    rw [setNode_node, if_neg]
    rintro rfl
    exact hx hm
  parent x _ := setNode_parent d' ctl' x
  children x _ _ := setNode_children d' ctl' x
  rsib x _ _ := setNode_rsib d' ctl' x
  lsib x _ _ := setNode_lsib d' ctl' x
  blkroot _ := rfl
  size := rfl

end SetNode

theorem At.setNode {d' : MlkShrblk σ} (ha : At h par ks (.node d children rsib)) (hidx : d'.idx = d.idx) (ctl' : MlkCtl) :
    At (setNode h d' ctl') par ks (.node d' children rsib) := by
  obtain ⟨⟨⟨-, hp, hc, hring, hcn⟩, hr⟩, hring', hhead, hnd, h0, hpar, hroot⟩ := ha
  have hids : (ShrForest.node d' children rsib).idxs = (ShrForest.node d children rsib).idxs := by rw [ShrForest.idxs, ShrForest.idxs, hidx]
  have hrids : (ShrForest.node d' children rsib).ringIdxs = (ShrForest.node d children rsib).ringIdxs := by
    rw [ShrForest.ringIdxs, ShrForest.ringIdxs, hidx]
  have hnd' := hnd
  simp only [ShrForest.idxs, List.nodup_append, List.nodup_cons, List.mem_append, List.mem_cons, not_or] at hnd'
  obtain ⟨-, ⟨⟨hdc, hdr⟩, hnc, hnr, -⟩, -⟩ := hnd'
  have hnodes : ∀ {p : Nat} {f : ShrForest σ}, Nodes h p f → f.idxs.Nodup → d.idx ∉ f.idxs → Nodes (LockRing.setNode h d' ctl') p f := by
    intro p f hn hnd hd
    refine hn.congr hnd (fun x hx => ⟨?_, setNode_parent d' ctl' x, setNode_children d' ctl' x⟩) fun x _ _ =>
      ⟨setNode_rsib d' ctl' x, setNode_lsib d' ctl' x⟩
    rw [setNode_node, hidx, if_neg]
    rintro rfl
    exact hd hx
  refine ⟨⟨⟨?_, ?_, ?_, ?_, ?_⟩, hnodes hr hnr hdr⟩, ?_, ?_, ?_, ?_, ?_, ?_⟩
  · rw [setNode_node, if_pos rfl]
  · rw [setNode_parent, hidx, hp]
  · rw [setNode_children, hidx, hc]
  · exact hring.congr (fun x _ => setNode_rsib d' ctl' x) fun x _ => setNode_lsib d' ctl' x
  · rw [hidx]
    exact hnodes hcn hnc hdc
  · rw [hrids]
    exact hring'.congr (fun x _ => setNode_rsib d' ctl' x) fun x _ => setNode_lsib d' ctl' x
  · rw [hrids, ← hhead, headPtr, headPtr, setNode_children]
    rfl
  all_goals rwa [hids]

theorem mlkWakePending_idx (alive : Nat → Bool) (d : MlkShrblk σ) (ctl : MlkCtl) : (mlkWakePending alive d ctl).1.idx = d.idx := by
  unfold mlkWakePending
  split <;> rfl

theorem mlkWakePending_eq (alive : Nat → Bool) (ha : At h par ks (.node d children rsib)) : h.mlkWakePending alive d.idx =
      (setNode h (mlkWakePending alive d h.ctl).1 (mlkWakePending alive d h.ctl).2,
        .wake d.idx ((mlkWakePending alive d h.ctl).1.pending.head?.map MlkPrcblk.processId)) := by
  rw [ShrHeap.mlkWakePending, ha.nodes.1.1, setNode, mlkWakePending_idx]

/-! ## Deleting a node -/

/-- The two writes that lead a ring past a block. -/
theorem led_blk (h : ShrHeap σ) (l r y : Nat) :
    (((h.modify r fun b => { b with lsib := l }).modify l fun b => { b with rsib := r }).blk y) =
      { h.blk y with lsib := if y = r then l else (h.blk y).lsib, rsib := if y = l then r else (h.blk y).rsib } := by
  by_cases hl : y = l
  · subst y
    by_cases hr : l = r
    · subst l; simp
    · simp [hr]
  · by_cases hr : y = r
    · subst y; simp [hl]
    · simp [hl, hr]

/-- What `unlink` leaves of a block, in a ring of several. -/
theorem unlink_blk {x : Nat} (hx : x ≠ (h.blk x).rsib) (y : Nat) :
    (h.unlink x).blk y = { h.blk y with
        children := if (h.blk x).parent ≠ 0 ∧ y = (h.blk x).parent ∧ (h.blk y).children = x then (h.blk x).rsib else (h.blk y).children
        lsib := if y = (h.blk x).rsib then (h.blk x).lsib else (h.blk y).lsib
        rsib := if y = (h.blk x).lsib then (h.blk x).rsib else (h.blk y).rsib } := by
  have hroot : (h.unlink x).blk y = (if (h.blk x).parent ≠ 0 ∧ (h.blk (h.blk x).parent).children = x then
        (((h.modify (h.blk x).rsib fun b => { b with lsib := (h.blk x).lsib }).modify (h.blk x).lsib fun b =>
          { b with rsib := (h.blk x).rsib }).modify (h.blk x).parent fun b => { b with children := (h.blk x).rsib })
      else (h.modify (h.blk x).rsib fun b => { b with lsib := (h.blk x).lsib }).modify (h.blk x).lsib fun b =>
          { b with rsib := (h.blk x).rsib }).blk y := by
    simp only [ShrHeap.unlink, if_neg hx, led_blk]
    split <;> split <;> rfl
  rw [hroot]
  by_cases hp : (h.blk x).parent ≠ 0 ∧ (h.blk (h.blk x).parent).children = x
  · rw [if_pos hp, blk_modify]
    by_cases hy : y = (h.blk x).parent
    · simp [hy, led_blk, hp, -blk_modify]
    · simp [hy, led_blk, -blk_modify]
  · rw [if_neg hp, led_blk]
    have hy : ¬((h.blk x).parent ≠ 0 ∧ y = (h.blk x).parent ∧ (h.blk y).children = x) := fun hh => hp ⟨hh.1, hh.2.1 ▸ hh.2.2⟩
    simp only [if_neg hy]

theorem unlink_blkroot {x : Nat} (hx : x ≠ (h.blk x).rsib) :
    (h.unlink x).blkroot = if h.blkroot = x then (h.blk x).rsib else h.blkroot := by
  simp only [ShrHeap.unlink, if_neg hx]
  split <;> split <;> simp_all

theorem unlink_spaceSize (x : Nat) : (h.unlink x).spaceSize = h.spaceSize := by
  simp only [ShrHeap.unlink]
  split_ifs <;> rfl

theorem unlink_ctl (x : Nat) : (h.unlink x).ctl = h.ctl := by
  simp only [ShrHeap.unlink]
  split_ifs <;> rfl

theorem free_blk {x y : Nat} (hne : y ≠ x) : (h.free x).blk y = h.blk y := by
  simp only [ShrHeap.free, blk_modify, if_neg hne]

/-- The only node of a ring taken from it. -/
theorem unlink_alone (ha : At h par [] (.node d .empty .empty)) :
    headPtr (h.unlink d.idx) par = 0 ∧ Frame h (h.unlink d.idx) par [] [d.idx] := by
  have hp : (h.blk d.idx).parent = par := ha.nodes.1.2.1
  have hr : (h.blk d.idx).rsib = d.idx := by
    have hring : Linked (fun x => (h.blk x).rsib) (fun x => (h.blk x).lsib) d.idx [] d.idx := ha.ring
    exact hring.1
  rw [ShrHeap.unlink, if_pos hr.symm, hp]
  by_cases h0 : par = 0
  · simp only [if_pos h0, headPtr]
    exact ⟨trivial, fun _ _ => rfl, fun _ _ => rfl, fun _ _ _ => rfl, fun _ _ _ => rfl, fun _ _ _ => rfl, fun hh => absurd h0 hh, rfl⟩
  · rw [if_neg h0, headPtr, if_neg h0, blk_modify, if_pos rfl]
    refine ⟨rfl, fun y _ => ?_, fun y _ => ?_, fun y _ hy => by rw [blk_modify, if_neg hy], fun y _ _ => ?_, fun y _ _ => ?_, fun _ => rfl,
      rfl⟩
    all_goals
      rw [blk_modify]
      split
      · subst y; rfl
      · rfl

section
variable (ha : At h par ks (.node d .empty rsib))
include ha

/-- A node taken from a ring of several. -/
theorem unlink_several (hne : rsib.ringIdxs ++ ks ≠ []) :
    RingOf (h.unlink d.idx) (ks ++ rsib.ringIdxs) ∧ headPtr (h.unlink d.idx) par = (ks ++ rsib.ringIdxs).headD 0 ∧
      Frame h (h.unlink d.idx) par (ks ++ rsib.ringIdxs) [d.idx] := by
  have hp : (h.blk d.idx).parent = par := ha.nodes.1.2.1
  have hnd : (ks ++ d.idx :: rsib.ringIdxs).Nodup := ha.nodup.sublist ((ShrForest.ringIdxs_sublist (.node d .empty rsib)).append_left ks)
  obtain ⟨hring, hr, hl⟩ := Ring.unlink ha.ring hnd hne
  have hnext := Ring.next_eq ha.ring
  have hout : d.idx ∉ rsib.ringIdxs ++ ks := by
    have hperm : (ks ++ d.idx :: rsib.ringIdxs).Perm (d.idx :: (rsib.ringIdxs ++ ks)) :=
      List.perm_middle.trans (List.Perm.cons _ List.perm_append_comm)
    exact (List.nodup_cons.mp (hperm.nodup_iff.mp hnd)).1
  have hx : d.idx ≠ (h.blk d.idx).rsib := fun heq => hout (heq ▸ hr)
  have hhead : headPtr (h.unlink d.idx) par = if headPtr h par = d.idx then (h.blk d.idx).rsib else headPtr h par := by
    by_cases h0 : par = 0
    · simp only [headPtr, if_pos h0, unlink_blkroot hx]
    · simp [headPtr, h0, unlink_blk hx, hp]
  refine ⟨?_, ?_, fun y _ => by rw [unlink_blk hx], fun y _ => by rw [unlink_blk hx], fun y _ hy => ?_, fun y _ hk => ?_, fun y _ hk => ?_,
    fun h0 => ?_, unlink_spaceSize _⟩
  · refine Ring.congr hring (fun y _ => ?_) fun y _ => ?_
    · simp only [unlink_blk hx, Function.update_apply]
    · simp only [unlink_blk hx, Function.update_apply]
  · rw [hhead, ha.head]
    cases ks with
    | nil =>
      cases hs : rsib.ringIdxs with
      | nil => simp [hs] at hne
      | cons y s => simpa [ShrForest.ringIdxs, hs] using hnext
    | cons k ks =>
      have hkd : k ≠ d.idx := by
        rintro rfl
        exact hout (by simp)
      simp [hkd]
  · simp only [unlink_blk hx, hp, if_neg (show ¬(par ≠ 0 ∧ y = par ∧ (h.blk y).children = d.idx) from fun hh => hy hh.2.1)]
  · simp only [unlink_blk hx]
    rw [if_neg]
    rintro rfl
    exact hk (by simpa [or_comm] using hl)
  · simp only [unlink_blk hx]
    rw [if_neg]
    rintro rfl
    exact hk (by simpa [or_comm] using hr)
  · rw [unlink_blkroot hx, if_neg]
    rintro heq
    exact ha.root h0 (by simp [heq, ShrForest.idxs])

/-- A node taken from a ring. -/
theorem unlink_spec : RingOf (h.unlink d.idx) (ks ++ rsib.ringIdxs) ∧ headPtr (h.unlink d.idx) par = (ks ++ rsib.ringIdxs).headD 0 ∧
      Frame h (h.unlink d.idx) par (ks ++ rsib.ringIdxs) [d.idx] := by
  by_cases hne : rsib.ringIdxs ++ ks = []
  · obtain ⟨hr, rfl⟩ := List.append_eq_nil_iff.mp hne
    cases rsib with
    | empty =>
      obtain ⟨hhead, hframe⟩ := unlink_alone ha
      exact ⟨trivial, hhead, hframe⟩
    | node _ _ _ => nomatch hr
  · exact unlink_several ha hne

/-- A node is deleted from a ring. -/
theorem At.delete : At ((h.unlink d.idx).free d.idx) par ks rsib ∧
      Frame h ((h.unlink d.idx).free d.idx) par ks (ShrForest.node d .empty rsib).idxs ∧
      ((h.unlink d.idx).free d.idx).ctl = { h.ctl with blkfree := d.idx :: h.ctl.blkfree } := by
  obtain ⟨hring, hhead, hframe⟩ := unlink_spec ha
  have hsub : (ks ++ rsib.idxs).Sublist (ks ++ (ShrForest.node d .empty rsib).idxs) := (List.sublist_cons_self d.idx _).append_left ks
  have hfree : Frame (h.unlink d.idx) ((h.unlink d.idx).free d.idx) par (ks ++ rsib.ringIdxs) [d.idx] := by
    have hb : ∀ x ∉ [d.idx], (((h.unlink d.idx).free d.idx).blk x) = (h.unlink d.idx).blk x := fun x hx =>
      free_blk fun heq => hx (by simp [heq])
    exact ⟨fun x hx => by rw [hb x hx], fun x hx => by rw [hb x hx], fun x hx _ => by rw [hb x hx], fun x hx _ => by rw [hb x hx],
      fun x hx _ => by rw [hb x hx], fun _ => rfl, rfl⟩
  have hall := hframe.trans hfree
  have hout : ∀ x ∈ ks ++ rsib.idxs, x ≠ d.idx := by
    rintro x hx rfl
    have hnd := ha.nodup
    simp only [ShrForest.idxs, List.nil_append, List.nodup_append, List.nodup_cons, List.mem_cons] at hnd
    rcases List.mem_append.mp hx with hx | hx
    · exact hnd.2.2 d.idx hx d.idx (.inl rfl) rfl
    · exact hnd.2.1.1 hx
  have hpd : par ≠ d.idx := fun heq => ha.parent (by simp [heq, ShrForest.idxs])
  refine ⟨⟨?_, ?_, ?_, ha.nodup.sublist hsub, fun hm => ha.zero (hsub.subset hm), fun hm => ha.parent (hsub.subset hm), ?_⟩, ?_, ?_⟩
  · refine hall.nodes ha.nodes.2 ((List.nodup_append.mp (ha.nodup.sublist hsub)).2.1) (fun x hx => ?_)
      (fun hm => ha.parent (hsub.subset (by simp [hm]))) fun x hx hk => ?_
    · simpa using hout x (by simp [hx])
    · rcases List.mem_append.mp hk with hk | hk
      · exact absurd rfl ((List.nodup_append.mp (ha.nodup.sublist hsub)).2.2 x hk x hx)
      · exact hk
  · exact hring.congr (fun x hx => by rw [free_blk]; exact hout x ((rsib.ringIdxs_sublist.append_left ks).subset hx)) fun x hx => by
      rw [free_blk]; exact hout x ((rsib.ringIdxs_sublist.append_left ks).subset hx)
  · rw [← hhead, headPtr, free_blk hpd]
    rfl
  · exact fun h0 hm => ha.root h0 (hsub.subset (hall.blkroot h0 ▸ hm))
  · refine hall.mono (by simp [ShrForest.idxs]) (fun x hx => ?_) (.inl rfl)
    rcases List.mem_append.mp hx with hx | hx
    · exact .inl hx
    · exact .inr (by simp [ShrForest.idxs, rsib.ringIdxs_sublist.subset hx])
  · simp only [ShrHeap.free, unlink_ctl]

end

end LockRing

end Gtm
