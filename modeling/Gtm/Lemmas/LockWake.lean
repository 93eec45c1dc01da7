import Gtm.Lemmas.LockRing

/-!
# Going around a ring that gets shorter

`mlk_tree_wake_children` on the blocks does what it does on the tree that they hold. The walk stands before the nodes that are left of
the ring, behind those that were kept, and when there are none of these, the first node that is left is where the ring starts.
-/

namespace Gtm

open PtrRing LockRing

variable {σ : Type} {alive : Nat → Bool}

/-- What the visit of a node does below it. -/
def wakeInner (alive : Nat → Bool) (d : MlkShrblk σ) (children : ShrForest σ) (ctl : MlkCtl) : Bool × ShrForest σ × MlkCtl :=
  if d.owner = 0 then mlkTreeWakeChildren alive children ctl else (false, children, ctl)

/-- The visit wakes at the node itself. -/
def WakesHere (d : MlkShrblk σ) (gotoneInSubtree : Bool) : Prop := gotoneInSubtree = false ∧ d.pending ≠ [] ∧ d.owner = 0

instance (d : MlkShrblk σ) (g : Bool) : Decidable (WakesHere d g) := inferInstanceAs (Decidable (_ ∧ _ ∧ _))

/-- What is told of `mlk_tree_wake_children`. -/
def wakeLog (alive : Nat → Bool) : ShrForest σ → MlkCtl → List (WakeEvent σ)
  | .empty, _ => []
  | .node d children rsib, ctl =>
    let (gotoneInSubtree, children', ctl') := wakeInner alive d children ctl
    let sub := if d.owner = 0 then wakeLog alive children ctl else []
    if WakesHere d gotoneInSubtree then
      let (d', ctl') := mlkWakePending alive d ctl'
      .visit d.idx :: sub ++ .wake d.idx (d'.pending.head?.map MlkPrcblk.processId) :: wakeLog alive rsib ctl'
    else if d.isUnused children' then
      .visit d.idx :: sub ++ [.delete d 0] ++ wakeLog alive rsib { ctl' with blkfree := d.idx :: ctl'.blkfree }
    else .visit d.idx :: sub ++ [] ++ wakeLog alive rsib ctl'

section Node

variable {d : MlkShrblk σ} {children children' rsib : ShrForest σ} {ctl ctl' : MlkCtl} {g : Bool}

section
variable (hi : wakeInner alive d children ctl = (g, children', ctl'))
include hi

theorem treeWake_woken (hw : WakesHere d g) : mlkTreeWakeChildren alive (.node d children rsib) ctl =
      (true, .node (mlkWakePending alive d ctl').1 children' (mlkTreeWakeChildren alive rsib (mlkWakePending alive d ctl').2).2.1,
        (mlkTreeWakeChildren alive rsib (mlkWakePending alive d ctl').2).2.2) := by
  have hw' : (!g && !d.pending.isEmpty && d.owner == 0) = true := by
    simpa [WakesHere, and_assoc] using hw
  rw [wakeInner] at hi
  simp only [mlkTreeWakeChildren, hi, hw', if_true]

theorem treeWake_deleted (hw : ¬WakesHere d g)
    (hu : d.isUnused children' = true) :
    mlkTreeWakeChildren alive (.node d children rsib) ctl =
      ((mlkTreeWakeChildren alive rsib { ctl' with blkfree := d.idx :: ctl'.blkfree }).1 || g,
        (mlkTreeWakeChildren alive rsib { ctl' with blkfree := d.idx :: ctl'.blkfree }).2) := by
  have hw' : (!g && !d.pending.isEmpty && d.owner == 0) = false := by
    simpa [WakesHere] using hw
  rw [wakeInner] at hi
  simp only [mlkTreeWakeChildren, hi, hw', hu, if_true, Bool.false_eq_true, if_false]

theorem treeWake_kept (hw : ¬WakesHere d g) (hu : d.isUnused children' = false) : mlkTreeWakeChildren alive (.node d children rsib) ctl =
      ((mlkTreeWakeChildren alive rsib ctl').1 || g, .node d children' (mlkTreeWakeChildren alive rsib ctl').2.1,
        (mlkTreeWakeChildren alive rsib ctl').2.2) := by
  have hw' : (!g && !d.pending.isEmpty && d.owner == 0) = false := by
    simpa [WakesHere] using hw
  rw [wakeInner] at hi
  simp only [mlkTreeWakeChildren, hi, hw', hu, Bool.false_eq_true, if_false]

theorem wakeLog_woken (hw : WakesHere d g) : wakeLog alive (.node d children rsib) ctl =
      .visit d.idx :: (if d.owner = 0 then wakeLog alive children ctl else []) ++
        .wake d.idx ((mlkWakePending alive d ctl').1.pending.head?.map MlkPrcblk.processId) ::
          wakeLog alive rsib (mlkWakePending alive d ctl').2 := by
  simp only [wakeLog, hi, if_pos hw]

theorem wakeLog_deleted (hw : ¬WakesHere d g) (hu : d.isUnused children' = true) : wakeLog alive (.node d children rsib) ctl =
      .visit d.idx :: (if d.owner = 0 then wakeLog alive children ctl else []) ++ [.delete d 0] ++
        wakeLog alive rsib { ctl' with blkfree := d.idx :: ctl'.blkfree } := by
  simp only [wakeLog, hi, if_neg hw, hu, if_true]

theorem wakeLog_kept (hw : ¬WakesHere d g) (hu : d.isUnused children' = false) : wakeLog alive (.node d children rsib) ctl =
      .visit d.idx :: (if d.owner = 0 then wakeLog alive children ctl else []) ++ [] ++ wakeLog alive rsib ctl' := by
  simp only [wakeLog, hi, if_neg hw, hu, Bool.false_eq_true, if_false]

end

end Node

theorem wakeInner_sublist {d : MlkShrblk σ} {children children' : ShrForest σ} {ctl ctl' : MlkCtl} {g : Bool}
    (hc : (mlkTreeWakeChildren alive children ctl).2.1.idxs.Sublist children.idxs)
    (hi : wakeInner alive d children ctl = (g, children', ctl')) : children'.idxs.Sublist children.idxs := by
  rw [wakeInner] at hi
  split at hi
  · rwa [hi] at hc
  · rw [(Prod.mk.inj (Prod.mk.inj hi).2).1]

/-- Waking takes nodes away only. -/
theorem treeWake_idxs (alive : Nat → Bool) (f : ShrForest σ) (ctl : MlkCtl) : (mlkTreeWakeChildren alive f ctl).2.1.idxs.Sublist f.idxs := by
  induction f generalizing ctl with
  | empty => exact List.Sublist.refl _
  | node d children rsib ihc ihr =>
    obtain ⟨⟨g, children', ctl'⟩, hi⟩ : ∃ r, wakeInner alive d children ctl = r := ⟨_, rfl⟩
    have hc := wakeInner_sublist (ihc ctl) hi
    by_cases hw : WakesHere d g
    · rw [treeWake_woken hi hw]
      simp only [ShrForest.idxs, mlkWakePending_idx]
      exact (hc.append (ihr _)).cons_cons _
    · cases hu : d.isUnused children' with
      | true =>
        rw [treeWake_deleted hi hw hu]
        exact (ihr _).trans ((List.sublist_append_right _ _).cons _)
      | false =>
        rw [treeWake_kept hi hw hu]
        exact (hc.append (ihr _)).cons_cons _

/-! ## The walk on the blocks -/

section Walk

variable {h : ShrHeap σ} {par : Nat} {ks : List Nat} {d : MlkShrblk σ} {children rsib f : ShrForest σ}

section
variable (ha : At h par ks (.node d children rsib))
include ha

/-- The node after another one, which is the first of the ring after the last. -/
theorem rsib_eq : (h.blk d.idx).rsib = rsib.ringIdxs.headD ((ks ++ [d.idx]).headD 0) := by
  have hnext := Ring.next_eq ha.ring
  cases hs : rsib.ringIdxs with
  | nil => cases ks <;> simpa [ShrForest.ringIdxs, hs] using hnext
  | cons y s => simpa [ShrForest.ringIdxs, hs] using hnext

/-- The pointer to the children of a node is null when it has none. -/
theorem children_eq_zero : (h.blk d.idx).children = 0 ↔ children.isEmpty = true := by
  have hc : (h.blk d.idx).children = children.ringIdxs.headD 0 := ha.nodes.1.2.2.1
  rw [hc, ← ShrForest.ringIdxs_eq_nil]
  cases hr : children.ringIdxs with
  | nil => simp
  | cons y s =>
    have h0 : y ≠ 0 := by
      rintro rfl
      have hm : 0 ∈ children.idxs := children.ringIdxs_sublist.subset (by simp [hr])
      exact ha.zero (by simp [ShrForest.idxs, hm])
    simpa using h0

theorem deleteIfEmpty_eq :
    h.mlkShrblkDeleteIfEmpty d.idx =
      if d.isUnused children = true then ((h.unlink d.idx).free d.idx, true, [.delete d 0]) else (h, false, []) := by
  have hc := children_eq_zero ha
  have hd : (h.blk d.idx).node = d := ha.nodes.1.1
  rw [ShrHeap.mlkShrblkDeleteIfEmpty, hd]
  by_cases hu : d.isUnused children = true
  · obtain ⟨rfl, ho, hp⟩ := isUnused_iff.mp hu
    have hc0 : (h.blk d.idx).children = 0 := hc.mpr rfl
    rw [if_pos hu, if_neg (by simp [hc0, ho, hp]), hc0]
  · rw [if_neg hu, if_pos]
    by_contra hn
    simp only [not_or, not_not] at hn
    rw [isUnused_iff] at hu
    refine hu ⟨?_, hn.2.1, hn.2.2⟩
    have he := hc.mp hn.1
    cases children with
    | empty => rfl
    | node _ _ _ => nomatch he

end

/-- The tree that the blocks hold after a walk, its counters and what the walk leaves as it is. -/
structure RingWalked (h h' : ShrHeap σ) (par : Nat) (ks own : List Nat) (f' : ShrForest σ) (ctl' : MlkCtl) : Prop where
  at_ : At h' par ks f'
  frame : Frame h h' par ks own
  ctl : h'.ctl = ctl'

theorem RingWalked.kept {h' : ShrHeap σ} {rsib' : ShrForest σ} {ctl' : MlkCtl} (ha : At h par ks (.node d children rsib))
    (hw : RingWalked h h' par (ks ++ [d.idx]) rsib.idxs rsib' ctl') (hsub : rsib'.idxs.Sublist rsib.idxs) :
    RingWalked h h' par ks (ShrForest.node d children rsib).idxs (.node d children rsib') ctl' := by
  refine ⟨ha.unskip hw.frame hw.at_ hsub, hw.frame.mono (fun x hx => ?_) (fun x hx => ?_) (.inl rfl), hw.ctl⟩
  · simp [ShrForest.idxs, hx]
  · rcases List.mem_append.mp hx with hx | hx
    · exact .inl hx
    · exact .inr (by simp [ShrForest.idxs, List.mem_singleton.mp hx])

theorem RingWalked.below {h' : ShrHeap σ} {children' : ShrForest σ} {ctl' : MlkCtl} (ha : At h par ks (.node d children rsib))
    (hw : RingWalked h h' d.idx [] children.idxs children' ctl') (hsub : children'.idxs.Sublist children.idxs) :
    RingWalked h h' par ks (ShrForest.node d children rsib).idxs (.node d children' rsib) ctl' := by
  have hd0 : d.idx ≠ 0 := by
    rintro heq
    exact ha.zero (by simp [ShrForest.idxs, heq])
  refine ⟨ha.above hw.frame hw.at_ hsub, hw.frame.mono (fun x hx => ?_) (fun x hx => by cases hx) (.inr ⟨?_, hd0⟩), hw.ctl⟩
  · simp [ShrForest.idxs, hx]
  · simp [ShrForest.idxs]

/-- A walk after another step. -/
theorem RingWalked.after {h' h'' : ShrHeap σ} {own own' : List Nat} {f' : ShrForest σ} {ctl' : MlkCtl} (hf : Frame h h' par ks own)
    (hw : RingWalked h' h'' par ks own' f' ctl') (hown : own' ⊆ own) : RingWalked h h'' par ks own f' ctl' :=
  ⟨hw.at_, hf.trans (hw.frame.mono hown (fun _ hx => .inl hx) (.inl rfl)), hw.ctl⟩

section Turn

variable {h₁ h₂ : ShrHeap σ} {k bhead b bnext lcnt : Nat} {gotone g st : Bool} {sub deleted : List (WakeEvent σ)}

section
variable (hgo : bnext ≠ bhead ∧ h.maxLoopTries > lcnt) (hrun : (if (h.blk b).children ≠ 0 ∧ (h.blk b).node.owner = 0 then h.mlkTreeWakeChildren alive k (h.blk b).children else some (h, false, [])) = some (h₁, g, sub))
include hgo hrun

theorem treeWakeLoop_woken (hc : g = false ∧ (h₁.blk b).node.pending ≠ [] ∧ (h₁.blk b).node.owner = 0) :
    ShrHeap.treeWakeLoop alive (k + 1) h bhead b bnext lcnt gotone =
      (ShrHeap.treeWakeLoop alive k (h₁.mlkWakePending alive b).1 bhead (h₁.blk b).rsib (h₁.blk b).rsib (lcnt + 1) true).bind fun r =>
        some (r.1, r.2.1, .visit b :: sub ++ (h₁.mlkWakePending alive b).2 :: r.2.2) := by
  rw [ShrHeap.treeWakeLoop, if_pos hgo]
  simp only [ShrHeap.mlkTreeWakeChildren] at hrun
  simp only [hrun, Option.bind_eq_bind, Option.bind_some, if_pos hc]

section
variable (hc : ¬(g = false ∧ (h₁.blk b).node.pending ≠ [] ∧ (h₁.blk b).node.owner = 0))
include hc

/-- The first node of the ring is deleted. -/
theorem treeWakeLoop_restart (hdel : h₁.mlkShrblkDeleteIfEmpty b = (h₂, true, deleted)) (hb : b = bhead) :
    ShrHeap.treeWakeLoop alive (k + 1) h bhead b bnext lcnt gotone =
      (ShrHeap.treeWakeLoop alive k h₂ (if b = (h₁.blk b).rsib then 0 else (h₁.blk b).rsib)
        (if b = (h₁.blk b).rsib then 0 else (h₁.blk b).rsib) 0 (lcnt + 1) (gotone || g)).bind fun r =>
        some (r.1, r.2.1, .visit b :: sub ++ deleted ++ r.2.2) := by
  rw [ShrHeap.treeWakeLoop, if_pos hgo]
  simp only [ShrHeap.mlkTreeWakeChildren] at hrun
  simp only [hrun, Option.bind_eq_bind, Option.bind_some, if_neg hc, hdel, true_and, if_pos hb]

theorem treeWakeLoop_onward (hdel : h₁.mlkShrblkDeleteIfEmpty b = (h₂, st, deleted)) (hb : ¬(st = true ∧ b = bhead)) :
    ShrHeap.treeWakeLoop alive (k + 1) h bhead b bnext lcnt gotone =
      (ShrHeap.treeWakeLoop alive k h₂ bhead (h₁.blk b).rsib (h₁.blk b).rsib (lcnt + 1) (gotone || g)).bind fun r =>
        some (r.1, r.2.1, .visit b :: sub ++ deleted ++ r.2.2) := by
  rw [ShrHeap.treeWakeLoop, if_pos hgo]
  simp only [ShrHeap.mlkTreeWakeChildren] at hrun
  simp only [hrun, Option.bind_eq_bind, Option.bind_some, if_neg hc, hdel, if_neg hb]

end

end

end Turn

/-- The loop does on the rest of a ring what it does on the tree. -/
def WalksRing (alive : Nat → Bool) (f : ShrForest σ) : Prop :=
  ∀ {h : ShrHeap σ} {par : Nat} {ks : List Nat} (bhead b bnext lcnt : Nat) (gotone : Bool),
    At h par ks f → bhead = (ks ++ f.ringIdxs).headD 0 → b = f.ringIdxs.headD bhead →
    bnext = (if f.isEmpty then bhead else if ks = [] then 0 else b) → lcnt + f.idxs.length ≤ h.maxLoopTries →
    ∃ h', (∀ k, f.idxs.length < k → ShrHeap.treeWakeLoop alive k h bhead b bnext lcnt gotone =
        some (h', gotone || (mlkTreeWakeChildren alive f h.ctl).1, wakeLog alive f h.ctl)) ∧
      RingWalked h h' par ks f.idxs (mlkTreeWakeChildren alive f h.ctl).2.1 (mlkTreeWakeChildren alive f h.ctl).2.2

/-- The loop from the first node of a ring on. -/
theorem WalksRing.start (hi : WalksRing alive f) (ha : At h par [] f) (hmax : f.idxs.length ≤ h.maxLoopTries) :
    ∃ h', (∀ k, f.idxs.length < k → h.mlkTreeWakeChildren alive k (f.ringIdxs.headD 0) =
        some (h', (mlkTreeWakeChildren alive f h.ctl).1, wakeLog alive f h.ctl)) ∧
      RingWalked h h' par [] f.idxs (mlkTreeWakeChildren alive f h.ctl).2.1 (mlkTreeWakeChildren alive f h.ctl).2.2 := by
  have hhd : f.ringIdxs.headD (f.ringIdxs.headD 0) = f.ringIdxs.headD 0 := by cases f <;> rfl
  have hbnext : 0 = if f.isEmpty then f.ringIdxs.headD 0 else if ([] : List Nat) = [] then 0 else f.ringIdxs.headD 0 := by
    cases f <;> simp [ShrForest.ringIdxs, ShrForest.isEmpty]
  obtain ⟨h', hrun, hw⟩ := hi (f.ringIdxs.headD 0) (f.ringIdxs.headD 0) 0 0 false ha rfl hhd.symm hbnext (by omega)
  exact ⟨h', fun k hk => by rw [ShrHeap.mlkTreeWakeChildren, hrun k hk, Bool.false_or], hw⟩

/-- The call for the children of a node. -/
theorem WalksRing.inner (hi : WalksRing alive children) (ha : At h par ks (.node d children rsib))
    (hmax : children.idxs.length ≤ h.maxLoopTries) :
    ∃ h', (∀ k, children.idxs.length < k → (if (h.blk d.idx).children ≠ 0 ∧ (h.blk d.idx).node.owner = 0 then
        h.mlkTreeWakeChildren alive k (h.blk d.idx).children else some (h, false, [])) =
        some (h', (wakeInner alive d children h.ctl).1, if d.owner = 0 then wakeLog alive children h.ctl else [])) ∧
      RingWalked h h' par ks (ShrForest.node d children rsib).idxs (.node d (wakeInner alive d children h.ctl).2.1 rsib)
        (wakeInner alive d children h.ctl).2.2 := by
  have hd : (h.blk d.idx).node = d := ha.nodes.1.1
  have hc : (h.blk d.idx).children = children.ringIdxs.headD 0 := ha.nodes.1.2.2.1
  rw [hd]
  by_cases ho : d.owner = 0
  · simp only [ho, and_true, if_true, wakeInner]
    cases hch : children with
    | empty =>
      rw [hch] at ha
      exact ⟨h, fun k _ => if_neg (not_not.mpr ((children_eq_zero ha).mpr rfl)), ha, Frame.refl _ _ _ _, rfl⟩
    | node d' c' r' =>
      have hne : (h.blk d.idx).children ≠ 0 := fun heq => by simpa [hch, ShrForest.isEmpty] using (children_eq_zero ha).mp heq
      rw [← hch]
      obtain ⟨h', hrun, hw⟩ := hi.start ha.below hmax
      exact ⟨h', fun k hk => by rw [if_pos hne, hc, hrun k hk], hw.below ha (treeWake_idxs alive children h.ctl)⟩
  · simp only [ho, and_false, if_false, wakeInner]
    exact ⟨h, fun _ _ => rfl, ha, Frame.refl _ _ _ _, rfl⟩

/-- Going around the rest of a ring. -/
theorem walksRing (alive : Nat → Bool) (f : ShrForest σ) : WalksRing alive f := by
  induction f with
  | empty =>
    intro h par ks bhead _ bnext _ gotone ha _ _ hbnext _
    have hstop : bnext = bhead := hbnext
    refine ⟨h, fun k hk => ?_, ha, Frame.refl _ _ _ _, rfl⟩
    obtain ⟨k, rfl⟩ := Nat.exists_eq_succ_of_ne_zero (Nat.ne_zero_of_lt hk)
    rw [ShrHeap.treeWakeLoop, if_neg (by simp [hstop])]
    simp [mlkTreeWakeChildren, wakeLog]
  | node d children rsib ihc ihr =>
    intro h par ks bhead b bnext lcnt gotone ha hbhead hb hbnext hmax
    obtain rfl : b = d.idx := hb
    have hlen : (ShrForest.node d children rsib).idxs.length = children.idxs.length + rsib.idxs.length + 1 := by
      simp [ShrForest.idxs]
    have hd0 : d.idx ≠ 0 := by
      rintro heq
      exact ha.zero (by simp [ShrForest.idxs, heq])
    have hfirst : (ks ++ [d.idx]).headD 0 = bhead := by
      rw [hbhead]
      cases ks <;> rfl
    have hdhead : d.idx = bhead ↔ ks = [] := by
      rw [← hfirst]
      cases ks with
      | nil => simp
      | cons x ks =>
        have hx : d.idx ≠ x := fun heq => (List.nodup_append.mp ha.nodup).2.2 x (by simp) x (by simp [ShrForest.idxs, heq]) rfl
        simpa using hx
    have hgo : bnext ≠ bhead ∧ h.maxLoopTries > lcnt := by
      refine ⟨?_, by omega⟩
      by_cases hks : ks = []
      · have h0 : bnext = 0 := by simpa [ShrForest.isEmpty, hks] using hbnext
        rw [h0, ← hdhead.mpr hks]
        exact hd0.symm
      · have hbd : bnext = d.idx := by simpa [ShrForest.isEmpty, hks] using hbnext
        rw [hbd]
        exact fun heq => hks (hdhead.mp heq)
    obtain ⟨h₁, hrun, hw₁⟩ := WalksRing.inner ihc ha (by omega)
    obtain ⟨⟨g, children', ctl'⟩, hi⟩ : ∃ r, wakeInner alive d children h.ctl = r := ⟨_, rfl⟩
    have hsub : ∀ own : List Nat, (d.idx :: (children'.idxs ++ own)) ⊆ d.idx :: (children.idxs ++ own) := fun own =>
      List.cons_subset_cons _ (((wakeInner_sublist (treeWake_idxs alive children h.ctl) hi).append_right own).subset)
    rw [hi] at hrun hw₁
    obtain ⟨ha₁, hf₁, rfl⟩ := hw₁
    have hmax₁ : lcnt + 1 + rsib.idxs.length ≤ h₁.maxLoopTries := by
      have hs : h₁.maxLoopTries = h.maxLoopTries := by rw [ShrHeap.maxLoopTries, ShrHeap.maxLoopTries, hf₁.size]
      omega
    have hnode : (h₁.blk d.idx).node = d := ha₁.nodes.1.1
    have hrs : (h₁.blk d.idx).rsib = rsib.ringIdxs.headD bhead := by rw [rsib_eq ha₁, hfirst]
    have hbn : ∀ {ks : List Nat}, ks ≠ [] → (h₁.blk d.idx).rsib = if rsib.isEmpty then bhead else if ks = [] then 0 else (h₁.blk d.idx).rsib := by
      intro ks hks
      rw [hrs, if_neg hks]
      cases rsib <;> rfl
    by_cases hw : WakesHere d g
    · -- a process is woken at the node
      have hc : g = false ∧ (h₁.blk d.idx).node.pending ≠ [] ∧ (h₁.blk d.idx).node.owner = 0 := by rwa [hnode]
      have haw := ha₁.setNode (mlkWakePending_idx alive d h₁.ctl) (mlkWakePending alive d h₁.ctl).2
      have hfw : Frame h₁ (setNode h₁ (mlkWakePending alive d h₁.ctl).1 (mlkWakePending alive d h₁.ctl).2) par ks
          (ShrForest.node d children rsib).idxs :=
        frame_setNode _ _ (by simp [mlkWakePending_idx, ShrForest.idxs])
      have hskip := haw.skip
      rw [mlkWakePending_idx] at hskip
      obtain ⟨h', hrun', hw'⟩ := ihr _ _ _ _ true hskip (by rw [hbhead, List.append_assoc]; rfl) hrs (hbn (by simp)) hmax₁
      rw [← mlkWakePending_idx alive d h₁.ctl] at hw'
      rw [treeWake_woken hi hw, wakeLog_woken hi hw]
      refine ⟨h', fun k hk => ?_, (RingWalked.kept haw hw' (treeWake_idxs alive _ _)).after (hf₁.trans hfw) ?_⟩
      · obtain ⟨k, rfl⟩ := Nat.exists_eq_succ_of_ne_zero (Nat.ne_zero_of_lt hk)
        rw [treeWakeLoop_woken hgo (hrun k (by omega)) hc, mlkWakePending_eq alive ha₁, hrun' k (by omega)]
        simp
      · simpa only [ShrForest.idxs, mlkWakePending_idx] using hsub rsib.idxs
    · have hc : ¬(g = false ∧ (h₁.blk d.idx).node.pending ≠ [] ∧ (h₁.blk d.idx).node.owner = 0) := by rwa [hnode]
      have hdel := deleteIfEmpty_eq ha₁
      cases hu : d.isUnused children' with
      | true =>
        -- the node is deleted; the ring starts anew when it was its first
        obtain ⟨rfl, -, -⟩ := isUnused_iff.mp hu
        rw [if_pos hu] at hdel
        obtain ⟨had, hfd, hctl⟩ := ha₁.delete
        have hmax₂ : lcnt + 1 + rsib.idxs.length ≤ ((h₁.unlink d.idx).free d.idx).maxLoopTries := by
          rwa [ShrHeap.maxLoopTries, hfd.size]
        rw [treeWake_deleted hi hw hu, wakeLog_deleted hi hw hu, ← hctl]
        have hown : rsib.idxs ⊆ (ShrForest.node d children rsib).idxs := ((List.sublist_append_right _ _).cons _).subset
        have hall := hf₁.trans (hfd.mono (hsub rsib.idxs) (fun _ hx => .inl hx) (.inl rfl))
        by_cases hks : ks = []
        · obtain rfl := hks
          have hb' : (if d.idx = (h₁.blk d.idx).rsib then 0 else (h₁.blk d.idx).rsib) = rsib.ringIdxs.headD 0 := by
            rw [hrs, ← hdhead.mpr rfl]
            cases hr : rsib.ringIdxs with
            | nil => simp
            | cons y s =>
              have hy : d.idx ≠ y := by
                rintro heq
                have hm : d.idx ∈ rsib.idxs := rsib.ringIdxs_sublist.subset (by simp [hr, heq])
                exact (List.nodup_cons.mp ha.nodup).1 (by simp [hm])
              simp [hy]
          obtain ⟨h', hrun', hw'⟩ := ihr (rsib.ringIdxs.headD 0) (rsib.ringIdxs.headD 0) 0 _ (gotone || g) had rfl
            (by cases rsib <;> rfl) (by cases rsib <;> rfl) hmax₂
          refine ⟨h', fun k hk => ?_, hw'.after hall hown⟩
          obtain ⟨k, rfl⟩ := Nat.exists_eq_succ_of_ne_zero (Nat.ne_zero_of_lt hk)
          rw [treeWakeLoop_restart hgo (hrun k (by omega)) hc hdel (hdhead.mpr rfl), hb', hrun' k (by omega)]
          simp [Bool.or_assoc, Bool.or_comm g]
        · have hne : ¬(true = true ∧ d.idx = bhead) := fun heq => hks (hdhead.mp heq.2)
          have hbhead' : bhead = (ks ++ rsib.ringIdxs).headD 0 := by
            rw [hbhead]
            cases ks with
            | nil => exact absurd rfl hks
            | cons x ks => rfl
          obtain ⟨h', hrun', hw'⟩ := ihr _ _ _ _ (gotone || g) had hbhead' hrs (hbn hks) hmax₂
          refine ⟨h', fun k hk => ?_, hw'.after hall hown⟩
          obtain ⟨k, rfl⟩ := Nat.exists_eq_succ_of_ne_zero (Nat.ne_zero_of_lt hk)
          rw [treeWakeLoop_onward hgo (hrun k (by omega)) hc hdel hne, hrun' k (by omega)]
          simp [Bool.or_assoc, Bool.or_comm g]
      | false =>
        rw [if_neg (by simp [hu])] at hdel
        obtain ⟨h', hrun', hw'⟩ := ihr _ _ _ _ (gotone || g) ha₁.skip (by rw [hbhead, List.append_assoc]; rfl) hrs (hbn (by simp)) hmax₁
        rw [treeWake_kept hi hw hu, wakeLog_kept hi hw hu]
        refine ⟨h', fun k hk => ?_, (RingWalked.kept ha₁ hw' (treeWake_idxs alive _ _)).after hf₁ (hsub rsib.idxs)⟩
        obtain ⟨k, rfl⟩ := Nat.exists_eq_succ_of_ne_zero (Nat.ne_zero_of_lt hk)
        rw [treeWakeLoop_onward hgo (hrun k (by omega)) hc hdel (by simp), hrun' k (by omega)]
        simp [Bool.or_assoc, Bool.or_comm g]

end Walk

end Gtm
