import Gtm.Lemmas.LockWake

/-!
# Unlocking on the blocks

`mlk_unlock` gets to its block by the pointer that the process kept, and from there up by the parents; on the tree the block is looked
for from above. Both do the same.
-/

namespace Gtm

open PtrRing LockRing

variable {σ : Type} {alive : Nat → Bool}

/-- What is told of one turn of the loop of `mlk_unlock`. -/
def turnLog (alive : Nat → Bool) (stopWaking : Bool) (d : MlkShrblk σ) (children : ShrForest σ) (ctl : MlkCtl) : List (WakeEvent σ) :=
  if WakesHere d stopWaking then
    [.visit d.idx, .wake d.idx ((mlkWakePending alive d ctl).1.pending.head?.map MlkPrcblk.processId)]
  else if d.isUnused children then [.visit d.idx, .delete d 0] else [.visit d.idx]

/-- What is told of `mlk_unlock`. -/
def unlockLog (alive : Nat → Bool) (processId nodptr : Nat) (sequence : UInt32) : ShrForest σ → MlkCtl → List (WakeEvent σ)
  | .empty, _ => []
  | .node d children rsib, ctl =>
    if d.idx = nodptr then
      let d := { d with owner := 0, sequence := ctl.lockSequence }
      let (stopWaking, children', ctl') := mlkTreeWakeChildren alive children ctl.nextSequence
      wakeLog alive children ctl.nextSequence ++ turnLog alive stopWaking d children' ctl'
    else match mlkUnlock alive processId nodptr sequence children ctl with
      | some (stopWaking, children', ctl') =>
        unlockLog alive processId nodptr sequence children ctl ++ turnLog alive stopWaking d children' ctl'
      | none => unlockLog alive processId nodptr sequence rsib ctl

/-- The block given up. -/
def giveUp (h : ShrHeap σ) (d : Nat) : ShrHeap σ :=
  { h.modify d fun b => { b with node := { b.node with owner := 0, sequence := h.ctl.lockSequence } } with
    ctl := h.ctl.nextSequence }

/-- The block given up and the children of its node woken, before `mlk_unlock` goes up. -/
def unlockStart (alive : Nat → Bool) (k : Nat) (h : ShrHeap σ) (d : Nat) : Option (ShrHeap σ × Bool × List (WakeEvent σ)) :=
  if ((giveUp h d).blk d).children ≠ 0 ∧ ((giveUp h d).blk d).node.owner = 0 then
    (giveUp h d).mlkTreeWakeChildren alive k ((giveUp h d).blk d).children
  else some (giveUp h d, false, [])

section Unlock

variable {h h' : ShrHeap σ} {par nodptr processId : Nat} {sequence : UInt32} {ks : List Nat} {d : MlkShrblk σ}
  {children children' rsib f f' : ShrForest σ} {ctl ctl' : MlkCtl} {stop : Bool}

theorem heapUnlock_eq {k : Nat} (hown : (h.blk nodptr).node.owner = processId ∧ sequence = (h.blk nodptr).node.sequence) :
    h.mlkUnlock alive k processId nodptr sequence = (unlockStart alive k h nodptr).bind fun r =>
        (ShrHeap.unlockLoop alive k r.1 nodptr r.2.1).bind fun r' => some (r'.1, r.2.2 ++ r'.2) := by
  rw [ShrHeap.mlkUnlock, if_pos hown]
  rfl

/-! ## The tree -/

theorem unlockTurn_idxs (d : MlkShrblk σ) (children rsib : ShrForest σ) (ctl : MlkCtl) :
    (unlockTurn alive stop d children rsib ctl).2.1.idxs.Sublist (ShrForest.node d children rsib).idxs := by
  unfold unlockTurn
  split
  · simp only [ShrForest.idxs, mlkWakePending_idx]
    exact List.Sublist.refl _
  · unfold mlkShrblkDeleteIfEmpty
    split
    · exact (List.sublist_append_right _ _).cons _
    · exact List.Sublist.refl _

/-- Unlocking takes nodes away only. -/
theorem unlock_idxs (hu : mlkUnlock alive processId nodptr sequence f ctl = some (stop, f', ctl')) : f'.idxs.Sublist f.idxs := by
  induction f generalizing f' ctl ctl' stop with
  | empty => nomatch hu
  | node d children rsib ihc ihr =>
    rw [mlkUnlock] at hu
    split at hu
    · split at hu
      · obtain ⟨-, rfl, -⟩ : _ ∧ _ ∧ _ := by simpa [Prod.ext_iff] using hu
        refine (unlockTurn_idxs _ _ _ _).trans ?_
        exact ((treeWake_idxs alive children ctl.nextSequence).append_right _).cons_cons _
      · nomatch hu
    · split at hu
      · rename_i stop' c' ctl'' hc
        obtain ⟨-, rfl, -⟩ : _ ∧ _ ∧ _ := by simpa [Prod.ext_iff] using hu
        exact (unlockTurn_idxs _ _ _ _).trans (((ihc hc).append_right _).cons_cons _)
      · obtain ⟨⟨stop', r', ctl''⟩, hr, heq⟩ := Option.map_eq_some_iff.mp hu
        obtain ⟨-, rfl, -⟩ : _ ∧ _ ∧ _ := by simpa [Prod.ext_iff] using heq
        exact ((ihr hr).append_left _).cons_cons _

/-! ## The blocks -/

/-- One turn of the loop, at a node of a ring. -/
theorem unlockLoop_turn (alive : Nat → Bool) (stop : Bool) (ha : At h par ks (.node d children rsib)) :
    ∃ h', (∀ k, ShrHeap.unlockLoop alive (k + 1) h d.idx stop =
        (ShrHeap.unlockLoop alive k h' par (unlockTurn alive stop d children rsib h.ctl).1).bind fun r =>
          some (r.1, turnLog alive stop d children h.ctl ++ r.2)) ∧
      RingWalked h h' par ks (ShrForest.node d children rsib).idxs (unlockTurn alive stop d children rsib h.ctl).2.1
        (unlockTurn alive stop d children rsib h.ctl).2.2 := by
  have hd0 : d.idx ≠ 0 := by
    rintro heq
    exact ha.zero (by simp [ShrForest.idxs, heq])
  have hnode : (h.blk d.idx).node = d := ha.nodes.1.1
  have hpar : (h.blk d.idx).parent = par := ha.nodes.1.2.1
  by_cases hw : WakesHere d stop
  · have hc : stop = false ∧ d.pending ≠ [] ∧ d.owner = 0 := hw
    have hturn : unlockTurn alive stop d children rsib h.ctl =
        (true, .node (mlkWakePending alive d h.ctl).1 children rsib, (mlkWakePending alive d h.ctl).2) := by
      rw [unlockTurn, if_pos (by simp [hc])]
    rw [hturn]
    refine ⟨setNode h (mlkWakePending alive d h.ctl).1 (mlkWakePending alive d h.ctl).2, fun k => ?_,
      ha.setNode (mlkWakePending_idx alive d h.ctl) _, frame_setNode _ _ (by simp [mlkWakePending_idx, ShrForest.idxs]), rfl⟩
    simp only [ShrHeap.unlockLoop, if_neg hd0, hnode, hpar, if_pos hc, mlkWakePending_eq alive ha, turnLog, if_pos hw]
    rfl
  · have hc : ¬(stop = false ∧ d.pending ≠ [] ∧ d.owner = 0) := hw
    have hturn : unlockTurn alive stop d children rsib h.ctl = (stop, mlkShrblkDeleteIfEmpty d children rsib h.ctl) := by
      rw [unlockTurn, if_neg (by simpa [and_assoc] using hc)]
    rw [hturn, mlkShrblkDeleteIfEmpty]
    by_cases hu : d.isUnused children = true
    · obtain ⟨rfl, -, -⟩ := isUnused_iff.mp hu
      obtain ⟨had, hfd, hctl⟩ := ha.delete
      rw [if_pos hu]
      refine ⟨(h.unlink d.idx).free d.idx, fun k => ?_, had, hfd, hctl⟩
      simp only [ShrHeap.unlockLoop, if_neg hd0, hnode, hpar, if_neg hc, deleteIfEmpty_eq ha, turnLog, if_neg hw, if_pos hu]
      rfl
    · rw [if_neg hu]
      refine ⟨h, fun k => ?_, ha, Frame.refl _ _ _ _, rfl⟩
      simp only [ShrHeap.unlockLoop, if_neg hd0, hnode, hpar, if_neg hc, deleteIfEmpty_eq ha, turnLog, if_neg hw, if_neg hu]
      rfl

/-- The run of `mlk_unlock` until its loop has gone through a tree, in a ring of the children of `par`. -/
def UnlocksTo (alive : Nat → Bool) (processId nodptr : Nat) (sequence : UInt32) (h : ShrHeap σ) (par : Nat) (ks : List Nat)
    (f : ShrForest σ) (stop : Bool) (f' : ShrForest σ) (ctl' : MlkCtl) : Prop :=
  ∃ (h₀ h' : ShrHeap σ) (stop₀ : Bool) (sub up : List (WakeEvent σ)) (t : Nat),
    ((h.blk nodptr).node.owner = processId ∧ sequence = (h.blk nodptr).node.sequence) ∧
    (∀ k, f.idxs.length ≤ k → unlockStart alive k h nodptr = some (h₀, stop₀, sub)) ∧
    (∀ k, ShrHeap.unlockLoop alive (k + t) h₀ nodptr stop₀ =
      (ShrHeap.unlockLoop alive k h' par stop).bind fun r => some (r.1, up ++ r.2)) ∧
    t ≤ f.idxs.length ∧ sub ++ up = unlockLog alive processId nodptr sequence f h.ctl ∧ RingWalked h h' par ks f.idxs f' ctl'

theorem UnlocksTo.own (hu : UnlocksTo alive processId nodptr sequence h par ks f stop f' ctl') :
    (h.blk nodptr).node.owner = processId ∧ sequence = (h.blk nodptr).node.sequence := by
  obtain ⟨-, -, -, -, -, -, hown, -⟩ := hu
  exact hown

/-- The block itself. -/
theorem unlocksTo_here (ha : At h par ks (.node d children rsib)) (hmax : children.idxs.length ≤ h.maxLoopTries)
    (hu : mlkUnlock alive processId d.idx sequence (.node d children rsib) h.ctl = some (stop, f', ctl')) :
    UnlocksTo alive processId d.idx sequence h par ks (.node d children rsib) stop f' ctl' := by
  have hnode : (h.blk d.idx).node = d := ha.nodes.1.1
  rw [mlkUnlock, if_pos rfl] at hu
  by_cases hown : d.owner = processId ∧ sequence = d.sequence
  · rw [if_pos hown] at hu
    -- the node without its owner
    obtain ⟨d₀, hd₀⟩ : ∃ d₀ : MlkShrblk σ, d₀ = { d with owner := 0, sequence := h.ctl.lockSequence } := ⟨_, rfl⟩
    have hidx : d₀.idx = d.idx := by rw [hd₀]
    have ha₀ := ha.setNode hidx h.ctl.nextSequence
    have hf₀ : Frame h (setNode h d₀ h.ctl.nextSequence) par ks (ShrForest.node d children rsib).idxs :=
      frame_setNode _ _ (by simp [hidx, ShrForest.idxs])
    have hmax₀ : children.idxs.length ≤ (setNode h d₀ h.ctl.nextSequence).maxLoopTries := hmax
    obtain ⟨h₀, hrun, hw⟩ := WalksRing.inner (walksRing alive children) ha₀ hmax₀
    have hinner : wakeInner alive d₀ children (setNode h d₀ h.ctl.nextSequence).ctl =
        mlkTreeWakeChildren alive children h.ctl.nextSequence := by rw [wakeInner, hd₀, if_pos rfl]; rfl
    rw [hinner] at hrun hw
    obtain ⟨⟨stop', children', ctl''⟩, hwake⟩ : ∃ r, mlkTreeWakeChildren alive children h.ctl.nextSequence = r := ⟨_, rfl⟩
    have hc' : children'.idxs.Sublist children.idxs := by
      have hsub := treeWake_idxs alive children h.ctl.nextSequence
      rwa [hwake] at hsub
    rw [hwake] at hrun hw
    rw [hwake, ← hd₀] at hu
    obtain ⟨ha₁, hf₁, rfl⟩ := hw
    obtain ⟨h', hturn, hw'⟩ := unlockLoop_turn alive stop' ha₁
    obtain ⟨rfl, rfl, rfl⟩ : _ ∧ _ ∧ _ := by simpa [Prod.ext_iff] using hu
    have hlen : (ShrForest.node d children rsib).idxs.length = children.idxs.length + rsib.idxs.length + 1 := by
      simp [ShrForest.idxs]
    refine ⟨h₀, h', stop', wakeLog alive children h.ctl.nextSequence, turnLog alive stop' d₀ children' h₀.ctl, 1, by rwa [hnode],
      fun k hk => ?_, fun k => ?_, by omega, ?_, ?_⟩
    · have hgive : giveUp h d.idx = setNode h d₀ h.ctl.nextSequence := by
        rw [giveUp, setNode, hd₀]
        simp only [ShrHeap.modify, hnode]
      rw [unlockStart, hgive, ← hidx, hrun k (by omega), hd₀]
      rfl
    · rw [← hidx]
      exact hturn k
    · rw [unlockLog, if_pos rfl, ← hd₀, hwake]
    · have hown' : (ShrForest.node d₀ children' rsib).idxs ⊆ (ShrForest.node d children rsib).idxs := by
        simp only [ShrForest.idxs, hidx]
        exact ((hc'.append_right rsib.idxs).cons_cons _).subset
      have hmono : Frame (setNode h d₀ h.ctl.nextSequence) h₀ par ks (ShrForest.node d children rsib).idxs := by
        simpa only [ShrForest.idxs, hidx] using hf₁
      exact hw'.after (hf₀.trans hmono) hown'
  · rw [if_neg hown] at hu
    cases hu

/-- `mlk_unlock` of a block of a tree. -/
theorem unlocksTo (ha : At h par ks f) (hmax : f.idxs.length ≤ h.maxLoopTries)
    (hu : mlkUnlock alive processId nodptr sequence f h.ctl = some (stop, f', ctl')) :
    UnlocksTo alive processId nodptr sequence h par ks f stop f' ctl' := by
  induction f generalizing par ks stop f' ctl' with
  | empty => nomatch hu
  | node d children rsib ihc ihr =>
    have hlen : (ShrForest.node d children rsib).idxs.length = children.idxs.length + rsib.idxs.length + 1 := by
      simp [ShrForest.idxs]
    by_cases hd : d.idx = nodptr
    · subst nodptr
      exact unlocksTo_here ha (by omega) hu
    · have hu' := hu
      rw [mlkUnlock, if_neg hd] at hu'
      cases hc : mlkUnlock alive processId nodptr sequence children h.ctl with
      | some r =>
        obtain ⟨stop', children', ctl''⟩ := r
        obtain ⟨h₀, h₁, stop₀, sub, up, t, hown, hstart, hloop, ht, hlog, hw⟩ := ihc ha.below (by omega) hc
        obtain ⟨ha₁, hf₁, rfl⟩ := hw.below ha (unlock_idxs hc)
        obtain ⟨h', hturn, hw'⟩ := unlockLoop_turn alive stop' ha₁
        rw [hc] at hu'
        obtain ⟨rfl, rfl, rfl⟩ : _ ∧ _ ∧ _ := by simpa [Prod.ext_iff] using hu'
        refine ⟨h₀, h', stop₀, sub, up ++ turnLog alive stop' d children' h₁.ctl, t + 1, hown, fun k hk => hstart k (by omega), fun k => ?_,
          by omega, ?_, hw'.after hf₁ ?_⟩
        · rw [show k + (t + 1) = k + 1 + t by omega, hloop, hturn]
          cases ShrHeap.unlockLoop alive k h' par (unlockTurn alive stop' d children' rsib h₁.ctl).1 <;> simp
        · rw [unlockLog, if_neg hd, hc, ← List.append_assoc, hlog]
        · exact ((((unlock_idxs hc).append_right _).cons_cons _)).subset
      | none =>
        rw [hc] at hu'
        obtain ⟨⟨stop', rsib', ctl''⟩, hr, heq⟩ := Option.map_eq_some_iff.mp hu'
        obtain ⟨rfl, rfl, rfl⟩ : _ ∧ _ ∧ _ := by simpa [Prod.ext_iff] using heq
        obtain ⟨h₀, h', stop₀, sub, up, t, hown, hstart, hloop, ht, hlog, hw⟩ := ihr ha.skip (by omega) hr
        refine ⟨h₀, h', stop₀, sub, up, t, hown, fun k hk => hstart k (by omega), hloop, by omega, ?_, hw.kept ha (unlock_idxs hr)⟩
        rw [unlockLog, if_neg hd, hc, hlog]

/-- `mlk_unlock` of a block that is the process's. -/
theorem heapUnlock_run (ha : At h 0 [] f) (hmax : f.idxs.length ≤ h.maxLoopTries)
    (hu : mlkUnlock alive processId nodptr sequence f h.ctl = some (stop, f', ctl')) : ∃ h', (∀ k, f.idxs.length < k →
        h.mlkUnlock alive k processId nodptr sequence = some (h', unlockLog alive processId nodptr sequence f h.ctl)) ∧
      RingWalked h h' 0 [] f.idxs f' ctl' := by
  obtain ⟨h₀, h', stop₀, sub, up, t, hown, hstart, hloop, ht, hlog, hw⟩ := unlocksTo ha hmax hu
  refine ⟨h', fun k hk => ?_, hw⟩
  have hend : ShrHeap.unlockLoop alive (k - t) h' 0 stop = some (h', []) := by
    obtain ⟨k', hk'⟩ := Nat.exists_eq_succ_of_ne_zero (show k - t ≠ 0 by omega)
    rw [hk', ShrHeap.unlockLoop, if_pos rfl]
  have hrun : ShrHeap.unlockLoop alive k h₀ nodptr stop₀ = some (h', up ++ []) := by
    have hk' := hloop (k - t)
    rw [hend, show k - t + t = k by omega] at hk'
    exact hk'
  rw [heapUnlock_eq hown, hstart k (by omega), Option.bind_some, hrun, Option.bind_some, List.append_nil, hlog]

/-- A block that the tree does not let go is not the process's. -/
theorem unlock_none (hn : Nodes h par f) (hm : nodptr ∈ f.idxs) (hu : mlkUnlock alive processId nodptr sequence f ctl = none) :
    ¬((h.blk nodptr).node.owner = processId ∧ sequence = (h.blk nodptr).node.sequence) := by
  induction f generalizing par with
  | empty => nomatch hm
  | node d children rsib ihc ihr =>
    obtain ⟨⟨hd, -, -, -, hc⟩, hr⟩ := hn
    rw [mlkUnlock] at hu
    by_cases hidx : d.idx = nodptr
    · rw [if_pos hidx] at hu
      rw [hidx] at hd
      rw [hd]
      intro hown
      rw [if_pos hown] at hu
      nomatch hu
    · rw [if_neg hidx] at hu
      cases hcu : mlkUnlock alive processId nodptr sequence children ctl with
      | some r =>
        rw [hcu] at hu
        nomatch hu
      | none =>
        rw [hcu] at hu
        have hru := Option.map_eq_none_iff.mp hu
        rcases List.mem_cons.mp hm with heq | hm
        · exact absurd heq.symm hidx
        · rcases List.mem_append.mp hm with hm | hm
          · exact ihc hc hm hcu
          · exact ihr hr hm hru

end Unlock

end Gtm

/-!
## Whom a walk wakes

The queues that `mlk_tree_wake_children` and `mlk_unlock` look for a process to wake in, read off the tree before they start, and what
is told of them against these.
-/

namespace Gtm

variable {σ : Type} {alive : Nat → Bool}

/-! ## What is told -/

/-- The nodes visited. -/
def visits (log : List (WakeEvent σ)) : List Nat :=
  log.filterMap fun
    | .visit b => some b
    | _ => none

/-- The nodes at which a process was looked for, with the one that was woken. -/
def wakings (log : List (WakeEvent σ)) : List (Nat × Option Nat) :=
  log.filterMap fun
    | .wake d woken => some (d, woken)
    | _ => none

/-- Nothing is deleted but nodes without owner, children and waiting processes. -/
def DeletesUnused (log : List (WakeEvent σ)) : Prop :=
  ∀ node children, .delete node children ∈ log → node.owner = 0 ∧ children = 0 ∧ node.pending = []

@[simp] theorem visits_append (l l' : List (WakeEvent σ)) : visits (l ++ l') = visits l ++ visits l' := List.filterMap_append

@[simp] theorem wakings_append (l l' : List (WakeEvent σ)) : wakings (l ++ l') = wakings l ++ wakings l' := List.filterMap_append

@[simp] theorem visits_visit (b : Nat) (l : List (WakeEvent σ)) : visits (.visit b :: l) = b :: visits l := rfl

@[simp] theorem wakings_visit (b : Nat) (l : List (WakeEvent σ)) : wakings (.visit b :: l) = wakings l := rfl

theorem deletesUnused_append {l l' : List (WakeEvent σ)} : DeletesUnused (l ++ l') ↔ DeletesUnused l ∧ DeletesUnused l' := by
  constructor
  · exact fun h => ⟨fun d c hm => h d c (List.mem_append_left _ hm), fun d c hm => h d c (List.mem_append_right _ hm)⟩
  · rintro ⟨h, h'⟩ d c hm
    exact (List.mem_append.mp hm).elim (h d c) (h' d c)

/-! ## The queues -/

/-- The process is there. -/
def MlkPrcblk.isLive (alive : Nat → Bool) (pr : MlkPrcblk) : Bool := pr.processId != 0 && alive pr.processId

/-- The process that is woken of a queue. -/
def firstLive (alive : Nat → Bool) (pending : List MlkPrcblk) : Option Nat :=
  (pending.find? (MlkPrcblk.isLive alive)).map MlkPrcblk.processId

/-- The nodes that are waited for and have no owner, got at through nodes without owner, as far as there are no such nodes below
them. -/
def ShrForest.lowestQueues : ShrForest σ → List (MlkShrblk σ)
  | .empty => []
  | .node d children rsib =>
    (if d.owner = 0 then
      if children.lowestQueues.isEmpty = false then children.lowestQueues else if d.pending ≠ [] then [d] else []
    else []) ++ rsib.lowestQueues

/-- The queues below a node, or else its own. -/
def upQueues (below : List (MlkShrblk σ)) (d : MlkShrblk σ) : List (MlkShrblk σ) :=
  if below.isEmpty = false then below else if d.pending ≠ [] ∧ d.owner = 0 then [d] else []

/-- The same for a block that is given up: below it, or else the first node that is waited for on the way up. -/
def ShrForest.unlockQueues (nodptr : Nat) : ShrForest σ → List (MlkShrblk σ)
  | .empty => []
  | .node d children rsib =>
    if d.idx = nodptr then upQueues children.lowestQueues { d with owner := 0 }
    else if nodptr ∈ children.idxs then upQueues (children.unlockQueues nodptr) d
    else rsib.unlockQueues nodptr

theorem mlkWakePending_firstLive (d : MlkShrblk σ) (ctl : MlkCtl) :
    (mlkWakePending alive d ctl).1.pending.head?.map MlkPrcblk.processId = firstLive alive d.pending := by
  have hp : (mlkWakePending alive d ctl).1.pending = d.pending.dropWhile fun pr => pr.processId = 0 || !alive pr.processId := by
    unfold mlkWakePending
    split
    · rename_i h0
      rw [h0]
      rfl
    · rfl
  rw [hp, firstLive]
  induction d.pending with
  | nil => rfl
  | cons pr next ih =>
    rw [List.dropWhile_cons, List.find?_cons]
    by_cases hpr : pr.isLive alive = true
    · have hd : (decide (pr.processId = 0) || !alive pr.processId) = false := by simpa [MlkPrcblk.isLive] using hpr
      rw [hd, hpr]
      rfl
    · have hd : (decide (pr.processId = 0) || !alive pr.processId) = true := by
        have hf : pr.isLive alive = false := by simpa using hpr
        simp only [MlkPrcblk.isLive, Bool.and_eq_false_iff, bne_eq_false_iff_eq] at hf
        simpa using hf
      have hf : pr.isLive alive = false := by simpa using hpr
      rw [hd, hf]
      exact ih

/-- A process is woken of a queue that a live process is in. -/
theorem firstLive_isSome (pending : List MlkPrcblk) : (firstLive alive pending).isSome = true ↔ ∃ pr ∈ pending, pr.isLive alive = true := by
  rw [firstLive, Option.isSome_map, List.find?_isSome]

/-! ## `mlk_tree_wake_children` -/

section Wake

variable {d : MlkShrblk σ} {children children' rsib f : ShrForest σ} {ctl ctl' : MlkCtl} {g : Bool}

theorem lowestQueues_node (d : MlkShrblk σ) (children rsib : ShrForest σ) : (ShrForest.node d children rsib).lowestQueues =
      (if d.owner = 0 then children.lowestQueues else []) ++
        (if WakesHere d (decide (d.owner = 0) && !children.lowestQueues.isEmpty) then [d] else []) ++ rsib.lowestQueues := by
  rw [ShrForest.lowestQueues]
  congr 1
  by_cases ho : d.owner = 0
  · cases hc : children.lowestQueues with
    | nil => simp [ho, WakesHere]
    | cons q l => simp [ho, WakesHere]
  · simp [ho, WakesHere]

theorem treeWake_gotone (alive : Nat → Bool) (f : ShrForest σ) (ctl : MlkCtl) : (mlkTreeWakeChildren alive f ctl).1 = !f.lowestQueues.isEmpty := by
  induction f generalizing ctl with
  | empty => rfl
  | node d children rsib ihc ihr =>
    obtain ⟨⟨g, children', ctl'⟩, hi⟩ : ∃ r, wakeInner alive d children ctl = r := ⟨_, rfl⟩
    have hg : g = (decide (d.owner = 0) && !children.lowestQueues.isEmpty) := by
      have hg' : g = (wakeInner alive d children ctl).1 := by rw [hi]
      rw [hg', wakeInner]
      split
      · rename_i ho
        simp [ihc, ho]
      · rename_i ho
        simp [ho]
    rw [lowestQueues_node, ← hg]
    by_cases hw : WakesHere d g
    · simp [treeWake_woken hi hw, hw]
    · have hgot : (mlkTreeWakeChildren alive (.node d children rsib) ctl).1 = (!rsib.lowestQueues.isEmpty || g) := by
        cases hu : d.isUnused children' with
        | true => rw [treeWake_deleted hi hw hu, ihr]
        | false => rw [treeWake_kept hi hw hu, ihr]
      rw [hgot, if_neg hw, hg]
      split
      · rename_i ho
        cases children.lowestQueues <;> simp [ho, Bool.or_comm]
      · rename_i ho
        simp [ho]

theorem wakeInner_gotone (hi : wakeInner alive d children ctl = (g, children', ctl')) :
    g = (decide (d.owner = 0) && !children.lowestQueues.isEmpty) := by
  have hg' : g = (wakeInner alive d children ctl).1 := by rw [hi]
  rw [hg', wakeInner]
  split
  · rename_i ho
    simp [treeWake_gotone, ho]
  · rename_i ho
    simp [ho]

/-- What is told of a node after it is visited and its children are. -/
def ownLog (alive : Nat → Bool) (stop : Bool) (d : MlkShrblk σ) (children : ShrForest σ) (ctl : MlkCtl) : List (WakeEvent σ) :=
  (turnLog alive stop d children ctl).tail

theorem turnLog_eq (stop : Bool) : turnLog alive stop d children ctl = .visit d.idx :: ownLog alive stop d children ctl := by
  unfold ownLog turnLog
  split
  · rfl
  · split <;> rfl

theorem ownLog_spec (alive : Nat → Bool) (stop : Bool) (d : MlkShrblk σ) (children : ShrForest σ) (ctl : MlkCtl) :
    visits (ownLog alive stop d children ctl) = [] ∧ DeletesUnused (ownLog alive stop d children ctl) ∧
      wakings (ownLog alive stop d children ctl) = if WakesHere d stop then [(d.idx, firstLive alive d.pending)] else [] := by
  unfold ownLog turnLog
  split
  · refine ⟨rfl, fun _ _ hm => ?_, ?_⟩
    · simp at hm
    · rw [mlkWakePending_firstLive]
      rfl
  · split
    · rename_i hu
      refine ⟨rfl, fun node c hm => ?_, rfl⟩
      obtain ⟨rfl, rfl⟩ : node = d ∧ c = 0 := by simpa using hm
      exact ⟨(isUnused_iff.mp hu).2.1, rfl, (isUnused_iff.mp hu).2.2⟩
    · exact ⟨rfl, fun _ _ hm => by simp at hm, rfl⟩

theorem wakeLog_node (rsib : ShrForest σ) (hi : wakeInner alive d children ctl = (g, children', ctl')) :
    ∃ ctl'', wakeLog alive (.node d children rsib) ctl =
      .visit d.idx :: (if d.owner = 0 then wakeLog alive children ctl else []) ++ ownLog alive g d children' ctl' ++
        wakeLog alive rsib ctl'' := by
  unfold ownLog turnLog
  by_cases hw : WakesHere d g
  · rw [if_pos hw]
    exact ⟨_, by simpa using wakeLog_woken hi hw⟩
  · rw [if_neg hw]
    cases hu : d.isUnused children' with
    | true => exact ⟨_, by simpa using wakeLog_deleted hi hw hu⟩
    | false => exact ⟨_, by simpa using wakeLog_kept hi hw hu⟩

/-- What is told of a walk. -/
theorem wakeLog_spec (alive : Nat → Bool) (f : ShrForest σ) (ctl : MlkCtl) :
    (visits (wakeLog alive f ctl)).Sublist f.idxs ∧ DeletesUnused (wakeLog alive f ctl) ∧
      wakings (wakeLog alive f ctl) = f.lowestQueues.map fun d => (d.idx, firstLive alive d.pending) := by
  induction f generalizing ctl with
  | empty => exact ⟨List.Sublist.refl _, fun _ _ hm => by simp [wakeLog] at hm, rfl⟩
  | node d children rsib ihc ihr =>
    obtain ⟨⟨g, children', ctl'⟩, hi⟩ : ∃ r, wakeInner alive d children ctl = r := ⟨_, rfl⟩
    obtain ⟨ctl'', hlog⟩ := wakeLog_node rsib hi
    obtain ⟨hv, hd, hw⟩ := ownLog_spec alive g d children' ctl'
    obtain ⟨hvr, hdr, hwr⟩ := ihr ctl''
    -- what is told of the children, if they are visited
    have hsub : (visits (if d.owner = 0 then wakeLog alive children ctl else [])).Sublist children.idxs ∧
        DeletesUnused (if d.owner = 0 then wakeLog alive children ctl else []) ∧
        wakings (if d.owner = 0 then wakeLog alive children ctl else []) =
          (if d.owner = 0 then children.lowestQueues else []).map fun d => (d.idx, firstLive alive d.pending) := by
      split
      · exact ihc ctl
      · exact ⟨List.nil_sublist _, fun _ _ hm => by simp at hm, rfl⟩
    obtain ⟨hvc, hdc, hwc⟩ := hsub
    rw [hlog, lowestQueues_node, ← wakeInner_gotone hi]
    refine ⟨?_, ?_, ?_⟩
    · rw [List.cons_append, List.cons_append, visits_visit, visits_append, visits_append, hv, List.append_nil]
      exact (hvc.append hvr).cons_cons _
    · rw [List.cons_append]
      intro node c hm
      have hall := deletesUnused_append.mpr ⟨deletesUnused_append.mpr ⟨hdc, hd⟩, hdr⟩
      exact hall node c (by simpa using hm)
    · rw [List.cons_append, List.cons_append, wakings_visit, wakings_append, wakings_append, hwc, hw, hwr, List.map_append]
      by_cases hh : WakesHere d g <;> simp [hh]

end Wake

/-! ## `mlk_unlock` -/

section Unlocked

variable {processId nodptr : Nat} {sequence : UInt32} {d : MlkShrblk σ} {children rsib f f' : ShrForest σ} {ctl ctl' : MlkCtl} {stop : Bool}

theorem unlock_mem (hu : mlkUnlock alive processId nodptr sequence f ctl = some (stop, f', ctl')) : nodptr ∈ f.idxs := by
  induction f generalizing f' ctl' stop with
  | empty => nomatch hu
  | node d children rsib ihc ihr =>
    rw [mlkUnlock] at hu
    simp only [ShrForest.idxs, List.mem_cons, List.mem_append]
    split at hu
    · rename_i hd
      exact .inl hd.symm
    · split at hu
      · rename_i hc
        exact .inr (.inl (ihc hc))
      · obtain ⟨⟨_, _, _⟩, hr, -⟩ := Option.map_eq_some_iff.mp hu
        exact .inr (.inr (ihr hr))

/-- A turn of the loop looks for a process when the node is waited for and none was looked for before. -/
theorem unlockTurn_stop (stop : Bool) (d : MlkShrblk σ) (children rsib : ShrForest σ) (ctl : MlkCtl) :
    (unlockTurn alive stop d children rsib ctl).1 = (stop || decide (WakesHere d stop)) := by
  unfold unlockTurn
  by_cases hw : WakesHere d stop
  · have hc : (!stop && !d.pending.isEmpty && d.owner == 0) = true := by simpa [WakesHere, and_assoc] using hw
    rw [if_pos hc]
    simp [hw]
  · have hc : (!stop && !d.pending.isEmpty && d.owner == 0) = false := by simpa [WakesHere, and_assoc] using hw
    rw [if_neg (by simp [hc])]
    simp [hw]

theorem upQueues_sequence (alive : Nat → Bool) (below : List (MlkShrblk σ)) (d : MlkShrblk σ) (sequence : UInt32) :
    (upQueues below { d with sequence }).map (fun d => (d.idx, firstLive alive d.pending)) =
        (upQueues below d).map (fun d => (d.idx, firstLive alive d.pending)) ∧
      (upQueues below { d with sequence }).isEmpty = (upQueues below d).isEmpty := by
  unfold upQueues
  split
  · exact ⟨rfl, rfl⟩
  · split <;> exact ⟨rfl, rfl⟩

theorem turn_stop {below : List (MlkShrblk σ)} (hstop : stop = !below.isEmpty) :
    (unlockTurn alive stop d children rsib ctl).1 = !(upQueues below d).isEmpty := by
  rw [unlockTurn_stop, hstop]
  cases below with
  | nil => by_cases hh : d.pending ≠ [] ∧ d.owner = 0 <;> simp [WakesHere, upQueues, hh]
  | cons q l => simp [WakesHere, upQueues]

/-- What is told of the blocks below and the turn at the node. -/
theorem turn_spec (d : MlkShrblk σ) (children : ShrForest σ) (ctl : MlkCtl) {log : List (WakeEvent σ)} {below : List (MlkShrblk σ)} {own : List Nat}
    (hlog : (visits log).Nodup ∧ (visits log) ⊆ own ∧ DeletesUnused log ∧
      wakings log = below.map fun d => (d.idx, firstLive alive d.pending)) (hd : d.idx ∉ own) (hstop : stop = !below.isEmpty) :
    (visits (log ++ turnLog alive stop d children ctl)).Nodup ∧ visits (log ++ turnLog alive stop d children ctl) ⊆ d.idx :: own ∧
      DeletesUnused (log ++ turnLog alive stop d children ctl) ∧ wakings (log ++ turnLog alive stop d children ctl) =
        (upQueues below d).map fun d => (d.idx, firstLive alive d.pending) := by
  obtain ⟨hnd, hsub, hdel, hw⟩ := hlog
  obtain ⟨hv, hd', hw'⟩ := ownLog_spec alive stop d children ctl
  rw [turnLog_eq]
  have hvis : visits (log ++ .visit d.idx :: ownLog alive stop d children ctl) = visits log ++ [d.idx] := by
    rw [visits_append, visits_visit, hv]
  refine ⟨?_, ?_, ?_, ?_⟩
  · rw [hvis, List.nodup_append]
    refine ⟨hnd, by simp, ?_⟩
    rintro x hx y hy rfl
    exact hd (hsub (List.mem_singleton.mp hy ▸ hx))
  · rw [hvis]
    intro x hx
    rcases List.mem_append.mp hx with hx | hx
    · exact List.mem_cons_of_mem _ (hsub hx)
    · simp [List.mem_singleton.mp hx]
  · refine deletesUnused_append.mpr ⟨hdel, fun node c hm => hd' node c ?_⟩
    simpa using hm
  · rw [wakings_append, wakings_visit, hw', hw, hstop]
    cases below with
    | nil => by_cases hh : d.pending ≠ [] ∧ d.owner = 0 <;> simp [WakesHere, upQueues, hh]
    | cons q l => simp [WakesHere, upQueues]

/-- What is told of `mlk_unlock`. -/
theorem unlockLog_spec (hnd : f.idxs.Nodup) (hu : mlkUnlock alive processId nodptr sequence f ctl = some (stop, f', ctl')) :
    ((visits (unlockLog alive processId nodptr sequence f ctl)).Nodup ∧ visits (unlockLog alive processId nodptr sequence f ctl) ⊆ f.idxs ∧
      DeletesUnused (unlockLog alive processId nodptr sequence f ctl) ∧ wakings (unlockLog alive processId nodptr sequence f ctl) =
        (f.unlockQueues nodptr).map fun d => (d.idx, firstLive alive d.pending)) ∧ stop = !(f.unlockQueues nodptr).isEmpty := by
  induction f generalizing f' ctl' stop with
  | empty => cases hu
  | node d children rsib ihc ihr =>
    simp only [ShrForest.idxs, List.nodup_cons, List.nodup_append, List.mem_append, not_or] at hnd
    obtain ⟨⟨hdc, -⟩, hnc, hnr, hcr⟩ := hnd
    rw [mlkUnlock] at hu
    rw [unlockLog, ShrForest.unlockQueues]
    by_cases hd : d.idx = nodptr
    · rw [if_pos hd] at hu ⊢
      rw [if_pos hd]
      split at hu
      · obtain ⟨hsub, hdel, hwak⟩ := wakeLog_spec alive children ctl.nextSequence
        have hstop := treeWake_gotone alive children ctl.nextSequence
        obtain ⟨h1, h2, h3, h4⟩ := turn_spec { d with owner := 0, sequence := ctl.lockSequence }
          (mlkTreeWakeChildren alive children ctl.nextSequence).2.1 (mlkTreeWakeChildren alive children ctl.nextSequence).2.2
          ⟨hnc.sublist hsub, hsub.subset, hdel, hwak⟩ hdc hstop
        obtain ⟨rfl, -, -⟩ : _ ∧ _ ∧ _ := by simpa [Prod.ext_iff] using hu
        obtain ⟨hmap, hempty⟩ := upQueues_sequence alive children.lowestQueues { d with owner := 0 } ctl.lockSequence
        refine ⟨⟨h1, fun x hx => ?_, h3, h4.trans hmap⟩, (turn_stop hstop).trans (by rw [hempty])⟩
        have hx' := h2 hx
        simp only [ShrForest.idxs, List.mem_cons, List.mem_append] at hx' ⊢
        exact hx'.imp_right .inl
      · cases hu
    · rw [if_neg hd] at hu ⊢
      rw [if_neg hd]
      cases hc : mlkUnlock alive processId nodptr sequence children ctl with
      | some r =>
        obtain ⟨stop', children', ctl''⟩ := r
        obtain ⟨hlog, hstop⟩ := ihc hnc hc
        rw [hc] at hu
        obtain ⟨rfl, -, -⟩ : _ ∧ _ ∧ _ := by simpa [Prod.ext_iff] using hu
        rw [if_pos (unlock_mem hc)]
        obtain ⟨h1, h2, h3, h4⟩ := turn_spec d children' ctl'' hlog hdc hstop
        refine ⟨⟨h1, fun x hx => ?_, h3, h4⟩, turn_stop hstop⟩
        have hx' := h2 hx
        simp only [ShrForest.idxs, List.mem_cons, List.mem_append] at hx' ⊢
        exact hx'.imp_right .inl
      | none =>
        rw [hc] at hu
        obtain ⟨⟨stop', rsib', ctl''⟩, hr, heq⟩ := Option.map_eq_some_iff.mp hu
        obtain ⟨rfl, -, -⟩ : _ ∧ _ ∧ _ := by simpa [Prod.ext_iff] using heq
        obtain ⟨⟨h1, h2, h3, h4⟩, hstop⟩ := ihr hnr hr
        rw [if_neg fun hm => hcr nodptr hm nodptr (unlock_mem hr) rfl]
        exact ⟨⟨h1, fun x hx => by simp [ShrForest.idxs, h2 hx], h3, h4⟩, hstop⟩

end Unlocked

end Gtm
