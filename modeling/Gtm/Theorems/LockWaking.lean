import Gtm.Lemmas.WakeLog

/-!
# Waking after an unlock

`mlk_tree_wake_children` and `mlk_unlock` come to an end on every lock tree, visit a node once at most and delete unused nodes only.
They wake a process, when one waits that no owner blocks, as long as one of the queues they look in has a live process: a queue of dead
processes counts as one that was woken.
-/

namespace Gtm

open LockRing

variable {σ : Type}

/-- A ring of a lock space and all that is below it, under `par`. The blocks are the first ones of those that the lock space has room
for. -/
structure LockTreeAt (h : ShrHeap σ) (par : Nat) (f : ShrForest σ) : Prop where
  at_ : At h par [] f
  room : ∃ n, (∀ b ∈ f.idxs, b ≤ n) ∧ sizeofMlkShrblk * n ≤ h.spaceSize

theorem LockTreeAt.length_le {h : ShrHeap σ} {par : Nat} {f : ShrForest σ} (ht : LockTreeAt h par f) : f.idxs.length ≤ h.maxLoopTries := by
  obtain ⟨n, hn, hs⟩ := ht.room
  have hsub : f.idxs ⊆ List.range' 1 n := by
    intro b hb
    have h0 : b ≠ 0 := by
      rintro rfl
      exact ht.at_.zero (by simpa using hb)
    have hle := hn b hb
    rw [List.mem_range'_1]
    omega
  have hlen : f.idxs.length ≤ n := by
    have hnd : f.idxs.Nodup := by simpa using ht.at_.nodup
    simpa using (List.subperm_of_subset hnd hsub).length_le
  exact Nat.le_trans hlen ((Nat.le_div_iff_mul_le (by decide)).mpr (by rwa [Nat.mul_comm]))

theorem LockTreeAt.walked {h h' : ShrHeap σ} {par : Nat} {own : List Nat} {f f' : ShrForest σ} {ctl' : MlkCtl} (ht : LockTreeAt h par f)
    (hw : RingWalked h h' par [] own f' ctl') (hsub : f'.idxs.Sublist f.idxs) : LockTreeAt h' par f' := by
  obtain ⟨n, hn, hs⟩ := ht.room
  exact ⟨hw.at_, n, fun b hb => hn b (hsub.subset hb), by rwa [hw.frame.size]⟩

/-! ## Who waits unblocked -/

/-- The processes that wait for a node and that no owner blocks, as far as the tree is concerned: of the node, above it or below it. -/
def ShrForest.freeWaiters : ShrForest σ → List MlkPrcblk
  | .empty => []
  | .node d children rsib =>
    (if d.owner = 0 then (if children.holders.isEmpty then d.pending else []) ++ children.freeWaiters else []) ++ rsib.freeWaiters

/-- A tree without the owner of a block. -/
def ShrForest.release (nodptr : Nat) : ShrForest σ → ShrForest σ
  | .empty => .empty
  | .node d children rsib =>
    .node (if d.idx = nodptr then { d with owner := 0 } else d) (children.release nodptr) (rsib.release nodptr)

/-- The processes of the same kind on the way down to a block and below it. -/
def ShrForest.pathWaiters (nodptr : Nat) : ShrForest σ → List MlkPrcblk
  | .empty => []
  | .node d children rsib =>
    if d.idx = nodptr ∨ nodptr ∈ children.idxs then
      if d.owner = 0 then (if children.holders.isEmpty then d.pending else []) ++
        if d.idx = nodptr then children.freeWaiters else children.pathWaiters nodptr
      else []
    else rsib.pathWaiters nodptr

/-- If one of the processes is there, one that is there is woken. -/
def WakesOne (alive : Nat → Bool) (waiters : List MlkPrcblk) (log : List (WakeEvent σ)) : Prop :=
  (∃ pr ∈ waiters, pr.isLive alive = true) → ∃ d pid, .wake d (some pid) ∈ log ∧ alive pid = true

/-- None of the processes is there, or there is one in a queue that is looked in. -/
def QueueLive (alive : Nat → Bool) (waiters : List MlkPrcblk) (queues : List (MlkShrblk σ)) : Prop :=
  (∀ pr ∈ waiters, pr.isLive alive = false) ∨ ∃ d ∈ queues, ∃ pr ∈ d.pending, pr.isLive alive = true

theorem mem_wakings {log : List (WakeEvent σ)} {d : Nat} {woken : Option Nat} : (d, woken) ∈ wakings log ↔ .wake d woken ∈ log := by
  induction log with
  | nil => simp [wakings]
  | cons e log ih => cases e <;> simp [wakings, ← ih]

theorem firstLive_alive {alive : Nat → Bool} {pending : List MlkPrcblk} {pid : Nat} (h : firstLive alive pending = some pid) :
    alive pid = true ∧ ∃ pr ∈ pending, pr.isLive alive = true := by
  obtain ⟨pr, hpr, rfl⟩ := Option.map_eq_some_iff.mp h
  have hlive := List.find?_some hpr
  refine ⟨?_, pr, List.mem_of_find?_eq_some hpr, hlive⟩
  simp only [MlkPrcblk.isLive, Bool.and_eq_true] at hlive
  exact hlive.2

/-- A process is woken when one of the queues that were looked in has a live one. -/
theorem wakesOne_iff {alive : Nat → Bool} {waiters : List MlkPrcblk} {queues : List (MlkShrblk σ)} {log : List (WakeEvent σ)}
    (hw : wakings log = queues.map fun d => (d.idx, firstLive alive d.pending)) :
    WakesOne alive waiters log ↔ QueueLive alive waiters queues := by
  have hwoken : (∃ d pid, .wake d (some pid) ∈ log ∧ alive pid = true) ↔ ∃ d ∈ queues, ∃ pr ∈ d.pending, pr.isLive alive = true := by
    constructor
    · rintro ⟨d, pid, hm, -⟩
      rw [← mem_wakings, hw] at hm
      obtain ⟨q, hq, heq⟩ := List.mem_map.mp hm
      exact ⟨q, hq, (firstLive_alive (Prod.mk.inj heq).2).2⟩
    · rintro ⟨q, hq, hlive⟩
      obtain ⟨pid, hpid⟩ := Option.isSome_iff_exists.mp ((firstLive_isSome q.pending).mpr hlive)
      refine ⟨q.idx, pid, ?_, (firstLive_alive hpid).1⟩
      rw [← mem_wakings, hw]
      exact List.mem_map.mpr ⟨q, hq, by rw [hpid]⟩
  rw [WakesOne, hwoken, QueueLive]
  by_cases hlive : ∃ pr ∈ waiters, pr.isLive alive = true
  · have hnot : ¬∀ pr ∈ waiters, pr.isLive alive = false := by
      intro hall
      obtain ⟨pr, hpr, hl⟩ := hlive
      simp [hall pr hpr] at hl
    simp only [hlive, forall_true_left, hnot, false_or]
  · refine ⟨fun _ => .inl fun pr hpr => ?_, fun _ hl => absurd hl hlive⟩
    exact Bool.not_eq_true _ ▸ fun hl => hlive ⟨pr, hpr, hl⟩

/-- `mlk_tree_wake_children` and `mlk_unlock`: they come to an end, visit a node once at most, delete unused nodes only, and wake a
process if one waits unblocked just when a queue that they look in has a live one. -/
theorem mlk_unlock_and_wake_children (alive : Nat → Bool) :
    (∀ (h : ShrHeap σ) (par : Nat) (f : ShrForest σ), LockTreeAt h par f →
      ∃ h' gotone log f', (∀ k, f.idxs.length < k → h.mlkTreeWakeChildren alive k (f.ringIdxs.headD 0) = some (h', gotone, log)) ∧
        LockTreeAt h' par f' ∧ (visits log).Nodup ∧ visits log ⊆ f.idxs ∧ DeletesUnused log ∧
        (WakesOne alive f.freeWaiters log ↔ QueueLive alive f.freeWaiters f.lowestQueues)) ∧
    ∀ (h : ShrHeap σ) (f : ShrForest σ) (processId nodptr : Nat) (sequence : UInt32), LockTreeAt h 0 f → nodptr ∈ f.idxs →
      ∃ h' log f', (∀ k, f.idxs.length < k → h.mlkUnlock alive k processId nodptr sequence = some (h', log)) ∧
        LockTreeAt h' 0 f' ∧ (visits log).Nodup ∧ visits log ⊆ f.idxs ∧ DeletesUnused log ∧
        if (h.blk nodptr).node.owner = processId ∧ sequence = (h.blk nodptr).node.sequence then
          (WakesOne alive ((f.release nodptr).pathWaiters nodptr) log ↔
            QueueLive alive ((f.release nodptr).pathWaiters nodptr) (f.unlockQueues nodptr))
        else h' = h ∧ log = [] := by
  constructor
  · intro h par f ht
    obtain ⟨h', hrun, hw⟩ := WalksRing.start (walksRing alive f) ht.at_ ht.length_le
    obtain ⟨hsub, hdel, hwak⟩ := wakeLog_spec alive f h.ctl
    have hnd : f.idxs.Nodup := by simpa using ht.at_.nodup
    exact ⟨h', _, _, _, hrun, ht.walked hw (treeWake_idxs alive f h.ctl), hnd.sublist hsub, hsub.subset, hdel, wakesOne_iff hwak⟩
  · intro h f processId nodptr sequence ht hm
    have hnd : f.idxs.Nodup := by simpa using ht.at_.nodup
    cases hu : mlkUnlock alive processId nodptr sequence f h.ctl with
    | none =>
      have hown := unlock_none ht.at_.nodes hm hu
      refine ⟨h, [], f, fun k _ => by rw [ShrHeap.mlkUnlock, if_neg hown], ht, by simp [visits], by simp [visits],
        fun _ _ hd => by simp at hd, ?_⟩
      rw [if_neg hown]
      exact ⟨rfl, rfl⟩
    | some r =>
      obtain ⟨stop, f', ctl'⟩ := r
      obtain ⟨h', hrun, hw⟩ := heapUnlock_run ht.at_ ht.length_le hu
      obtain ⟨⟨h1, h2, h3, h4⟩, -⟩ := unlockLog_spec hnd hu
      have hown := (unlocksTo ht.at_ ht.length_le hu).own
      refine ⟨h', _, f', hrun, ht.walked hw (unlock_idxs hu), h1, h2, h3, ?_⟩
      rw [if_pos hown]
      exact wakesOne_iff h4

/-! ## A queue of dead processes -/

/-- What is below an nref that process 5 owns: process 7 waits for the node below it, and for the one below that process 9. -/
def staleChildren : ShrForest Nat :=
  .node { idx := 1, value := 1, pending := [⟨7, 1⟩] } (.node { idx := 2, value := 2, pending := [⟨9, 1⟩] } .empty .empty) .empty

def staleForest : ShrForest Nat := .node { idx := 3, value := 0, owner := 5, sequence := 1 } staleChildren .empty

/-- The blocks of the tree. -/
def staleHeap : ShrHeap Nat where
  blk
    | 1 => ⟨{ idx := 1, value := 1, pending := [⟨7, 1⟩] }, 3, 2, 1, 1⟩
    | 2 => ⟨{ idx := 2, value := 2, pending := [⟨9, 1⟩] }, 1, 0, 2, 2⟩
    | 3 => ⟨{ idx := 3, value := 0, owner := 5, sequence := 1 }, 0, 1, 3, 3⟩
    | _ => ⟨{ idx := 0, value := 0 }, 0, 0, 0, 0⟩
  blkroot := 3
  spaceSize := 264
  ctl := { blkfree := [], prccnt := 0, lockSequence := 2 }

theorem staleHeap_tree : LockTreeAt staleHeap 0 staleForest :=
  ⟨⟨⟨⟨rfl, rfl, rfl, ⟨rfl, rfl⟩, ⟨rfl, rfl, rfl, ⟨rfl, rfl⟩, ⟨rfl, rfl, rfl, trivial, trivial⟩, trivial⟩, trivial⟩, trivial⟩,
    ⟨rfl, rfl⟩, rfl, by decide, by decide, by decide, fun h => absurd rfl h⟩, 3, by decide, by decide⟩

theorem staleHeap_children : LockTreeAt staleHeap 3 staleChildren := ⟨staleHeap_tree.at_.below, 3, by decide, by decide⟩

theorem mlk_unlock_and_wake_children_stale :
    (∃ h' gotone log f', (∀ k, staleChildren.idxs.length < k → staleHeap.mlkTreeWakeChildren (· != 7) k 1 = some (h', gotone, log)) ∧
      LockTreeAt h' 3 f' ∧ (visits log).Nodup ∧ visits log ⊆ staleChildren.idxs ∧ DeletesUnused log ∧
      (WakesOne (· != 7) staleChildren.freeWaiters log ↔ QueueLive (· != 7) staleChildren.freeWaiters staleChildren.lowestQueues)) ∧
    ∃ h' log f', (∀ k, staleForest.idxs.length < k → staleHeap.mlkUnlock (· != 7) k 5 3 1 = some (h', log)) ∧
      LockTreeAt h' 0 f' ∧ (visits log).Nodup ∧ visits log ⊆ staleForest.idxs ∧ DeletesUnused log ∧
      if (staleHeap.blk 3).node.owner = 5 ∧ 1 = (staleHeap.blk 3).node.sequence then
        (WakesOne (· != 7) ((staleForest.release 3).pathWaiters 3) log ↔
          QueueLive (· != 7) ((staleForest.release 3).pathWaiters 3) (staleForest.unlockQueues 3))
      else h' = staleHeap ∧ log = [] :=
  ⟨(mlk_unlock_and_wake_children (· != 7)).1 staleHeap 3 staleChildren staleHeap_children,
    (mlk_unlock_and_wake_children (· != 7)).2 staleHeap staleForest 5 3 1 staleHeap_tree (by decide)⟩

/-- A walk that wakes no one, though process 7 waits unblocked. -/
theorem not_wakesOne_of_wakings {waiters : List MlkPrcblk} {log : List (WakeEvent Nat)} (hlive : ⟨7, 1⟩ ∈ waiters)
    (hw : wakings log = [(2, none)]) : ¬WakesOne (· != 9) waiters log := by
  intro hwakes
  obtain ⟨d, pid, hm, -⟩ := hwakes ⟨⟨7, 1⟩, hlive, rfl⟩
  rw [← mem_wakings, hw] at hm
  simp at hm

/-- Process 9 is dead. It is taken for woken by both, and process 7, which could go on, is not woken. -/
theorem mlk_unlock_wakes_no_one :
    (¬∀ (alive : Nat → Bool) (h : ShrHeap Nat) (par : Nat) (f : ShrForest Nat), LockTreeAt h par f → ∀ h' gotone log,
      h.mlkTreeWakeChildren alive (f.idxs.length + 1) (f.ringIdxs.headD 0) = some (h', gotone, log) →
        WakesOne alive f.freeWaiters log) ∧
    ¬∀ (alive : Nat → Bool) (h : ShrHeap Nat) (f : ShrForest Nat) (processId nodptr : Nat) (sequence : UInt32),
      LockTreeAt h 0 f → nodptr ∈ f.idxs → (h.blk nodptr).node.owner = processId ∧ sequence = (h.blk nodptr).node.sequence →
      ∀ h' log, h.mlkUnlock alive (f.idxs.length + 1) processId nodptr sequence = some (h', log) →
        WakesOne alive ((f.release nodptr).pathWaiters nodptr) log := by
  constructor
  · intro hall
    cases hr : staleHeap.mlkTreeWakeChildren (· != 9) 3 1 with
    | none => exact absurd hr (by decide)
    | some r =>
      obtain ⟨h', gotone, log⟩ := r
      have hw : wakings log = [(2, none)] := by
        have hrun : (staleHeap.mlkTreeWakeChildren (· != 9) 3 1).map (fun r => wakings r.2.2) = some [(2, none)] := by decide
        rw [hr] at hrun
        exact Option.some.inj hrun
      exact not_wakesOne_of_wakings (by decide) hw (hall _ _ _ _ staleHeap_children h' gotone log hr)
  · intro hall
    cases hr : staleHeap.mlkUnlock (· != 9) 4 5 3 1 with
    | none => exact absurd hr (by decide)
    | some r =>
      obtain ⟨h', log⟩ := r
      have hw : wakings log = [(2, none)] := by
        have hrun : (staleHeap.mlkUnlock (· != 9) 4 5 3 1).map (fun r => wakings r.2) = some [(2, none)] := by decide
        rw [hr] at hrun
        exact Option.some.inj hrun
      exact not_wakesOne_of_wakings (by decide) hw (hall _ _ _ 5 3 1 staleHeap_tree (by decide) (by decide) h' log hr)

end Gtm
