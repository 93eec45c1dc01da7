import Mathlib

/-!
# The lock tree

The shared side of M locks (`mlkdef.h`, `mlk_shrblk_find.c`, `mlk_lock.c`, `mlk_unlock.c`, `mlk_shrclean.c` and what they call): a
node for each subscript of each nref that is locked or waited for. A node points to its eldest child and to its right sibling, and the
siblings are a ring, told here from its first node on. `σ` is the type of subscripts, and a pointer to a node is the number of its
block, `idx`.

Each routine here runs in one critical section. Whether a process is alive is up to the environment, and so is whether there is space
for the string of a new node and a bucket for its hash.
-/

namespace Gtm

/-- `mlk_prcblk`: a process that waits for a node. -/
structure MlkPrcblk where
  processId : Nat
  refCnt : Int
deriving DecidableEq, Repr

/-- `mlk_shrblk`, less its pointers to other nodes. An owner of 0 is none. -/
structure MlkShrblk (σ : Type) where
  idx : Nat
  value : σ
  owner : Nat := 0
  auxowner : Nat := 0
  sequence : UInt32 := 0
  pending : List MlkPrcblk := []
deriving DecidableEq, Repr

/-- A ring of siblings, from its first node on: the node, its children and the siblings after it. -/
inductive ShrForest (σ : Type) where
  | empty
  | node (d : MlkShrblk σ) (children rsib : ShrForest σ)
deriving DecidableEq, Repr

/-- The counters of `mlk_ctldata` and the list of its free blocks. `lockSequence` is the one of the file header. -/
structure MlkCtl where
  blkfree : List Nat
  prccnt : Nat
  wakeups : UInt64 := 1
  lockSequence : UInt32 := 0
deriving DecidableEq, Repr

variable {σ : Type}

/-- There are no nodes. -/
def ShrForest.isEmpty : ShrForest σ → Bool
  | .empty => true
  | .node .. => false

/-! ## Waiting processes -/

/-- `mlk_prcblk_delete`, on the list of a node. -/
def prcblkDelete (pid : Nat) : List MlkPrcblk → List MlkPrcblk
  | [] => []
  | pr :: next =>
    if pr.processId = pid then
      if pr.refCnt - 1 ≤ 0 then if pid ≠ 0 then next else prcblkDelete pid next
      else { pr with refCnt := pr.refCnt - 1 } :: prcblkDelete pid next
    else pr :: prcblkDelete pid next

/-- A node with another list of waiting processes, the entries that are gone given back. -/
def MlkShrblk.setPending (d : MlkShrblk σ) (pending : List MlkPrcblk) (ctl : MlkCtl) : MlkShrblk σ × MlkCtl :=
  ({ d with pending }, { ctl with prccnt := ctl.prccnt + (d.pending.length - pending.length) })

/-- `mlk_prcblk_delete`. -/
def mlkPrcblkDelete (d : MlkShrblk σ) (pid : Nat) (ctl : MlkCtl) : MlkShrblk σ × MlkCtl :=
  d.setPending (prcblkDelete pid d.pending) ctl

/-- `mlk_prcblk_add`, on the list of a node: `none` when there is no entry for a new process. -/
def prcblkAdd (pid prccnt : Nat) : List MlkPrcblk → Option (List MlkPrcblk)
  | [] => if 1 > prccnt then none else some [{ processId := pid, refCnt := 1 }]
  | pr :: next =>
    if pr.processId = pid then some ({ pr with refCnt := pr.refCnt + 1 } :: next)
    else (prcblkAdd pid prccnt next).map (pr :: ·)

/-- `mlk_prcblk_add`. -/
def mlkPrcblkAdd (d : MlkShrblk σ) (pid : Nat) (ctl : MlkCtl) : Option (MlkShrblk σ × MlkCtl) :=
  (prcblkAdd pid ctl.prccnt d.pending).map fun pending =>
    ({ d with pending }, { ctl with prccnt := ctl.prccnt - (pending.length - d.pending.length) })

/-- `lock_sequence++`. -/
def MlkCtl.nextSequence (ctl : MlkCtl) : MlkCtl := { ctl with lockSequence := ctl.lockSequence + 1 }

/-- `mlk_wake_pending`: the first process that is there is woken, and those before it are taken off the list. -/
def mlkWakePending (alive : Nat → Bool) (d : MlkShrblk σ) (ctl : MlkCtl) : MlkShrblk σ × MlkCtl :=
  if d.pending = [] then (d, ctl)
  else
    let wakeups := if ctl.wakeups + 1 = 0 then ctl.wakeups + 2 else ctl.wakeups + 1
    MlkShrblk.setPending { d with sequence := ctl.lockSequence }
      (d.pending.dropWhile fun pr => pr.processId = 0 || !alive pr.processId) { ctl with wakeups }.nextSequence

/-! ## Deleting and unlocking -/

/-- The condition of `mlk_shrblk_delete_if_empty`. -/
def MlkShrblk.isUnused (d : MlkShrblk σ) (children : ShrForest σ) : Bool :=
  children.isEmpty && d.owner == 0 && d.pending.isEmpty

/-- `mlk_shrblk_delete_if_empty`, for the first node of a ring. -/
def mlkShrblkDeleteIfEmpty (d : MlkShrblk σ) (children rsib : ShrForest σ) (ctl : MlkCtl) : ShrForest σ × MlkCtl :=
  if d.isUnused children then (rsib, { ctl with blkfree := d.idx :: ctl.blkfree }) else (.node d children rsib, ctl)

/-- `mlk_tree_wake_children`: whether a process was woken, and the ring after it. -/
def mlkTreeWakeChildren (alive : Nat → Bool) : ShrForest σ → MlkCtl → Bool × ShrForest σ × MlkCtl
  | .empty, ctl => (false, .empty, ctl)
  | .node b children rsib, ctl =>
    let (gotoneInSubtree, children, ctl) :=
      if b.owner = 0 then mlkTreeWakeChildren alive children ctl else (false, children, ctl)
    if !gotoneInSubtree && !b.pending.isEmpty && b.owner == 0 then
      let (b, ctl) := mlkWakePending alive b ctl
      let (_, rsib, ctl) := mlkTreeWakeChildren alive rsib ctl
      (true, .node b children rsib, ctl)
    else if b.isUnused children then
      let (gotone, rsib, ctl) := mlkTreeWakeChildren alive rsib { ctl with blkfree := b.idx :: ctl.blkfree }
      (gotone || gotoneInSubtree, rsib, ctl)
    else
      let (gotone, rsib, ctl) := mlkTreeWakeChildren alive rsib ctl
      (gotone || gotoneInSubtree, .node b children rsib, ctl)

/-- One turn of the loop of `mlk_unlock` over the node and its ancestors. -/
def unlockTurn (alive : Nat → Bool) (stopWaking : Bool) (d : MlkShrblk σ) (children rsib : ShrForest σ) (ctl : MlkCtl) :
    Bool × ShrForest σ × MlkCtl :=
  if !stopWaking && !d.pending.isEmpty && d.owner == 0 then
    let (d, ctl) := mlkWakePending alive d ctl
    (true, .node d children rsib, ctl)
  else (stopWaking, mlkShrblkDeleteIfEmpty d children rsib ctl)

/-- `mlk_unlock` of the block `nodptr`, which a process got with the sequence number told: `none` when it is not the process's. -/
def mlkUnlock (alive : Nat → Bool) (processId nodptr : Nat) (sequence : UInt32) :
    ShrForest σ → MlkCtl → Option (Bool × ShrForest σ × MlkCtl)
  | .empty, _ => none
  | .node d children rsib, ctl =>
    if d.idx = nodptr then
      if d.owner = processId ∧ sequence = d.sequence then
        let d := { d with owner := 0, sequence := ctl.lockSequence }
        let (stopWaking, children, ctl) := mlkTreeWakeChildren alive children ctl.nextSequence
        some (unlockTurn alive stopWaking d children rsib ctl)
      else none
    else match mlkUnlock alive processId nodptr sequence children ctl with
      -- the block is below this node, and the loop has come up to it
      | some (stopWaking, children, ctl) => some (unlockTurn alive stopWaking d children rsib ctl)
      | none => (mlkUnlock alive processId nodptr sequence rsib ctl).map fun (stopWaking, rsib, ctl) =>
        (stopWaking, .node d children rsib, ctl)

/-! ## Finding and locking -/

/-- `MLK_FAIRNESS_DISABLED`. -/
def mlkFairnessDisabled : Nat := 2 ^ 32 - 1

/-- What `mlk_shrblk_find` works on beside the tree. `blockedOn` is `p->blocked` and `p->blk_sequence`. -/
structure FindState where
  ctl : MlkCtl
  yieldPid : Nat
  blocked : Bool := false
  blockedOn : Option (Nat × UInt32) := none
deriving DecidableEq, Repr

/-- The caller of `mlk_lock`: a process, and whom it locks for. -/
structure LockOwner where
  processId : Nat
  auxown : Nat
deriving DecidableEq, Repr

/-- The node is owned, and not by the caller. -/
def MlkShrblk.ownedByOther (d : MlkShrblk σ) (me : LockOwner) : Bool :=
  d.owner != 0 && (d.owner != me.processId || d.auxowner != me.auxown)

/-- `mlk_find_blocking_child_lock`. -/
def mlkFindBlockingChildLock (alive : Nat → Bool) (me : LockOwner) : ShrForest σ → FindState → ShrForest σ × FindState
  | .empty, st => (.empty, st)
  | .node d children rsib, st =>
    if d.ownedByOther me && alive d.owner then
      (.node d children rsib, { st with blocked := true, blockedOn := some (d.idx, d.sequence) })
    else
      let d := if d.ownedByOther me then { d with owner := 0, auxowner := 0 } else d
      let (children, st) := mlkFindBlockingChildLock alive me children st
      if st.blocked then (.node d children rsib, st)
      else
        let (rsib, st) := mlkFindBlockingChildLock alive me rsib st
        (.node d children rsib, st)

/-- The fairness algorithm asks the caller to leave an unowned node to the process that waits for it. -/
def MlkShrblk.yieldsTo (d : MlkShrblk σ) (me : LockOwner) (yieldPid : Nat) : Option Nat :=
  if yieldPid ≠ mlkFairnessDisabled then
    match d.pending with
    | pr :: _ => if pr.processId ≠ yieldPid ∧ me.processId ≠ pr.processId then some pr.processId else none
    | [] => none
  else none

/-- What `mlk_shrblk_find` does at a node that is there. -/
def shrblkVisit (alive : Nat → Bool) (me : LockOwner) (d : MlkShrblk σ) (st : FindState) : MlkShrblk σ × FindState :=
  if d.owner ≠ 0 then
    if d.ownedByOther me then
      if alive d.owner then
        (d, { st with blocked := true, blockedOn := some (d.idx, d.sequence), yieldPid := 0 })
      else ({ d with owner := 0, auxowner := 0 }, st)
    else (d, st)
  else match d.yieldsTo me st.yieldPid with
    | some pid =>
      let blockedOn := some (d.idx, d.sequence)
      let (d, ctl) := mlkWakePending alive d st.ctl
      (d, { st with ctl, blocked := true, blockedOn, yieldPid := pid })
    | none => (d, st)

/-- `mlk_shrblk_create`, by the number of nodes that are still to be created. -/
def mlkShrblkCreate (room : Nat → Bool) (value : σ) (nshrs : Nat) (ctl : MlkCtl) : Option (MlkShrblk σ × MlkCtl) :=
  match ctl.blkfree with
  | [] => none
  | idx :: blkfree => if room nshrs ∧ nshrs ≤ ctl.blkfree.length then some ({ idx, value }, { ctl with blkfree }) else none

/-- The nodes that `mlk_shrblk_find` creates one below the other, and whether it got to the last. -/
def shrblkCreateChain (room : Nat → Bool) : List σ → FindState → ShrForest σ × FindState × Bool
  | [], st => (.empty, st, true)
  | value :: subs, st =>
    match mlkShrblkCreate room value (subs.length + 1) st.ctl with
    | none => (.empty, { st with blocked := true }, false)
    | some (d, ctl) =>
      let (children, st, found) := shrblkCreateChain room subs { st with ctl }
      (.node d children .empty, st, found)

variable [DecidableEq σ]

/-- `mlk_shrblk_find`, for the subscripts of an nref, and whether it got to the node of the last one. -/
def mlkShrblkFind (alive : Nat → Bool) (room : Nat → Bool) (me : LockOwner) :
    ShrForest σ → List σ → FindState → ShrForest σ × FindState × Bool
  | f, [], st => (f, st, true)
  | .empty, value :: subs, st => shrblkCreateChain room (value :: subs) st
  | .node d children rsib, value :: subs, st =>
    if d.value = value then
      let (d, st) := shrblkVisit alive me d st
      if subs = [] then
        -- the node of the nref: look at the owners below it
        if !children.isEmpty && !st.blocked then
          let (children, st) := mlkFindBlockingChildLock alive me children st
          (.node d children rsib, { st with yieldPid := 0 }, true)
        else (.node d children rsib, st, true)
      else
        let (children, st, found) := mlkShrblkFind alive room me children subs st
        (.node d children rsib, st, found)
    else
      let (rsib, st, found) := mlkShrblkFind alive room me rsib (value :: subs) st
      (.node d children rsib, st, found)

/-- The node of an nref. -/
def ShrForest.nodeAt : ShrForest σ → List σ → Option (MlkShrblk σ)
  | .empty, _ => none
  | .node _ _ _, [] => none
  | .node d children rsib, value :: subs =>
    if d.value = value then if subs = [] then some d else children.nodeAt subs
    else rsib.nodeAt (value :: subs)

/-- A tree with the node of an nref replaced. -/
def ShrForest.setAt (d' : MlkShrblk σ) : ShrForest σ → List σ → ShrForest σ
  | .empty, _ => .empty
  | .node d children rsib, [] => .node d children rsib
  | .node d children rsib, value :: subs =>
    if d.value = value then if subs = [] then .node d' children rsib else .node d (children.setAt d' subs) rsib
    else .node d children (rsib.setAt d' (value :: subs))

/-- What a process keeps of its attempt: `p->nodptr` with `p->sequence`, and what it is blocked on. -/
structure LockAttempt where
  retval : UInt64
  nodptr : Option (Nat × UInt32)
  find : FindState

/-- The end of `mlk_lock` at a node that is not got: the process waits there when there is an entry for it. -/
def lockBlocked (me : LockOwner) (new : Bool) (d : MlkShrblk σ) (st : FindState) (retval : UInt64) :
    MlkShrblk σ × LockAttempt :=
  match if new then mlkPrcblkAdd d me.processId st.ctl else some (d, st.ctl) with
  | some (d, ctl) => (d, { retval, nodptr := some (d.idx, d.sequence), find := { st with ctl := ctl.nextSequence } })
  | none => (d, { retval, nodptr := none, find := { st with ctl := st.ctl.nextSequence } })

/-- The end of `mlk_lock` at a node that is got. -/
def lockGranted (me : LockOwner) (new : Bool) (d : MlkShrblk σ) (st : FindState) : MlkShrblk σ × LockAttempt :=
  let (d, ctl) := if new then (d, st.ctl) else mlkPrcblkDelete d me.processId st.ctl
  let d := { d with owner := me.processId, auxowner := me.auxown, sequence := ctl.lockSequence }
  (d, { retval := 0, nodptr := some (d.idx, d.sequence), find := { st with ctl := ctl.nextSequence } })

/-- The part of `mlk_lock` after `mlk_shrblk_find`, at the node it found. -/
def lockNode (me : LockOwner) (new : Bool) (d : MlkShrblk σ) (st : FindState) (retval : UInt64) :
    MlkShrblk σ × LockAttempt :=
  if d.owner ≠ 0 then
    if d.owner = me.processId ∧ d.auxowner = me.auxown then
      (d, { retval := 0, nodptr := some (d.idx, d.sequence), find := st })
    else lockBlocked me new d st retval
  else if st.blocked then lockBlocked me new d st retval
  else lockGranted me new d st

/-- `mlk_lock`, once there is lock space. It returns 0 when the lock is got. -/
def mlkLock (alive : Nat → Bool) (room : Nat → Bool) (me : LockOwner) (new : Bool) (yieldPid : Nat) (subs : List σ)
    (f : ShrForest σ) (ctl : MlkCtl) : ShrForest σ × LockAttempt :=
  let retval := ctl.wakeups
  let (f, st, found) := mlkShrblkFind alive room me f subs { ctl, yieldPid }
  match if found then f.nodeAt subs else none with
  | some d =>
    let (d, attempt) := lockNode me new d st retval
    (f.setAt d subs, attempt)
  | none => (f, { retval, nodptr := none, find := st })

/-! ## Cleaning -/

/-- `PROC_TABLE_SIZE`. -/
def procTableSize : Nat := 16384

/-- A process noted down in its slot of the table. -/
def notePid (table : Nat → Nat) (pid : Nat) : Nat → Nat :=
  fun i => if i = pid % procTableSize then pid else table i

/-- The loop of `fill_pid_table` over the waiting processes of a node, which ends at the last. -/
def notePending (table : Nat → Nat) : List MlkPrcblk → Nat → Nat
  | [] => table
  | [_] => table
  | p :: next => notePending (notePid table p.processId) next

omit [DecidableEq σ] in
/-- `fill_pid_table`. -/
def fillPidTable : ShrForest σ → (Nat → Nat) → Nat → Nat
  | .empty, table => table
  | .node d children rsib, table =>
    let table := fillPidTable children table
    let table := if d.owner ≠ 0 then notePid table d.owner else table
    fillPidTable rsib (notePending table d.pending)

/-- `check_pids`: the slots of the table whose process is dead. -/
def checkPids (alive : Nat → Bool) (pidTable : Nat → Nat) : Nat → Bool :=
  fun i => pidTable i != 0 && !alive (pidTable i)

/-- The test of `clean_pids`: the slot of a process is its own and dead. -/
def foundDead (pidTable : Nat → Nat) (deadTable : Nat → Bool) (pid : Nat) : Bool :=
  pidTable (pid % procTableSize) == pid && deadTable (pid % procTableSize)

/-- The loop of `clean_pids` over the waiting processes of a node, which ends at the last. -/
def clearPending (dead : Nat → Bool) : List MlkPrcblk → List MlkPrcblk
  | [] => []
  | [p] => [p]
  | p :: next =>
    (if p.processId != 0 && dead p.processId then { processId := 0, refCnt := 0 } else p) :: clearPending dead next

/-- What `clean_pids` does to a node, its children aside. -/
def cleanNode (dead : Nat → Bool) (cur : MlkShrblk σ) (ctl : MlkCtl) : MlkShrblk σ × MlkCtl :=
  let (cur, ctl) := mlkPrcblkDelete { cur with pending := clearPending dead cur.pending } 0 ctl
  if cur.owner = 0 ∨ dead cur.owner then ({ cur with owner := 0, sequence := ctl.lockSequence }, ctl.nextSequence)
  else (cur, ctl)

/-- `clean_pids`. -/
def cleanPids (dead : Nat → Bool) : ShrForest σ → MlkCtl → ShrForest σ × MlkCtl
  | .empty, ctl => (.empty, ctl)
  | .node cur children rsib, ctl =>
    let (children, ctl) := cleanPids dead children ctl
    let (cur, ctl) := cleanNode dead cur ctl
    if cur.isUnused children then cleanPids dead rsib { ctl with blkfree := cur.idx :: ctl.blkfree }
    else
      let (rsib, ctl) := cleanPids dead rsib ctl
      (.node cur children rsib, ctl)

/-- `mlk_shrclean`. -/
def mlkShrclean (alive : Nat → Bool) (f : ShrForest σ) (ctl : MlkCtl) : ShrForest σ × MlkCtl :=
  let pidTable := fillPidTable f fun _ => 0
  cleanPids (foundDead pidTable (checkPids alive pidTable)) f ctl

/-! ## Runs -/

/-- The lock tree of a region, its counters, and the processes that are alive. -/
structure LockSpace (σ : Type) where
  forest : ShrForest σ
  ctl : MlkCtl
  alive : Nat → Bool

/-- What happens in a lock space: a live process tries to get a lock, a block is unlocked, dead processes that were noted down earlier
are cleaned away, or a process dies. Each step is one critical section. What a process holds privately (the node and the sequence
number it unlocks with, the process it last yielded to) is not told, and may be anything. -/
inductive LockStep : LockSpace σ → LockSpace σ → Prop where
  | lock (s : LockSpace σ) (me : LockOwner) (new : Bool) (yieldPid : Nat) (subs : List σ) (room : Nat → Bool) :
    s.alive me.processId = true → me.processId ≠ 0 → subs ≠ [] →
    LockStep s
      { s with
        forest := (mlkLock s.alive room me new yieldPid subs s.forest s.ctl).1
        ctl := (mlkLock s.alive room me new yieldPid subs s.forest s.ctl).2.find.ctl }
  | unlock (s : LockSpace σ) (processId nodptr : Nat) (sequence : UInt32) (r : Bool × ShrForest σ × MlkCtl) :
    mlkUnlock s.alive processId nodptr sequence s.forest s.ctl = some r →
    LockStep s { s with forest := r.2.1, ctl := r.2.2 }
  | clean (s : LockSpace σ) (pidTable : Nat → Nat) (deadTable : Nat → Bool) :
    (∀ i, deadTable i = true → s.alive (pidTable i) = false) →
    LockStep s
      { s with
        forest := (cleanPids (foundDead pidTable deadTable) s.forest s.ctl).1
        ctl := (cleanPids (foundDead pidTable deadTable) s.forest s.ctl).2 }
  | die (s : LockSpace σ) (pid : Nat) : LockStep s { s with alive := fun p => p != pid && s.alive p }

/-- The states of a lock space, from an empty one on. -/
inductive LockReachable : LockSpace σ → Prop where
  | start (ctl : MlkCtl) (alive : Nat → Bool) : ctl.wakeups = 1 → LockReachable { forest := .empty, ctl, alive }
  | step {s s' : LockSpace σ} : LockReachable s → LockStep s s' → LockReachable s'

end Gtm
