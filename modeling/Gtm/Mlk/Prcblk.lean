import Gtm.Lib.PtrPool

/-!
# The queues of waiting processes

The `mlk_prcblk`s of a lock space, in shared memory: every node has a list of those that wait for it (`pending`), the others are on
the list `prcfree`. `mlk_prcblk_add`, `mlk_prcblk_delete` and `mlk_wake_pending` as they walk and change these lists. `α` are the
blocks, and `δ` the nodes, as far as their queues and sequences go. Whether a process is gone is up to the environment.

A pointer to a link (`prpt`) is the block that holds it, or none for `pending`. A routine that comes to no end, or to a failed
`assertpro`, has no result.
-/

namespace Gtm

open Function

variable {δ α : Type} [DecidableEq δ] [DecidableEq α]

/-- A value as a `short` keeps it. -/
def short (x : Int) : Int := x.bmod 65536

/-- The blocks of waiting processes and what `mlk_ctldata` has on them. -/
structure PrcSpace (δ α : Type) where
  next : α → Option α
  processId : α → Nat
  refCnt : α → Int
  pending : δ → Option α
  sequence : δ → UInt32
  prcfree : Option α
  prccnt : Nat
  maxPrccnt : Nat
  wakeups : UInt64
  lockSequence : UInt32

namespace PrcSpace

/-- The roots of the lists: none is that of the free blocks. -/
def root (s : PrcSpace δ α) : Option δ → Option α
  | none => s.prcfree
  | some d => s.pending d

/-- The link at `prpt`, in the queue of `d`, is written. -/
def setLink (s : PrcSpace δ α) (d : δ) (prpt r : Option α) : PrcSpace δ α :=
  match prpt with
  | some p => { s with next := update s.next p r }
  | none => { s with pending := update s.pending d r }

/-- The search of `mlk_prcblk_add`: the link it ends at, and the block of the process, if it has one. -/
def findPrc (s : PrcSpace δ α) (pid : Nat) : Nat → Option α → Option α → Option α × Option α
  | lcnt + 1, prpt, some pr => if s.processId pr = pid then (prpt, some pr) else s.findPrc pid lcnt (some pr) (s.next pr)
  | _, prpt, _ => (prpt, none)

/-- `mlk_prcblk_add`. -/
def mlkPrcblkAdd (s : PrcSpace δ α) (d : δ) (pid : Nat) : PrcSpace δ α × Bool :=
  match s.findPrc pid s.maxPrccnt none (s.pending d) with
  | (_, some pr) => ({ s with refCnt := update s.refCnt pr (short (s.refCnt pr + 1)) }, true)
  | (prpt, none) =>
    if 1 > s.prccnt then (s, false)
    else
      match s.prcfree with
      | none => (s, false)
      | some pr =>
        let s := { s with prccnt := s.prccnt - 1, prcfree := s.next pr }
        let s := s.setLink d prpt (some pr)
        ({ s with
          processId := update s.processId pr pid, refCnt := update s.refCnt pr 1, next := update s.next pr none }, true)

/-- The block behind the link `prpt` is taken off the queue, cleared and put in front of the free ones. -/
def freePrc (s : PrcSpace δ α) (d : δ) (prpt : Option α) (pr : α) : PrcSpace δ α :=
  let s := s.setLink d prpt (s.next pr)
  { s with
    processId := update s.processId pr 0, refCnt := update s.refCnt pr 0, next := update s.next pr s.prcfree, prcfree := some pr
    prccnt := s.prccnt + 1 }

/-- The loop of `mlk_prcblk_delete`. Process 0 stands for all that have been cleared, so that the loop goes on behind them. -/
def deleteLoop (d : δ) (pid : Nat) : Nat → Option α → Option α → PrcSpace δ α → Option (PrcSpace δ α)
  | _, _, none, s => some s
  | 0, _, some _, _ => none
  | fuel + 1, prpt, some pr, s =>
    if s.processId pr = pid then
      let refCnt := short (s.refCnt pr - 1)
      let s := { s with refCnt := update s.refCnt pr refCnt }
      if refCnt ≤ 0 then
        let next := s.next pr
        let s := s.freePrc d prpt pr
        if 0 ≠ pid then some s else deleteLoop d pid fuel prpt next s
      else deleteLoop d pid fuel (some pr) (s.next pr) s
    else deleteLoop d pid fuel (some pr) (s.next pr) s

/-- `mlk_prcblk_delete`. -/
def mlkPrcblkDelete (s : PrcSpace δ α) (d : δ) (pid : Nat) : Option (PrcSpace δ α) :=
  deleteLoop d pid s.maxPrccnt none (s.pending d) s

/-- The loop of `mlk_wake_pending`, with the process it wakes. -/
def wakeLoop (gone : Nat → Bool) (d : δ) : Nat → α → PrcSpace δ α → Option (PrcSpace δ α × Option Nat)
  | 0, _, _ => none
  | lcnt + 1, pr, s =>
    let next := s.next pr
    if s.processId pr = 0 ∨ gone (s.processId pr) then
      match mlkPrcblkDelete { s with refCnt := update s.refCnt pr 1 } d (s.processId pr) with
      | none => none
      | some s =>
        match next with
        | some pr => wakeLoop gone d lcnt pr s
        | none => some (s, none)
    else some (s, some (s.processId pr))

/-- `mlk_wake_pending`. -/
def mlkWakePending (s : PrcSpace δ α) (d : δ) (gone : Nat → Bool) : Option (PrcSpace δ α × Option Nat) :=
  match s.pending d with
  | none => some (s, none)
  | some pr =>
    let wakeups := if s.wakeups + 1 = 0 then 1 else s.wakeups + 1
    wakeLoop gone d s.maxPrccnt pr
      { s with wakeups, sequence := update s.sequence d s.lockSequence, lockSequence := s.lockSequence + 1 }

end PrcSpace

/-- A call of one of the routines. -/
inductive PrcOp (δ : Type) where
  | add (d : δ) (pid : Nat)
  | delete (d : δ) (pid : Nat)
  | wake (d : δ) (gone : Nat → Bool)

/-- What the call does to the lock space. -/
def PrcSpace.step (s : PrcSpace δ α) : PrcOp δ → Option (PrcSpace δ α)
  | .add d pid => some (s.mlkPrcblkAdd d pid).1
  | .delete d pid => s.mlkPrcblkDelete d pid
  | .wake d gone => (s.mlkWakePending d gone).map Prod.fst

/-- One call after the other. -/
def PrcSpace.run (s : PrcSpace δ α) : List (PrcOp δ) → Option (PrcSpace δ α)
  | [] => some s
  | op :: ops => (s.step op).bind fun s => s.run ops

/-! ## Waiting lines -/

/-- A process in a line, with the number of its adds less its deletes, and the time it came. -/
structure Waiter where
  pid : Nat
  adds : Nat
  came : Nat
deriving DecidableEq, Repr

/-- What the queues are for: a line of processes for every node, and room for so many more. -/
structure WaitLines (δ : Type) where
  line : δ → List Waiter
  room : Nat
  clock : Nat

namespace WaitLines

/-- A process comes for the first time, if there is room for it, or once more. -/
def add (w : WaitLines δ) (d : δ) (pid : Nat) : WaitLines δ :=
  if (w.line d).any (·.pid = pid) then
    { w with
      line := update w.line d ((w.line d).map fun x => if x.pid = pid then { x with adds := x.adds + 1 } else x)
      clock := w.clock + 1 }
  else if w.room = 0 then { w with clock := w.clock + 1 }
  else { line := update w.line d (w.line d ++ [⟨pid, 1, w.clock⟩]), room := w.room - 1, clock := w.clock + 1 }

/-- The line of a node becomes shorter. -/
def shorten (w : WaitLines δ) (d : δ) (l : List Waiter) : WaitLines δ :=
  { line := update w.line d l, room := w.room + ((w.line d).length - l.length), clock := w.clock + 1 }

/-- A process goes for once, and leaves the line for the last time. -/
def delete (w : WaitLines δ) (d : δ) (pid : Nat) : WaitLines δ :=
  w.shorten d ((w.line d).filterMap fun x =>
    if x.pid = pid then if x.adds ≤ 1 then none else some { x with adds := x.adds - 1 } else some x)

/-- Those at the head of the line that are gone leave it. -/
def wake (w : WaitLines δ) (d : δ) (gone : Nat → Bool) : WaitLines δ :=
  w.shorten d ((w.line d).dropWhile fun x => x.pid = 0 || gone x.pid)

def step (w : WaitLines δ) : PrcOp δ → WaitLines δ
  | .add d pid => w.add d pid
  | .delete d pid => w.delete d pid
  | .wake d gone => w.wake d gone

def run (w : WaitLines δ) : List (PrcOp δ) → WaitLines δ := List.foldl step w

end WaitLines

end Gtm
