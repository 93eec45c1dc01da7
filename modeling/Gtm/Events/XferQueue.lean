import Mathlib

/-!
# The queue of deferred events

Events that come while another one is pending are kept in a linked list with a root and a tail. An operation that follows a pointer to a
node that is not allocated has no result. Every operation holds `outofband_queue_latch`, so that one runs after the other.
-/

namespace Gtm

namespace XferQueue

/-- What is saved of an event: its type, the function that sets it, and the parameter of the function. -/
structure XferEvent (σ : Type) where
  outofband : Int
  setFn : σ
  paramVal : Int
  deriving DecidableEq

/-- `save_xfer_entry`. -/
structure SaveXferEntry (σ : Type) where
  next : Option Nat
  event : XferEvent σ

/-- The allocated nodes, `save_xfer_root` and `save_xfer_tail`, and how many nodes have been allocated. -/
structure QueueSt (σ : Type) where
  heap : Nat → Option (SaveXferEntry σ)
  root : Option Nat
  tail : Option Nat
  mallocs : Nat

/-- The allocator gives a node that is not in use, if there is one. -/
structure Malloc (σ : Type) where
  addr : (Nat → Option (SaveXferEntry σ)) → Nat
  fresh : ∀ (heap : Nat → Option (SaveXferEntry σ)) (a : Nat), heap a = none → heap (addr heap) = none

variable {σ : Type}

namespace QueueSt

variable (st : QueueSt σ)

/-- Nothing has been saved. -/
def init : QueueSt σ := ⟨fun _ => none, none, none, 0⟩

/-- A node is written. -/
def write (a : Nat) (n : SaveXferEntry σ) : QueueSt σ := { st with heap := Function.update st.heap a (some n) }

/-- A node is freed. -/
def free (a : Nat) : QueueSt σ := { st with heap := Function.update st.heap a none }

end QueueSt

/-- `save_xfer_queue_entry`. -/
def saveXferQueueEntry (malloc : Malloc σ) (event : XferEvent σ) (st : QueueSt σ) : Option (QueueSt σ) :=
  let newNode := malloc.addr st.heap
  let st := { st.write newNode ⟨none, event⟩ with mallocs := st.mallocs + 1 }
  match st.root with
  | none => some { st with root := some newNode, tail := some newNode }
  | some _ =>
    match st.tail with
    | none => none
    | some tail =>
      match st.heap tail with
      | none => none
      | some n => some { st.write tail { n with next := some newNode } with tail := some newNode }

/-- `pop_reset_xfer_entry`: the event that is popped. -/
def popResetXferEntry (st : QueueSt σ) : Option (QueueSt σ × Option (XferEvent σ)) :=
  match st.root with
  | none => some (st, none)
  | some headSave =>
    match st.heap headSave with
    | none => none
    | some n =>
      let st := { st with root := n.next, tail := if st.tail = some headSave then none else st.tail }
      some (st.free headSave, some n.event)

section Find

variable [DecidableEq σ]

/-- The loop of `find_queue_entry`: the node before, and the node. -/
def findLoop (heap : Nat → Option (SaveXferEntry σ)) (setFn : σ) : Nat → Option Nat → Option Nat → Option (Option Nat × Option Nat)
  | _, qprev, none => some (qprev, none)
  | 0, _, some _ => none
  | fuel + 1, qprev, some qc =>
    match heap qc with
    | none => none
    | some n => if n.event.setFn = setFn then some (qprev, some qc) else findLoop heap setFn fuel (some qc) n.next

/-- `find_queue_entry`. A list has no more nodes than have been allocated. -/
def findQueueEntry (setFn : σ) (st : QueueSt σ) : Option (Option Nat × Option Nat) := findLoop st.heap setFn st.mallocs none st.root

/-- `remove_queue_entry`. -/
def removeQueueEntry (setFn : σ) (st : QueueSt σ) : Option (QueueSt σ) :=
  match findQueueEntry setFn st with
  | none => none
  | some (_, none) => some st
  | some (qprev, some qp) =>
    match st.heap qp with
    | none => none
    | some n =>
      match qprev with
      | none => some ({ st with root := n.next }.free qp)
      | some p =>
        match st.heap p with
        | none => none
        | some prev => some ((st.write p { prev with next := n.next }).free qp)

end Find

/-- The loop of `empty_queue`. -/
def emptyLoop : Nat → Option Nat → QueueSt σ → Option (QueueSt σ)
  | _, none, st => some st
  | 0, some _, _ => none
  | fuel + 1, some headSave, st =>
    match st.heap headSave with
    | none => none
    | some n => emptyLoop fuel n.next (st.free headSave)

/-- `empty_queue`. -/
def emptyQueue (st : QueueSt σ) : Option (QueueSt σ) := emptyLoop st.mallocs st.root { st with root := none, tail := none }

/-- The calls. -/
inductive QueueOp (σ : Type) where
  | save (event : XferEvent σ)
  | pop
  | remove (setFn : σ)
  | empty

variable [DecidableEq σ]

/-- A call, with the event that it pops. -/
def queueStep (malloc : Malloc σ) (st : QueueSt σ) : QueueOp σ → Option (QueueSt σ × Option (XferEvent σ))
  | .save event => (saveXferQueueEntry malloc event st).map fun st => (st, none)
  | .pop => popResetXferEntry st
  | .remove setFn => (removeQueueEntry setFn st).map fun st => (st, none)
  | .empty => (emptyQueue st).map fun st => (st, none)

/-- A run, with what it pops in order. -/
def queueRun (malloc : Malloc σ) : List (QueueOp σ) → QueueSt σ → Option (QueueSt σ × List (XferEvent σ))
  | [], st => some (st, [])
  | op :: ops, st =>
    match queueStep malloc st op with
    | none => none
    | some (st, popped) =>
      match queueRun malloc ops st with
      | none => none
      | some (st, rest) => some (st, popped.toList ++ rest)

/-! ## What the queue is for -/

/-- A call on a list of events. -/
def fifoStep (q : List (XferEvent σ)) : QueueOp σ → List (XferEvent σ) × Option (XferEvent σ)
  | .save event => (q ++ [event], none)
  | .pop => (q.tail, q.head?)
  | .remove setFn => (q.eraseP fun e => e.setFn = setFn, none)
  | .empty => ([], none)

/-- A run on a list of events. -/
def fifoRun : List (QueueOp σ) → List (XferEvent σ) → List (XferEvent σ) × List (XferEvent σ)
  | [], q => (q, [])
  | op :: ops, q =>
    let (q, popped) := fifoStep q op
    let (q, rest) := fifoRun ops q
    (q, popped.toList ++ rest)

/-- The first event that the call removes, if any, is not the last one of the list. -/
def KeepsTail (q : List (XferEvent σ)) : QueueOp σ → Prop
  | .remove setFn => (q.dropWhile fun e => e.setFn ≠ setFn).length ≠ 1
  | _ => True

/-- No call of the run removes the last event of the list. -/
def TailKept : List (QueueOp σ) → List (XferEvent σ) → Prop
  | [], _ => True
  | op :: ops, q => KeepsTail q op ∧ TailKept ops (fifoStep q op).1

end XferQueue

end Gtm
