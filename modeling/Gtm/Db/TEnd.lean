import Gtm.Db.BlockTable
import Gtm.Lib.Occ

/-!
# Commit of a transaction outside TP

The validation of `t_end.c` for the BG access method and the processes that run it: a process notes the current transaction number
with every block it reads, and in crit either all the blocks it read are found unchanged since then and its updates go in under
the current number, or it restarts. A buffer found lost or being flushed is a restart too and needs no step of its own.
-/

namespace Gtm

/-- The outcomes of the validation. -/
inductive CdbSc where
  | normal
  | blkmod
  | losthist
  | bmlmod
  | lostbmlhist
deriving DecidableEq, Repr

/-- A block of the history (`srch_blk_status`) or a bitmap of the update set: its number and the transaction number at which it
was read. -/
structure SrchBlk where
  blkNum : Nat
  tn : Nat
deriving DecidableEq, Repr

/-- The test of one block against the block table, with the outcomes it has in the history or among the bitmaps. -/
def checkBlk (t : BlockTable) (oldestHistTn : Nat) (lost modified : CdbSc) (t1 : SrchBlk) : CdbSc :=
  match t.btGet t1.blkNum with
  | none => if t1.tn ≤ oldestHistTn then lost else .normal
  | some bt => if t1.tn ≤ (t.recs bt).tn then modified else .normal

/-- The first outcome of a list of tests that is not normal. -/
def firstFailure (check : SrchBlk → CdbSc) : List SrchBlk → CdbSc
  | [] => .normal
  | t1 :: rest => if check t1 = .normal then firstFailure check rest else check t1

/-- The validation of `t_end`: the blocks of the history, then the bitmaps. -/
def tEndValidate (t : BlockTable) (hist bitmaps : List SrchBlk) : CdbSc :=
  let status := firstFailure (checkBlk t t.oldestHistTn .losthist .blkmod) hist
  if status = .normal then firstFailure (checkBlk t t.oldestHistTn .lostbmlhist .bmlmod) bitmaps else status

/-- A block a transaction has read: where it is noted, what was read, and how many updates of blocks there had been by then. -/
structure BlkRead (V : Type) where
  t1 : SrchBlk
  bitmap : Bool
  val : V
  seen : Nat

/-- A transaction in progress: the program it runs, what is left of it and its reads in their order. -/
structure Txn (V : Type) where
  prog : Occ.Prog Nat V
  rest : Occ.Prog Nat V
  reads : List (BlkRead V)

namespace Txn

variable {V : Type}

/-- The blocks of the search history. -/
def hist (x : Txn V) : List SrchBlk := (x.reads.filter fun r => !r.bitmap).map BlkRead.t1

/-- The bitmaps. -/
def bitmaps (x : Txn V) : List SrchBlk := (x.reads.filter fun r => r.bitmap).map BlkRead.t1

/-- What was read from which block. -/
def trace (x : Txn V) : List (Nat × V) := x.reads.map fun r => (r.t1.blkNum, r.val)

end Txn

/-- The database, the shared memory and the processes. `updates` lists the updates of blocks with their transaction numbers and
`log` the committed transactions, both in the order they happened; the program reads neither. -/
structure Sys (V : Type) where
  db : Nat → V
  currTn : Nat
  table : BlockTable
  txns : Nat → Option (Txn V)
  updates : List (Nat × Nat)
  log : List (Txn V)

/-- What a process does in one step. Any process may start (over) at any time. -/
inductive Action (V : Type) where
  | begin (pid : Nat) (prog : Occ.Prog Nat V)
  | read (pid : Nat) (bitmap : Bool)
  | commit (pid : Nat)

namespace Sys

variable {V : Type}

/-- A database just opened, with no transaction in progress. -/
def init (nBts btBuckets : Nat) (bt1 : Nat → Nat) (currTn : Nat) (db : Nat → V) : Sys V where
  db := db
  currTn := currTn
  table := .btRefresh nBts btBuckets bt1 currTn
  txns _ := none
  updates := []
  log := []

/-- The read of the next block of a transaction, which notes `curr_tn` first. -/
def readBlk (s : Sys V) (pid : Nat) (x : Txn V) (bitmap : Bool) (b : Nat) (next : V → Occ.Prog Nat V) : Sys V :=
  { s with
    txns := Function.update s.txns pid (some
      { x with
        rest := next (s.db b)
        reads := x.reads ++ [⟨⟨b, s.currTn⟩, bitmap, s.db b, s.updates.length⟩] }) }

/-- `t_end` in crit: validation, then the updates under `curr_tn`. A transaction that fails it is given up. -/
def tEnd (s : Sys V) (pid : Nat) (x : Txn V) (ws : List (Nat × V)) : Option (Sys V) :=
  if tEndValidate s.table x.hist x.bitmaps = .normal then
    (s.table.btPutAll s.currTn (ws.map Prod.fst)).map fun table =>
      { db := Occ.write s.db ws
        currTn := s.currTn + 1
        table := table
        txns := Function.update s.txns pid none
        updates := s.updates ++ ws.map fun w => (s.currTn, w.1)
        log := s.log ++ [x] }
  else some { s with txns := Function.update s.txns pid none }

/-- One step of one process; `none` when the process cannot take it. -/
def step (s : Sys V) : Action V → Option (Sys V)
  | .begin pid prog => some { s with txns := Function.update s.txns pid (some ⟨prog, prog, []⟩) }
  | .read pid bitmap =>
    match s.txns pid with
    | some x =>
      match x.rest with
      | .read b next => some (s.readBlk pid x bitmap b next)
      | .done _ => none
    | none => none
  | .commit pid =>
    match s.txns pid with
    | some x =>
      match x.rest with
      | .done ws => s.tEnd pid x ws
      | .read _ _ => none
    | none => none

/-- A whole run. -/
def run (s : Sys V) : List (Action V) → Option (Sys V)
  | [] => some s
  | a :: as => (s.step a).bind fun s' => s'.run as

end Sys

end Gtm
