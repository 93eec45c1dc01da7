import Mathlib

/-!
# The phase-2 commits of the journal buffer

Journal records are written outside crit into space that was reserved in crit. The reservations stand in a circular array, and
`jnl_phase2_cleanup` takes off those that are written (`jnl_phase2_cleanup.c`).
-/

namespace Gtm

/-- A reservation (`jbuf_phase2_in_prog_t`). -/
structure Phs2Cmt where
  processId : Nat
  startFreeaddr : Nat
  totJrecLen : Nat
  writeComplete : Bool

/-- `JNL_PHASE2_COMMIT_ARRAY_SIZE`. -/
def jnlPhase2CommitArraySize : Nat := 4096

/-- What `jnl_buffer` has of the reservations. -/
structure JnlBuffer where
  phase2CommitArray : Nat → Phs2Cmt
  phase2CommitIndex1 : Nat
  phase2CommitIndex2 : Nat
  freeaddr : Nat
  free : Nat
  size : Nat

/-- `SET_JBP_FREEADDR`. -/
def JnlBuffer.setFreeaddr (jbp : JnlBuffer) (freeaddr : Nat) : JnlBuffer :=
  { jbp with freeaddr := freeaddr, free := freeaddr % jbp.size }

/-- The process that cleans up, and which processes are alive. -/
structure Phs2Env where
  nowCrit : Bool
  processId : Nat
  isProcAlive : Nat → Bool

/-- `jnl_phase2_salvage`: the records of a dead process are filled in, and its reservation is complete. -/
def jnlPhase2Salvage (array : Nat → Phs2Cmt) (deadCmt : Nat) : Nat → Phs2Cmt :=
  Function.update array deadCmt { array deadCmt with writeComplete := true }

/-- The search for dead processes, with that many reservations left from `deadCmt` on. -/
def salvageLoop (env : Phs2Env) : Nat → Nat → (Nat → Phs2Cmt) → Nat → Phs2Cmt
  | 0, _, array => array
  | cnt + 1, deadCmt, array =>
    let stuckPid := (array deadCmt).processId
    if (array deadCmt).writeComplete then array
    else if stuckPid = env.processId then array
    else if env.isProcAlive stuckPid then array
    else salvageLoop env cnt (deadCmt + 1) (jnlPhase2Salvage array deadCmt)

/-- `PHASE2_COMMIT_ARRAY_ITERATE_UNTIL_WRITE_COMPLETE_FALSE`, with that many reservations left. -/
def iterateUntilIncomplete (array : Nat → Phs2Cmt) : Nat → Nat → Nat
  | 0, phs2cmt => phs2cmt
  | cnt + 1, phs2cmt => if (array phs2cmt).writeComplete then iterateUntilIncomplete array cnt (phs2cmt + 1) else phs2cmt

/-- The scan over the array: `phs2cmt`, `maxCmt` and `index1` behind it. -/
def phs2Scan (array : Nat → Phs2Cmt) (index1 index2 : Nat) : Nat × Nat × Nat :=
  if index1 < index2 then
    let phs2cmt := iterateUntilIncomplete array (index2 - index1) index1
    (phs2cmt, index2, phs2cmt)
  else
    let topCmt := jnlPhase2CommitArraySize
    let phs2cmt := iterateUntilIncomplete array (topCmt - index1) index1
    if phs2cmt = topCmt then
      if index2 ≠ 0 then
        let phs2cmt := iterateUntilIncomplete array index2 0
        (phs2cmt, index2, if phs2cmt = index2 then index2 else phs2cmt)
      else (phs2cmt, topCmt, index2)
    else (phs2cmt, topCmt, phs2cmt)

/-- The address behind the completed reservations. -/
def newFreeaddr (array : Nat → Phs2Cmt) (phs2cmt maxCmt : Nat) : Nat :=
  if phs2cmt < maxCmt then (array phs2cmt).startFreeaddr
  else
    let last := (if phs2cmt = 0 then jnlPhase2CommitArraySize else phs2cmt) - 1
    (array last).startFreeaddr + (array last).totJrecLen

/-- `jnl_phase2_cleanup`, with the latch held. -/
def jnlPhase2Cleanup (env : Phs2Env) (jbp : JnlBuffer) : JnlBuffer :=
  let index1 := jbp.phase2CommitIndex1
  let index2 := jbp.phase2CommitIndex2
  if index1 = index2 then jbp
  else
    let array :=
      if (jbp.phase2CommitArray index1).writeComplete = false ∧ env.nowCrit then
        let maxCmt := if index1 < index2 then index2 else jnlPhase2CommitArraySize
        salvageLoop env (maxCmt - index1) index1 jbp.phase2CommitArray
      else jbp.phase2CommitArray
    let jbp := { jbp with phase2CommitArray := array }
    if (array index1).writeComplete then
      let (phs2cmt, maxCmt, index1) := phs2Scan array index1 index2
      { jbp.setFreeaddr (newFreeaddr array phs2cmt maxCmt) with phase2CommitIndex1 := index1 }
    else jbp

end Gtm
