import Mathlib

/-!
# The locks of a process

The private side of M locks (`mlkdef.h`, `mlk_pvtblk_insert.c`, `op_lkinit.c`, `lckclr.c`, `op_lock2.c`, `mlk_bckout.c`,
`op_decrlock.c`): the chain `mlk_pvt_root` of a block for each nref that the process holds or has just named. A lock command is
compiled to `op_lkinit`, one `op_lkname` for each nref of its argument list, and the operation itself, which works on the first
`lks_this_cmd` blocks of the chain. The type `ρ` is that of nrefs, each with its region.

What `mlk_lock` answers, how the wait for a blocked lock ends and whether the argument list can be evaluated to its end are up to the
environment, and stand in the command.
-/

namespace Gtm

/-- `mlk_pvtblk`. The level is a field of 9 bits, and `translev` is an unsigned char. -/
structure MlkPvtblk (ρ : Type) where
  value : ρ
  level : BitVec 9 := 0
  zalloc : Bool := false
  granted : Bool := false
  trans : Bool := false
  translev : BitVec 8 := 0
  old : Bool := false
deriving DecidableEq, Repr

/-- `mlk_pvt_root` and `lks_this_cmd`. -/
structure MlkPvt (ρ : Type) where
  mlkPvtRoot : List (MlkPvtblk ρ) := []
  lksThisCmd : Nat := 0
deriving DecidableEq, Repr

/-- The operation of a lock command, `laflag`. -/
inductive LockFlag where
  | cmLocks
  | incremental
  | cmZallocates
deriving DecidableEq, Repr

/-- How the wait for a blocked lock ends: `mlk_lock` gets it, the time runs out, or the process is interrupted. -/
inductive LockWait where
  | obtained
  | timedOut
  | outofband
deriving DecidableEq, Repr

/-- One pass over the locks of a command: whether `mlk_lock` is blocked at the i-th of them, and how the wait for that one ends. -/
structure LockPass where
  mlkLock : Nat → Bool
  wait : LockWait

/-- How an operation ends. -/
inductive LockResult where
  | success
  | timedOut
  | outofband
  /-- `ERR_LOCKINCR2HIGH`. -/
  | levelErr
  /-- `ERR_BADLOCKNEST`. -/
  | badLockNest
  /-- An error in the argument list. -/
  | abandoned
deriving DecidableEq, Repr

/-- Why an operation does not end: it goes past the end of the chain, or it is still waiting. -/
inductive LockStop where
  | nullPointer
  | waiting
deriving DecidableEq, Repr

section Chain

variable {ρ : Type} [DecidableEq ρ]

/-- The part of `mlk_pvtblk_insert` for a block that is in the chain already. -/
def MlkPvtblk.again (inlist1 : MlkPvtblk ρ) : MlkPvtblk ρ :=
  if inlist1.trans then { inlist1 with translev := inlist1.translev + 1 }
  else { inlist1 with translev := 1, trans := true, old := true }

/-- `mlk_pvtblk_insert`: the block comes to the head of the chain, and is counted when it is named for the first time. -/
def mlkPvtblkInsert (pblk : MlkPvtblk ρ) (s : MlkPvt ρ) : MlkPvt ρ :=
  let root := match s.mlkPvtRoot.find? (fun inlist1 => inlist1.value = pblk.value) with
    | some inlist1 => inlist1.again :: s.mlkPvtRoot.eraseP (fun inlist1 => inlist1.value = pblk.value)
    | none => { pblk with translev := 1, trans := true } :: s.mlkPvtRoot
  { mlkPvtRoot := root
    lksThisCmd := if (root.head?.map MlkPvtblk.translev) = some 1 then s.lksThisCmd + 1 else s.lksThisCmd }

/-- `op_lkname`: `mlk_pvtblk_create` makes a block and gives it to `mlk_pvtblk_insert`. -/
def opLkname (value : ρ) (s : MlkPvt ρ) : MlkPvt ρ :=
  mlkPvtblkInsert { value, translev := 1 } s

/-- The argument list of a command. -/
def opLknames (refs : List ρ) (s : MlkPvt ρ) : MlkPvt ρ :=
  refs.foldl (fun s value => opLkname value s) s

/-- The loop of `lckclr`. -/
def lckclr : Nat → List (MlkPvtblk ρ) → Except LockStop (List (MlkPvtblk ρ))
  | 0, p1 => .ok p1
  | _ + 1, [] => .error .nullPointer
  | i + 1, p1 :: next => do
    let next ← lckclr i next
    return { p1 with trans := false } :: next

/-! ## Locking -/

/-- What `op_lock2` does to a block it has got the lock of, or `none` when the level is as high as it can be. -/
def MlkPvtblk.raise (laflag : LockFlag) (pvtPtr1 : MlkPvtblk ρ) : Option (MlkPvtblk ρ) :=
  match laflag with
  | .cmLocks => some { pvtPtr1 with granted := true, level := 1 }
  | .incremental =>
    if pvtPtr1.level < 511 then
      some { pvtPtr1 with granted := true, level := pvtPtr1.level + pvtPtr1.translev.setWidth 9 }
    else none
  | .cmZallocates => some { pvtPtr1 with granted := true, zalloc := true }

/-- Where a pass over the locks of a command ends, with the chain as it is then: after all of them, at one that is blocked, or at one
whose level is too high. -/
inductive PassEnd (ρ : Type) where
  | all (chain : List (MlkPvtblk ρ))
  | blocked (locksDone : Nat) (chain : List (MlkPvtblk ρ))
  | levelErr (chain : List (MlkPvtblk ρ))

/-- A pass that went on behind one more block. -/
def PassEnd.behind (p : MlkPvtblk ρ) : PassEnd ρ → PassEnd ρ
  | .all chain => .all (p :: chain)
  | .blocked locksDone chain => .blocked (locksDone + 1) (p :: chain)
  | .levelErr chain => .levelErr (p :: chain)

/-- The loop of `op_lock2` over the locks to be obtained, from the i-th on. -/
def lockLoop (laflag : LockFlag) (mlkLock : Nat → Bool) : Nat → Nat → List (MlkPvtblk ρ) → Except LockStop (PassEnd ρ)
  | 0, _, chain => .ok (.all chain)
  | _ + 1, _, [] => .error .nullPointer
  | left + 1, i, pvtPtr1 :: next =>
    if mlkLock i then .ok (.blocked 0 (pvtPtr1 :: next))
    else match pvtPtr1.raise laflag with
      | none => .ok (.levelErr ({ pvtPtr1 with granted := true } :: next))
      | some pvtPtr1 => return (← lockLoop laflag mlkLock left (i + 1) next).behind pvtPtr1

/-- `mlk_bckout`. The level that is left is compared as a number, and it is never below 0. -/
def mlkBckout (p : MlkPvtblk ρ) (action : LockFlag) : MlkPvtblk ρ :=
  if !p.granted then p
  else match action with
    | .incremental =>
      let level := p.level - p.translev.setWidth 9
      if level.toNat ≤ 0 ∧ !p.zalloc then { p with granted := false, level := 0 } else { p with level }
    | .cmZallocates =>
      if p.level = 0 ∧ !p.old then { p with granted := false, zalloc := false }
      else if !p.old then { p with zalloc := false }
      else p
    | .cmLocks =>
      if !p.zalloc then { p with granted := false, level := 0 } else { p with level := 0 }

/-- The back-out of the locks that a pass got. -/
def bckoutLoop (action : LockFlag) (locksDone : Nat) (chain : List (MlkPvtblk ρ)) : List (MlkPvtblk ρ) :=
  (chain.take locksDone).map (mlkBckout · action) ++ chain.drop locksDone

/-- The passes of `op_lock2`. A lock that was blocked and then obtained is kept when it is the first of the chain, which is the one
that `already_locked` can be; else it is given back before the next pass. -/
def lockPasses (laflag : LockFlag) (lks : Nat) :
    Bool → List LockPass → List (MlkPvtblk ρ) → Except LockStop (LockResult × MlkPvt ρ)
  | _, [], _ => .error .waiting
  | alreadyLocked, pass :: passes, chain => do
    match ← lockLoop laflag (fun i => pass.mlkLock i && !(alreadyLocked && i == 0)) lks 0 chain with
    | .all chain => return (.success, { mlkPvtRoot := chain })
    | .levelErr chain => return (.levelErr, { mlkPvtRoot := chain })
    | .blocked locksDone chain =>
      let chain := bckoutLoop laflag locksDone chain
      match pass.wait with
      | .obtained => lockPasses laflag lks (locksDone == 0) passes chain
      | .outofband => return (.outofband, { mlkPvtRoot := chain })
      | .timedOut => return (.timedOut, { mlkPvtRoot := chain.filter (·.granted) })

/-- `op_lock2`. -/
def opLock2 (laflag : LockFlag) (passes : List LockPass) (s : MlkPvt ρ) : Except LockStop (LockResult × MlkPvt ρ) := do
  lockPasses laflag s.lksThisCmd false passes (← lckclr s.lksThisCmd s.mlkPvtRoot)

/-! ## Unlocking -/

/-- The level after `op_decrlock`. -/
def MlkPvtblk.lower (p : MlkPvtblk ρ) : MlkPvtblk ρ :=
  { p with level := p.level - if p.translev.setWidth 9 > p.level then p.level else p.translev.setWidth 9 }

/-- The loop of `op_decrlock`. -/
def decrLoop : Nat → List (MlkPvtblk ρ) → Except LockStop (List (MlkPvtblk ρ))
  | 0, chain => .ok chain
  | _ + 1, [] => .error .nullPointer
  | count + 1, prior :: next =>
    if !prior.granted then decrLoop count next
    else if !prior.lower.zalloc ∧ prior.lower.level = 0 then decrLoop count next
    else return prior.lower :: (← decrLoop count next)

/-- `op_decrlock`, outside of a transaction. -/
def opDecrlock (s : MlkPvt ρ) : Except LockStop (LockResult × MlkPvt ρ) := do
  let chain ← lckclr s.lksThisCmd s.mlkPvtRoot
  return (.success, { mlkPvtRoot := ← decrLoop s.lksThisCmd chain })

/-! ## Commands -/

/-- The incremental lock commands, with their argument lists: `LOCK +`, `LOCK -`, and one of them whose argument list is left by an
error. A lock command inside of an argument list comes after an abandoned one. -/
inductive LockCommand (ρ : Type) where
  | incr (refs : List ρ) (passes : List LockPass)
  | decr (refs : List ρ)
  | abandoned (refs : List ρ)

/-- A command as it is compiled: `op_lkinit`, the argument list, and the operation. -/
def LockCommand.exec (s : MlkPvt ρ) (c : LockCommand ρ) : Except LockStop (LockResult × MlkPvt ρ) :=
  -- op_lkinit
  if s.lksThisCmd ≠ 0 then .ok (.badLockNest, { s with lksThisCmd := 0 })
  else match c with
    | .incr refs passes => opLock2 .incremental passes (opLknames refs s)
    | .decr refs => opDecrlock (opLknames refs s)
    | .abandoned refs => .ok (.abandoned, opLknames refs s)

/-- The level of an nref in a chain, 0 when there is no block of it. -/
def chainLevel (chain : List (MlkPvtblk ρ)) (value : ρ) : BitVec 9 :=
  match chain.find? (fun p => p.value = value) with
  | some p => p.level
  | none => 0

/-- The level of an nref. -/
def MlkPvt.levelOf (s : MlkPvt ρ) (value : ρ) : BitVec 9 := chainLevel s.mlkPvtRoot value

/-! ## What the levels count -/

/-- The nrefs of an argument list in the order in which the operation goes through them: the last one named comes first. -/
def lockOrder (refs : List ρ) : List ρ :=
  refs.foldl (fun l r => r :: l.filter (· ≠ r)) []

/-- How many increments of an nref a command makes that ends as told, when the nrefs are held as often as told. A command that meets
an nref which cannot be incremented any more has incremented those before it. -/
def LockCommand.made (held : ρ → Nat) : LockCommand ρ → LockResult → ρ → Nat
  | .incr refs _, .success, r => refs.count r
  | .incr refs _, .levelErr, r => if r ∈ (lockOrder refs).takeWhile (fun r => held r < 511) then refs.count r else 0
  | _, _, _ => 0

/-- How many decrements of an nref a command makes. One of an nref that is not held is none. -/
def LockCommand.taken (held : ρ → Nat) : LockCommand ρ → LockResult → ρ → Nat
  | .decr refs, .success, r => min (refs.count r) (held r)
  | _, _, _ => 0

/-- The increments and the decrements of each nref so far. -/
structure LockLedger (ρ : Type) where
  incs : ρ → Nat := fun _ => 0
  decs : ρ → Nat := fun _ => 0

/-- How often an nref is held. -/
def LockLedger.held (led : LockLedger ρ) (r : ρ) : Nat := led.incs r - led.decs r

/-- The entry of a command in the ledger. -/
def LockLedger.enter (led : LockLedger ρ) (c : LockCommand ρ) (res : LockResult) : LockLedger ρ where
  incs r := led.incs r + c.made led.held res r
  decs r := led.decs r + c.taken led.held res r

/-- The runs of lock commands of a process, each of which meets a condition. -/
inductive LockRun (cond : MlkPvt ρ → LockCommand ρ → Prop) : MlkPvt ρ → LockLedger ρ → Prop where
  | start : LockRun cond {} {}
  | step {s s' : MlkPvt ρ} {led : LockLedger ρ} {c : LockCommand ρ} {res : LockResult} :
    LockRun cond s led → cond s c → c.exec s = .ok (res, s') → LockRun cond s' (led.enter c res)

/-- An argument list that is counted right: no nref stands in it 256 times, and none was left marked as named by a list that an error
ended. -/
def MlkPvt.Countable (s : MlkPvt ρ) (refs : List ρ) : Prop :=
  ∀ r ∈ refs, refs.count r < 256 ∧ ∀ p ∈ s.mlkPvtRoot, p.value = r → p.trans = false

instance (s : MlkPvt ρ) (refs : List ρ) : Decidable (s.Countable refs) :=
  inferInstanceAs (Decidable (∀ r ∈ refs, _ ∧ ∀ p ∈ s.mlkPvtRoot, _ → _))

/-- A command that the fields of the blocks have room for: its argument list is counted right, and each nref that it increments is
either at the highest level already or does not get above it. A command that is refused as nested needs nothing. -/
def LockCommand.Fits (s : MlkPvt ρ) : LockCommand ρ → Prop
  | .incr refs _ => s.lksThisCmd = 0 →
    s.Countable refs ∧ ∀ r ∈ refs, s.levelOf r = 511 ∨ (s.levelOf r).toNat + refs.count r ≤ 511
  | .decr refs => s.lksThisCmd = 0 → s.Countable refs
  | .abandoned _ => True

end Chain

end Gtm
