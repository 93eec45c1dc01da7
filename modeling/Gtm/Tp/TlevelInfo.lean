import Mathlib

/-!
# Nested transaction levels

What a process keeps for each region of a transaction to undo its inner levels: `op_tstart` notes how far the read set, the list of
blocks to kill and the update flag of every region have got, `tp_incr_commit` drops the notes of the innermost level, and
`tp_incr_clean_up` goes back to them (`tp.h`, `op_tstart.c`, `tp_set_sgm.c`, `tp_incr_commit.c`, `tp_incr_clean_up.c`). The notes of
a region are linked elements of a buddy list. An element, a kill set and an entry of the read set are known by their number, which
does not change when the read set is moved; a pointer to one is that number, with `none` for `NULL`.
-/

namespace Gtm

/-- A block to be killed at commit (`blk_ident`). -/
structure BlkIdent where
  block : Nat
  level : Nat
  flag : Nat
deriving DecidableEq, Repr

/-- `BLKS_IN_KILL_SET`. -/
def blksInKillSet : Nat := 251

/-- The notes of one region about one level (`tlevel_info`). -/
structure TlevelInfo where
  nextTlevelInfo : Option Nat := none
  tlvlKillSet : Option Nat := none
  tlvlKillUsed : Nat := 0
  tlvlTpHistInfo : Nat := 0
  tLevel : Nat := 0
  updateTrans : Nat := 0

/-- What a transaction keeps for a region (`sgm_info`). `tpHist` has the block numbers from `first_tp_hist` up to `last_tp_hist`, a
kill set is the list of its `used` entries, and `tlvlInfo` are the elements of the buddy list, of which the first `tlvlElems` are in
use. -/
structure SgmInfo where
  region : Nat
  tpHist : List Nat := []
  blksInUse : Nat → Option Nat := fun _ => none
  numOfBlks : Nat := 0
  killSets : List (List BlkIdent) := []
  killSetTail : Option Nat := none
  updateTrans : Nat := 0
  tlvlInfoHead : Option Nat := none
  tlvlInfo : Nat → TlevelInfo := fun _ => {}
  tlvlElems : Nat := 0

namespace SgmInfo

/-! ## Work on a region -/

/-- A block that is read goes into the read set, if it is not there (`tp_hist`). -/
def addHist (si : SgmInfo) (blk : Nat) : SgmInfo :=
  match si.blksInUse blk with
  | some _ => si
  | none =>
    { si with
      blksInUse := Function.update si.blksInUse blk (some si.tpHist.length)
      numOfBlks := si.numOfBlks + 1
      tpHist := si.tpHist ++ [blk] }

/-- The kill set from number `ks` on that has room, and the kill sets with a new one at the end if need be. -/
def findRoom : Nat → Nat → List (List BlkIdent) → Nat × List (List BlkIdent)
  | 0, ks, sets => (ks, sets)
  | fuel + 1, ks, sets =>
    if blksInKillSet ≤ (sets.getD ks []).length then
      findRoom fuel (ks + 1) (if ks + 1 < sets.length then sets else sets ++ [[]])
    else (ks, sets)

/-- A block put into the kill sets (`gvcst_delete_blk`). Only the first one moves `kill_set_tail`. -/
def deleteBlk (si : SgmInfo) (e : BlkIdent) : SgmInfo :=
  let tail := si.killSetTail.getD 0
  let sets := if si.killSetTail = none then [[]] else si.killSets
  let room := findRoom (sets.length + 1) tail sets
  { si with killSets := room.2.modify room.1 (fun ks => ks ++ [e]), killSetTail := some tail }

/-! ## The list of notes -/

/-- A walk along the list from element `tli`, past the levels below `bound`: the last element passed, or `prev`, and the element
at which it stopped. -/
def walkBelow (si : SgmInfo) (bound : Nat) : Nat → Option Nat → Option Nat → Option Nat × Option Nat
  | 0, tli, prev => (prev, tli)
  | _ + 1, none, prev => (prev, none)
  | fuel + 1, some k, prev =>
    if bound ≤ (si.tlvlInfo k).tLevel then (prev, some k)
    else si.walkBelow bound fuel (si.tlvlInfo k).nextTlevelInfo (some k)

/-- The elements from `tli` to the end of the list. -/
def tlvlWalk (si : SgmInfo) : Nat → Option Nat → List Nat
  | 0, _ => []
  | _ + 1, none => []
  | fuel + 1, some k => k :: si.tlvlWalk fuel (si.tlvlInfo k).nextTlevelInfo

/-- The elements of the list; one more step is made than there are elements in use. -/
def tlvlList (si : SgmInfo) : List Nat := si.tlvlWalk (si.tlvlElems + 1) si.tlvlInfoHead

/-- `next_tlevel_info` of an element set. -/
def setNext (si : SgmInfo) (k : Nat) (next : Option Nat) : SgmInfo :=
  { si with tlvlInfo := Function.update si.tlvlInfo k { si.tlvlInfo k with nextTlevelInfo := next } }

/-- The notes that `op_tstart` makes at the start of level `dollarTlevel`. -/
def notes (si : SgmInfo) (dollarTlevel : Nat) : TlevelInfo :=
  { nextTlevelInfo := none
    tlvlKillSet := if si.killSets = [] then none else some (si.killSets.length - 1)
    tlvlKillUsed := (si.killSets.getLast?.getD []).length
    tlvlTpHistInfo := si.tpHist.length
    tLevel := dollarTlevel
    updateTrans := si.updateTrans }

/-- A new element of the buddy list. -/
def newElement (si : SgmInfo) (t : TlevelInfo) : SgmInfo :=
  { si with tlvlInfo := Function.update si.tlvlInfo si.tlvlElems t, tlvlElems := si.tlvlElems + 1 }

/-- The notes put at the end of the list, as `op_tstart` does for every region. -/
def tstart (dollarTlevel : Nat) (si : SgmInfo) : SgmInfo :=
  match si.tlvlList.getLast? with
  | some prev => (si.newElement (si.notes dollarTlevel)).setNext prev (some si.tlvlElems)
  | none => { si.newElement (si.notes dollarTlevel) with tlvlInfoHead := some si.tlvlElems }

/-- The list cut off after element `prev`, or at its head. -/
def cutAfter (si : SgmInfo) (prev : Option Nat) : SgmInfo :=
  match prev with
  | some k => si.setNext k none
  | none => { si with tlvlInfoHead := none }

/-- The blocks of the read set from place `k` on taken out of the table of blocks in use. -/
def dropHist (si : SgmInfo) (k : Nat) : SgmInfo :=
  { si with
    blksInUse := (si.tpHist.drop k).foldl (fun t blk => Function.update t blk none) si.blksInUse
    numOfBlks := si.numOfBlks - (si.tpHist.drop k).length
    tpHist := si.tpHist.take k }

/-- The region taken back to the notes `tli`. -/
def undoTo (si : SgmInfo) (tli : TlevelInfo) : SgmInfo :=
  { si.dropHist tli.tlvlTpHistInfo with
    killSets :=
      match tli.tlvlKillSet with
      | some ks => (si.killSets.take (ks + 1)).modify ks (fun e => e.take tli.tlvlKillUsed)
      | none => []
    killSetTail := tli.tlvlKillSet
    updateTrans := tli.updateTrans }

/-- The region with nothing in it but its notes. -/
def undoAll (si : SgmInfo) : SgmInfo :=
  { si with killSets := [], killSetTail := none, blksInUse := fun _ => none, numOfBlks := 0, updateTrans := 0, tpHist := [] }

/-- `free_last_n_elements` of the buddy list. -/
def freeLast (si : SgmInfo) (n : Nat) : SgmInfo := { si with tlvlElems := si.tlvlElems - n }

/-- `rollbk_sgm_tlvl_info`. -/
def rollbkTlvlInfo (newlevel : Nat) (si : SgmInfo) : SgmInfo :=
  let w := si.walkBelow (newlevel + 1) (si.tlvlElems + 1) si.tlvlInfoHead none
  let undone :=
    match w.2 with
    | some k => if (si.tlvlInfo k).tLevel = newlevel + 1 then si.undoTo (si.tlvlInfo k) else si.undoAll
    | none => si.undoAll
  (undone.freeLast (si.tlvlWalk (si.tlvlElems + 1) w.2).length).cutAfter w.1

end SgmInfo

/-! ## The regions of a transaction -/

/-- A transaction: `$TLEVEL` and the regions it uses, from `first_sgm_info` on. -/
structure TpState where
  tlevel : Nat
  sgms : List SgmInfo

/-- The loop of `tp_incr_commit` over the regions, with those it has done. The previous element is kept from one region to the next;
it is an element of the region with the given number. -/
def incrCommitLoop (dollarTlevel : Nat) : List SgmInfo → Option (Nat × Nat) → List SgmInfo → List SgmInfo
  | done, _, [] => done
  | done, prevTli, si :: rest =>
    let w := si.walkBelow dollarTlevel (si.tlvlElems + 1) si.tlvlInfoHead none
    let prevTli' :=
      match w.1 with
      | some k => some (done.length, k)
      | none => prevTli
    let all := done ++ [if w.2.isSome then si.freeLast 1 else si]
    incrCommitLoop dollarTlevel
      (match prevTli' with
        | some (i, k) => all.modify i (fun sj => sj.setNext k none)
        | none => all.modify done.length (fun sj => { sj with tlvlInfoHead := none }))
      prevTli' rest

namespace TpState

/-- `tp_set_sgm`: a region that is not in use is put in front. -/
def setSgm (s : TpState) (region : Nat) : TpState :=
  if s.sgms.any (fun si => si.region = region) then s else { s with sgms := { region := region } :: s.sgms }

/-- `op_tstart`. -/
def tstart (s : TpState) : TpState := { tlevel := s.tlevel + 1, sgms := s.sgms.map (SgmInfo.tstart (s.tlevel + 1)) }

/-- `tp_incr_commit`, and `$TLEVEL` lowered as `op_tcommit` does after it. -/
def incrCommit (s : TpState) : TpState := { tlevel := s.tlevel - 1, sgms := incrCommitLoop s.tlevel [] none s.sgms }

/-- `tp_incr_clean_up`, and `$TLEVEL` set as `op_trollback` does after it. -/
def incrCleanUp (newlevel : Nat) (s : TpState) : TpState :=
  { tlevel := newlevel, sgms := s.sgms.map (SgmInfo.rollbkTlvlInfo newlevel) }

/-- Work on one region. -/
def onRegion (s : TpState) (region : Nat) (f : SgmInfo → SgmInfo) : TpState :=
  { s with sgms := s.sgms.map (fun si => if si.region = region then f si else si) }

end TpState

/-- What can happen in a transaction. -/
inductive TpStep where
  | tstart
  | setSgm (region : Nat)
  | incrCommit
  | incrCleanUp (newlevel : Nat)
  | addHist (region blk : Nat)
  | deleteBlk (region : Nat) (e : BlkIdent)
  | setUpdateTrans (region v : Nat)

/-- The steps that callers make: only an inner level is committed or rolled back to. -/
def TpStep.Allowed (tlevel : Nat) : TpStep → Prop
  | .incrCommit => 1 < tlevel
  | .incrCleanUp newlevel => 0 < newlevel ∧ newlevel < tlevel
  | _ => True

/-- One step of a transaction. -/
def TpState.step (s : TpState) : TpStep → TpState
  | .tstart => s.tstart
  | .setSgm r => s.setSgm r
  | .incrCommit => s.incrCommit
  | .incrCleanUp n => s.incrCleanUp n
  | .addHist r blk => s.onRegion r (fun si => si.addHist blk)
  | .deleteBlk r e => s.onRegion r (fun si => si.deleteBlk e)
  | .setUpdateTrans r v => s.onRegion r (fun si => { si with updateTrans := v })

/-! ## What it is for -/

/-- What a rollback brings back of a region. -/
structure SgmData where
  tpHist : List Nat
  kills : List BlkIdent
  blksInUse : Nat → Option Nat
  numOfBlks : Nat
  updateTrans : Nat

/-- A region without any work done. -/
def SgmData.empty : SgmData := { tpHist := [], kills := [], blksInUse := fun _ => none, numOfBlks := 0, updateTrans := 0 }

def SgmInfo.data (si : SgmInfo) : SgmData :=
  { tpHist := si.tpHist, kills := si.killSets.flatten, blksInUse := si.blksInUse, numOfBlks := si.numOfBlks
    updateTrans := si.updateTrans }

/-- A transaction with a copy of every region at the start of each level: `started l r` is region `r` when level `l` was started,
and `none` if it was not in use. -/
structure TpSpec where
  tlevel : Nat
  cur : Nat → Option SgmData
  started : Nat → Nat → Option SgmData

namespace TpSpec

/-- Work on one region, if it is in use. -/
def onRegion (a : TpSpec) (region : Nat) (f : SgmData → SgmData) : TpSpec :=
  { a with cur := Function.update a.cur region ((a.cur region).map f) }

/-- One step: a start of a level copies the regions, and a rollback goes back to the copies, with nothing for a region that was not
in use. -/
def step (a : TpSpec) : TpStep → TpSpec
  | .tstart => { a with tlevel := a.tlevel + 1, started := Function.update a.started (a.tlevel + 1) a.cur }
  | .setSgm r => { a with cur := Function.update a.cur r (some ((a.cur r).getD .empty)) }
  | .incrCommit => { a with tlevel := a.tlevel - 1 }
  | .incrCleanUp n =>
    { a with tlevel := n, cur := fun r => (a.cur r).map (fun _ => (a.started (n + 1) r).getD .empty) }
  | .addHist r blk =>
    a.onRegion r (fun d =>
      match d.blksInUse blk with
      | some _ => d
      | none =>
        { d with
          blksInUse := Function.update d.blksInUse blk (some d.tpHist.length)
          numOfBlks := d.numOfBlks + 1
          tpHist := d.tpHist ++ [blk] })
  | .deleteBlk r e => a.onRegion r (fun d => { d with kills := d.kills ++ [e] })
  | .setUpdateTrans r v => a.onRegion r (fun d => { d with updateTrans := v })

end TpSpec

/-- The two transactions after the same steps, from the start of the outermost level on. -/
inductive TpRun : TpState → TpSpec → Prop where
  | start : TpRun { tlevel := 1, sgms := [] } { tlevel := 1, cur := fun _ => none, started := fun _ _ => none }
  | step (s : TpState) (a : TpSpec) (c : TpStep) : TpRun s a → c.Allowed s.tlevel → TpRun (s.step c) (a.step c)

/-- The list of notes of a region at level `tlevel`: its elements are those of the buddy list in use, in their order; their levels
are consecutive and end at `tlevel`; and they are the levels at whose start the region was in use. -/
structure TlvlListOk (tlevel : Nat) (started : Nat → Option SgmData) (si : SgmInfo) : Prop where
  elements : si.tlvlList = List.range si.tlvlElems
  levels : ∀ i, i < si.tlvlElems → (si.tlvlInfo i).tLevel + si.tlvlElems = tlevel + 1 + i
  inUse : ∀ l, 1 < l → l ≤ tlevel → ((started l).isSome = true ↔ ∃ i, i < si.tlvlElems ∧ (si.tlvlInfo i).tLevel = l)

end Gtm
