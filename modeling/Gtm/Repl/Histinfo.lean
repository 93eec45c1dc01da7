import Mathlib

/-!
# The history of a replication instance

The history records of an instance file and the operations on them (`repl_instance.c`): a record is added at the end, or in place
of the last one; records are looked up by sequence number along the chain of their stream; and a rollback takes records off the
end. Record numbers are `none` where the source has `INVALID_HISTINFO_NUM`.
-/

namespace Gtm

/-- The kinds of history record (`HISTINFO_TYPE_*`). -/
inductive HistinfoType where
  | normal
  | updresync
  | noresync
deriving DecidableEq, Repr

/-- The streams of updates: `0` for the instance itself, the others for the instances it receives from. -/
abbrev Stream := Fin 16

/-- A history record (`repl_histinfo`). A `lmsGroup` of `0` is the null UUID. -/
structure ReplHistinfo where
  rootPrimaryInstname : String
  startSeqno : Nat
  strmSeqno : Nat
  rootPrimaryCycle : Nat
  creatorPid : Nat
  createdTime : Nat
  histinfoNum : Nat := 0
  prevHistinfoNum : Option Nat := none
  strmIndex : Stream
  historyType : HistinfoType
  lmsGroup : Nat := 0
  lastHistinfoNum : Stream → Option Nat := fun _ => none

/-- An instance file: its header (`repl_inst_hdr`) and the records in it. Only the first `numHistinfo` records are in use. -/
structure ReplInst where
  isSupplementary : Bool
  numHistinfo : Nat
  numAllocHistinfo : Nat
  lastHistinfoNum : Stream → Option Nat
  strmGroupInfo : Fin 15 → Nat
  strmSeqno : Stream → Nat
  jnlSeqno : Nat
  hist : Nat → ReplHistinfo

/-- What the journal pool says about the instance: whether updates are disabled, and the current sequence number. -/
structure JnlpoolCtl where
  updDisabled : Bool
  jnlSeqno : Nat

inductive ReplError where
  | replInstSeqOrd (startSeqno lastStartSeqno : Nat)
deriving DecidableEq, Repr

/-- The record number before `n`. -/
def prevNum : Nat → Option Nat
  | 0 => none
  | n + 1 => some n

namespace ReplInst

/-- `repl_inst_histinfo_get`. -/
def histinfoGet (inst : ReplInst) (index : Nat) : Option ReplHistinfo :=
  if index < inst.numAllocHistinfo then some (inst.hist index) else none

/-- The sequence number that a search in stream `strm`, or in all streams, goes by. -/
def curSeqno (strm : Option Stream) (h : ReplHistinfo) : Nat :=
  match strm with
  | some s => if 0 < s then h.strmSeqno else h.startSeqno
  | none => h.startSeqno

/-- The loop of `repl_inst_histinfo_find_seqno`, from record number `histnum` on. -/
def findSeqnoLoop (inst : ReplInst) (seqno : Nat) (strm : Option Stream) : Nat → Option Nat → Option ReplHistinfo
  | 0, _ => none
  | _ + 1, none => none
  | fuel + 1, some n =>
    match inst.histinfoGet n with
    | none => none
    | some h =>
      if curSeqno strm h < seqno then some h
      else inst.findSeqnoLoop seqno strm fuel (if strm = none then prevNum n else h.prevHistinfoNum)

/-- `repl_inst_histinfo_find_seqno`, in one stream or, for `none`, in all; no record is `ERR_REPLINSTNOHIST`. -/
def histinfoFindSeqno (inst : ReplInst) (seqno : Nat) (strm : Option Stream) : Option ReplHistinfo :=
  inst.findSeqnoLoop seqno strm (inst.numHistinfo + 1)
    (match strm with
      | none => prevNum inst.numHistinfo
      | some s => inst.lastHistinfoNum s)

/-- `CONVERT_NONSUPPL2SUPPL_HISTINFO`, where `repl_inst_histinfo_add` does it. -/
def convert (ctl : JnlpoolCtl) (h : ReplHistinfo) : ReplHistinfo :=
  if h.strmIndex ≠ 0 ∧ ctl.updDisabled = false then
    { h with strmSeqno := h.startSeqno, startSeqno := ctl.jnlSeqno }
  else h

/-- Two records that the same start of the same root primary made. -/
def sameContent (a b : ReplHistinfo) : Bool :=
  a.rootPrimaryInstname = b.rootPrimaryInstname && a.rootPrimaryCycle = b.rootPrimaryCycle && a.creatorPid = b.creatorPid &&
    a.createdTime = b.createdTime

/-- The walk back along a chain for a `NORESYNC` record: past the records, from number `num` on, whose stream sequence number is
not below that of the record to be added. -/
def noresyncPrev (inst : ReplInst) (strmSeqno : Nat) : Nat → Nat → Option Nat
  | 0, num => some num
  | fuel + 1, num =>
    if strmSeqno ≤ (inst.hist num).strmSeqno then
      match (inst.hist num).prevHistinfoNum with
      | none => none
      | some p => inst.noresyncPrev strmSeqno fuel p
    else some num

/-- The record before `h` in the chain of its stream, when `last` is the number of the newest record of the stream. -/
def prevFor (inst : ReplInst) (h : ReplHistinfo) (last : Nat) : Option Nat :=
  if h.strmSeqno = (inst.hist last).strmSeqno then
    if h.strmSeqno ≠ 0 ∧ h.strmIndex ≠ 0 ∨ h.startSeqno = (inst.hist last).startSeqno then (inst.hist last).prevHistinfoNum
    else some last
  else if h.historyType = .noresync then inst.noresyncPrev h.strmSeqno inst.numHistinfo last
  else some last

/-- Whether `h` takes the place of the last record of the file. -/
def overwrites (inst : ReplInst) (h : ReplHistinfo) (last : Nat) : Bool :=
  h.strmSeqno = (inst.hist last).strmSeqno && h.startSeqno = (inst.hist last).startSeqno && last + 1 = inst.numHistinfo &&
    h.historyType = (inst.hist last).historyType

/-- The record that is written as number `num`, when the newest record of its stream has number `last`. -/
def filled (inst : ReplInst) (h : ReplHistinfo) (num : Nat) (last prev : Option Nat) : ReplHistinfo :=
  { h with
    histinfoNum := num
    prevHistinfoNum := if h.historyType = .updresync then none else prev
    lastHistinfoNum := fun idx =>
      if last = some num ∧ idx = h.strmIndex then (inst.hist (inst.numHistinfo - 1)).lastHistinfoNum idx
      else inst.lastHistinfoNum idx }

/-- The record written to the file, and the header brought up to date. -/
def write (inst : ReplInst) (ctl : JnlpoolCtl) (h : ReplHistinfo) (num : Nat) : ReplInst :=
  { inst with
    hist := Function.update inst.hist num h
    lastHistinfoNum := Function.update inst.lastHistinfoNum h.strmIndex (some num)
    strmGroupInfo := fun i =>
      if h.historyType = .updresync ∧ i.val + 1 = h.strmIndex.val then h.lmsGroup else inst.strmGroupInfo i
    numHistinfo := num + 1
    numAllocHistinfo := max inst.numAllocHistinfo (num + 1)
    jnlSeqno := ctl.jnlSeqno }

/-- `repl_inst_histinfo_add`. -/
def histinfoAdd (inst : ReplInst) (ctl : JnlpoolCtl) (histinfo : ReplHistinfo) : Except ReplError ReplInst :=
  let h := convert ctl histinfo
  let num := inst.numHistinfo
  if 0 < num ∧ h.startSeqno < (inst.hist (num - 1)).startSeqno then
    .error (.replInstSeqOrd h.startSeqno (inst.hist (num - 1)).startSeqno)
  else
    match inst.lastHistinfoNum h.strmIndex with
    | none => .ok (inst.write ctl (inst.filled h num none none) num)
    | some last =>
      if (inst.isSupplementary = false ∨ h.historyType ≠ .updresync) ∧ sameContent (inst.hist last) h then .ok inst
      else
        let at' := if inst.overwrites h last then num - 1 else num
        .ok (inst.write ctl (inst.filled h at' (some last) (inst.prevFor h last)) at')

/-- `repl_inst_histinfo_truncate`, with the `start_seqno` of the last record that is left. -/
def histinfoTruncate (inst : ReplInst) (rollbackSeqno : Nat) : ReplInst × Nat :=
  if inst.numHistinfo = 0 then ({ inst with jnlSeqno := rollbackSeqno }, 0)
  else
    match inst.histinfoFindSeqno rollbackSeqno none with
    | none =>
      ({ inst with
          lastHistinfoNum := fun _ => none
          strmSeqno := fun s =>
            if inst.isSupplementary ∧ (∀ i : Fin 15, i.val + 1 = s.val → inst.strmGroupInfo i ≠ 0) ∧ inst.strmSeqno s = 0 then 1
            else inst.strmSeqno s
          numHistinfo := 0
          jnlSeqno := rollbackSeqno }, 0)
    | some temp =>
      let index := temp.histinfoNum
      if index + 1 < inst.numHistinfo then
        let next := inst.hist (index + 1)
        ({ inst with
            lastHistinfoNum := next.lastHistinfoNum
            strmGroupInfo := fun i =>
              match inst.isSupplementary, next.lastHistinfoNum ⟨i.val + 1, by omega⟩ with
              | true, some n => (inst.hist n).lmsGroup
              | _, _ => inst.strmGroupInfo i
            strmSeqno := fun s =>
              if inst.isSupplementary ∧ s ≠ 0 ∧ next.lastHistinfoNum s = none ∧
                  (∀ i : Fin 15, i.val + 1 = s.val → inst.strmGroupInfo i ≠ 0) then 1
              else inst.strmSeqno s
            numHistinfo := index + 1
            jnlSeqno := rollbackSeqno }, temp.startSeqno)
      else ({ inst with numHistinfo := index + 1, jnlSeqno := rollbackSeqno }, temp.startSeqno)

end ReplInst

/-! ## Runs -/

/-- An instance file as it is created. -/
def ReplInst.Created (inst : ReplInst) : Prop := inst.numHistinfo = 0 ∧ ∀ s, inst.lastHistinfoNum s = none

/-- The instance files that are reached by adding records that `ok` allows and by truncation. -/
inductive HistinfoRun (ok : ReplInst → ReplHistinfo → Prop) : ReplInst → Prop where
  | created (inst : ReplInst) : inst.Created → HistinfoRun ok inst
  | add (inst inst' : ReplInst) (ctl : JnlpoolCtl) (h : ReplHistinfo) : HistinfoRun ok inst → ok inst (ReplInst.convert ctl h) →
      inst.histinfoAdd ctl h = .ok inst' → HistinfoRun ok inst'
  | truncate (inst : ReplInst) (rollbackSeqno : Nat) : HistinfoRun ok inst →
      HistinfoRun ok (inst.histinfoTruncate rollbackSeqno).1

/-! ## What the history is -/

/-- The newest record of stream `s` among the first `n`. -/
def newestBefore (hist : Nat → ReplHistinfo) (s : Stream) : Nat → Option Nat
  | 0 => none
  | n + 1 => if (hist n).strmIndex = s then some n else newestBefore hist s n

/-- The sequence number that the chain of a record's stream goes by. -/
def ReplHistinfo.seqno (h : ReplHistinfo) : Nat := ReplInst.curSeqno (some h.strmIndex) h

/-- The records that a search for `seqno` in `strm` may return: those in use, of the stream and at or after its last
`UPDATERESYNC` record, with a sequence number below `seqno`. -/
def ReplInst.Eligible (inst : ReplInst) (seqno : Nat) (strm : Option Stream) (n : Nat) : Prop :=
  n < inst.numHistinfo ∧ ReplInst.curSeqno strm (inst.hist n) < seqno ∧
    ∀ s, strm = some s → (inst.hist n).strmIndex = s ∧
      ∀ k, n < k → k < inst.numHistinfo → (inst.hist k).strmIndex = s → (inst.hist k).historyType ≠ .updresync

/-- The header has the newest record of each stream. -/
def ReplInst.HeaderNewest (inst : ReplInst) : Prop :=
  ∀ s, inst.lastHistinfoNum s = newestBefore inst.hist s inst.numHistinfo

/-- Each record has what the header had before it. -/
def ReplInst.RecordsHeader (inst : ReplInst) : Prop :=
  ∀ n, n < inst.numHistinfo → ∀ s, (inst.hist n).lastHistinfoNum s = newestBefore inst.hist s n

/-- Chains stay in their stream and go down, in record number and in sequence number. -/
def ReplInst.ChainsDecrease (inst : ReplInst) : Prop :=
  ∀ n p, n < inst.numHistinfo → (inst.hist n).prevHistinfoNum = some p →
    p < n ∧ (inst.hist p).strmIndex = (inst.hist n).strmIndex ∧ (inst.hist p).seqno < (inst.hist n).seqno

/-- A search returns the newest record it may return, and an error exactly when there is none. -/
def ReplInst.FindsNewest (inst : ReplInst) : Prop :=
  ∀ seqno strm,
    (∀ h, inst.histinfoFindSeqno seqno strm = some h ↔ ∃ n, IsGreatest {n | inst.Eligible seqno strm n} n ∧ inst.hist n = h) ∧
      (inst.histinfoFindSeqno seqno strm = none ↔ ∀ n, ¬ inst.Eligible seqno strm n)

/-- A truncation leaves exactly the records that start below the given sequence number, as they were, and a header that is right
for them. -/
def ReplInst.TruncatesTo (inst : ReplInst) : Prop :=
  ∀ r, (inst.histinfoTruncate r).1.hist = inst.hist ∧
    (∀ n, n < (inst.histinfoTruncate r).1.numHistinfo ↔ n < inst.numHistinfo ∧ (inst.hist n).startSeqno < r) ∧
    (inst.histinfoTruncate r).1.HeaderNewest

/-! ## The records that are added -/

/-- The sequence numbers of a record that is added, next to those of the newest record of its stream. -/
structure Ordered (inst : ReplInst) (h : ReplHistinfo) : Prop where
  start_ne : h.startSeqno ≠ 0
  strm_ne : h.strmIndex ≠ 0 → h.strmSeqno ≠ 0
  strm_le : h.strmIndex ≠ 0 → h.historyType = .normal →
    ∀ n, newestBefore inst.hist h.strmIndex inst.numHistinfo = some n → (inst.hist n).strmSeqno ≤ h.strmSeqno
  start_eq : h.strmIndex = 0 → ∀ n, newestBefore inst.hist 0 inst.numHistinfo = some n →
    (inst.hist n).startSeqno = h.startSeqno → (inst.hist n).strmSeqno = h.strmSeqno

/-- No `NORESYNC` record goes back in stream `0`. -/
def NoresyncOrdered (inst : ReplInst) (h : ReplHistinfo) : Prop :=
  h.strmIndex = 0 → h.historyType = .noresync →
    ∀ n, newestBefore inst.hist 0 inst.numHistinfo = some n → (inst.hist n).strmSeqno ≤ h.strmSeqno

end Gtm
