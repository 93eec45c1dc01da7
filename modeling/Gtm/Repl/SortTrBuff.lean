import Mathlib

/-!
# Sorting a transaction buffer

The receiver gets the journal records of a transaction region by region. They are merged by their update number, in the buffer, with a private
copy of it as the source. A read or write outside a buffer or an array has no result, nor has a loop that does not end.
-/

namespace Gtm

namespace SortBuf

/-! ## Journal records -/

/-- Two bytes of a buffer. -/
def u16At (b : List UInt8) (off : Nat) : Option Nat :=
  match b.drop off with
  | b₀ :: b₁ :: _ => some (b₀.toNat + 256 * b₁.toNat)
  | _ => none

/-- Four bytes of a buffer. -/
def u32At (b : List UInt8) (off : Nat) : Option Nat :=
  match b.drop off with
  | b₀ :: b₁ :: b₂ :: b₃ :: _ => some (b₀.toNat + 256 * (b₁.toNat + 256 * (b₂.toNat + 256 * b₃.toNat)))
  | _ => none

/-- The type and the length in the first word of a record. -/
def jrecType (word : Nat) : Nat := word % 256
def forwptr (word : Nat) : Nat := word / 256

/-- Where the fields are, and how long the prefix and a TCOM record are. -/
def JREC_PREFIX_SIZE : Nat := 24
def UPDATE_NUM : Nat := 40
def NUM_PARTICIPANTS : Nat := 42
def TCOM_SIZE : Nat := 56

def JRT_TCOM : Nat := 17

def TUPDREC : Nat := 0x1
def UUPDREC : Nat := 0x2
def TCOMREC : Nat := 0x4
def FUPDREC : Nat := 0x10
def GUPDREC : Nat := 0x20
def ZTCOMREC : Nat := 0x40
def SETREC : Nat := 0x100
def KILLREC : Nat := 0x200
def ZKILLREC : Nat := 0x400
def ZTWORMREC : Nat := 0x800
def ZTRIGREC : Nat := 0x1000
def LGTRIGREC : Nat := 0x2000

/-- `jrt_update`. -/
def jrtUpdate : List Nat :=
  [0, 0, 0, ZTCOMREC, KILLREC, KILLREC ||| FUPDREC, KILLREC ||| GUPDREC, SETREC, SETREC ||| FUPDREC, SETREC ||| GUPDREC, 0, 0, 0,
    KILLREC ||| TUPDREC, KILLREC ||| UUPDREC, SETREC ||| TUPDREC, SETREC ||| UUPDREC, TCOMREC, 0, 0, ZKILLREC, ZKILLREC ||| FUPDREC,
    ZKILLREC ||| GUPDREC, ZKILLREC ||| TUPDREC, ZKILLREC ||| UUPDREC, 0, 0, 0, ZTWORMREC ||| TUPDREC, ZTWORMREC ||| UUPDREC,
    ZTRIGREC ||| TUPDREC, ZTRIGREC ||| UUPDREC, 0, 0, LGTRIGREC ||| TUPDREC, LGTRIGREC ||| UUPDREC]

/-- The entry of a type; `beyond` is what is in memory behind the table. -/
def updateFlags (beyond : Nat → Nat) (rectype : Nat) : Nat :=
  match jrtUpdate[rectype]? with
  | some f => f
  | none => beyond rectype

/-- `IS_TUPD`. -/
def isTupd (beyond : Nat → Nat) (rectype : Nat) : Bool := updateFlags beyond rectype &&& TUPDREC ≠ 0

/-- `IS_SET_KILL_ZKILL_ZTWORM_LGTRIG_ZTRIG`. -/
def isUpdate (beyond : Nat → Nat) (rectype : Nat) : Bool :=
  updateFlags beyond rectype &&& (SETREC ||| KILLREC ||| ZKILLREC ||| ZTWORMREC ||| LGTRIGREC ||| ZTRIGREC) ≠ 0

/-! ## The walk over the records -/

/-- `reg_jrec_info_t`. -/
structure RegJrecInfo where
  workingOffset : Nat
  endOffset : Nat

/-- The variables of the walk. -/
structure Scan where
  alreadySorted : Bool
  prevUpdnum : Nat
  maxUpdnum : Nat
  regIdx : Nat
  balanced : Int
  firstTcomOffset : Nat
  regs : List RegJrecInfo

/-- The begin of a new region's transaction. -/
def beginRegion (s : Scan) (tb : Nat) : Option Scan :=
  if s.regIdx < s.regs.length then
    let regs := s.regs.modify s.regIdx fun r => { r with workingOffset := tb }
    let regs := if 0 < s.regIdx then regs.modify (s.regIdx - 1) fun r => { r with endOffset := tb } else regs
    some { s with balanced := s.balanced + 1, regs := regs, regIdx := s.regIdx + 1 }
  else none

/-- One update record. -/
def scanUpdate (beyond : Nat → Nat) (rectype curUpdnum tb : Nat) (s : Scan) : Option Scan := do
  let s := { s with alreadySorted := s.alreadySorted && decide (s.prevUpdnum ≤ curUpdnum), maxUpdnum := max s.maxUpdnum curUpdnum }
  let s ← if isTupd beyond rectype then beginRegion s tb else some s
  return { s with prevUpdnum := curUpdnum }

/-- One TCOM record. -/
def scanTcom (tb : Nat) (s : Scan) : Scan :=
  { s with firstTcomOffset := if s.firstTcomOffset = 0 then tb else s.firstTcomOffset, balanced := s.balanced - 1 }

/-- The loop over the records: what is left of the length, none where a record is bad, and the variables. -/
def scanRecords (beyond : Nat → Nat) (buf : List UInt8) : Nat → (tb tlen : Nat) → Scan → Option (Option Nat × Scan)
  | 0, _, _, _ => none
  | fuel + 1, tb, tlen, s =>
    if tlen < JREC_PREFIX_SIZE then some (some tlen, s)
    else do
      let word ← u32At buf tb
      let rectype := jrecType word
      let reclen := forwptr word
      if reclen = 0 ∨ tlen < reclen then return (none, s)
      else if isUpdate beyond rectype then
        let curUpdnum ← u32At buf (tb + UPDATE_NUM)
        let s ← scanUpdate beyond rectype curUpdnum tb s
        scanRecords beyond buf fuel (tb + reclen) (tlen - reclen) s
      else
        let s := scanTcom tb s
        if s.balanced < 0 then return (some tlen, s) else scanRecords beyond buf fuel (tb + reclen) (tlen - reclen) s

/-! ## The merge -/

/-- The variables of the search for the least update number. -/
structure MinScan where
  minUpdnumReg : Nat
  minVal : Nat
  nextMinVal : Nat
  sortingNeeded : Bool

/-- One region in the search. -/
def minStep (regIdx thisUpdnum : Nat) (m : MinScan) : MinScan :=
  let m := { m with sortingNeeded := true }
  if thisUpdnum < m.minVal then { m with nextMinVal := m.minVal, minVal := thisUpdnum, minUpdnumReg := regIdx }
  else if thisUpdnum < m.nextMinVal then { m with nextMinVal := thisUpdnum }
  else m

/-- The search over the regions. -/
def findMin (priv : List UInt8) : List RegJrecInfo → Nat → MinScan → Option MinScan
  | [], _, m => some m
  | r :: regs, regIdx, m =>
    if r.endOffset ≤ r.workingOffset then findMin priv regs (regIdx + 1) m
    else do
      let thisUpdnum ← u32At priv (r.workingOffset + UPDATE_NUM)
      findMin priv regs (regIdx + 1) (minStep regIdx thisUpdnum m)

/-- The records of the region that can be copied too: where the next one after them is. -/
def runEnd (priv : List UInt8) (nextMinVal regTop : Nat) : Nat → (next : Nat) → Option Nat
  | 0, _ => none
  | fuel + 1, next =>
    if next < regTop then do
      let word ← u32At priv next
      let updnum ← u32At priv (next + UPDATE_NUM)
      if updnum < nextMinVal then runEnd priv nextMinVal regTop fuel (next + forwptr word) else return next
    else some next

/-- `memcpy` from the private copy into the buffer. -/
def copyRun (priv buf : List UInt8) (src dst len : Nat) : Option (List UInt8) :=
  if src + len ≤ priv.length ∧ dst + len ≤ buf.length then some (buf.take dst ++ (priv.drop src).take len ++ buf.drop (dst + len)) else none

/-- The loop of the merge. -/
def mergeRegions (priv : List UInt8) (participants maxUpdnum : Nat) :
    Nat → (regs : List RegJrecInfo) → (dst : Nat) → (buf : List UInt8) → Option (List UInt8 × List RegJrecInfo)
  | 0, _, _, _ => none
  | fuel + 1, regs, dst, buf => do
    let minVal := (maxUpdnum + 1) % 2 ^ 32
    let m ← findMin priv (regs.take participants) 0 ⟨0, minVal, minVal, false⟩
    if m.sortingNeeded then
      let r ← regs[m.minUpdnumReg]?
      let word ← u32At priv r.workingOffset
      let next ← runEnd priv m.nextMinVal r.endOffset (priv.length + 1) (r.workingOffset + forwptr word)
      let buf ← copyRun priv buf r.workingOffset dst (next - r.workingOffset)
      mergeRegions priv participants maxUpdnum fuel (regs.set m.minUpdnumReg { r with workingOffset := next })
        (dst + (next - r.workingOffset)) buf
    else return (buf, regs)

/-- The static variables; `reg_jrec_info_array` has `max_participants` entries. -/
structure Statics where
  regJrecInfoArray : List RegJrecInfo
  privateTrBuff : List UInt8

/-- `repl_sort_tr_buff`. `fresh` is what is in an array that has just been allocated. -/
def replSortTrBuff (beyond : Nat → Nat) (fresh : Nat → RegJrecInfo) (st : Statics) (trBuff : List UInt8) : Option (List UInt8 × Statics) := do
  let tlen : Int := if trBuff.length < 2 ^ 31 then trBuff.length else trBuff.length - 2 ^ 32
  let word ← u32At trBuff 0
  if (forwptr word : Int) = tlen then return (trBuff, st)
  else if ¬ isTupd beyond (jrecType word) then return (trBuff, st)
  else
    let lastTcomRec ← if TCOM_SIZE ≤ tlen then some (tlen.toNat - TCOM_SIZE) else none
    let participants ← u16At trBuff (lastTcomRec + NUM_PARTICIPANTS)
    let lastWord ← u32At trBuff lastTcomRec
    if jrecType lastWord ≠ JRT_TCOM then return (trBuff, st)
    else if participants = 1 then return (trBuff, st)
    else
      let regs := if st.regJrecInfoArray.length < participants then (List.range participants).map fresh else st.regJrecInfoArray
      let (left, s) ← scanRecords beyond trBuff (trBuff.length + 1) 0 tlen.toNat ⟨true, 0, 0, 0, 0, 0, regs⟩
      let st := { st with regJrecInfoArray := s.regs }
      if left ≠ some 0 ∨ s.balanced ≠ 0 then return (trBuff, st)
      else
        let regs ← if 0 < s.regIdx then some (s.regs.modify (s.regIdx - 1) fun r => { r with endOffset := s.firstTcomOffset }) else none
        let st := { st with regJrecInfoArray := regs }
        if s.alreadySorted then return (trBuff, st)
        else
          let priv := trBuff ++ st.privateTrBuff.drop trBuff.length
          let (buf, regs) ← mergeRegions priv participants s.maxUpdnum (trBuff.length + 1) regs 0 trBuff
          return (buf, { regJrecInfoArray := regs, privateTrBuff := priv })

end SortBuf

end Gtm
