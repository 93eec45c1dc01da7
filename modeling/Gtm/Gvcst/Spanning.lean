import Gtm.Gvcst.Plain

/-!
# Spanning nodes

A value that does not fit in a block is stored as a dummy value under its key, a control value under a hidden subscript and its
chunks under further hidden subscripts (`gdsfhead.h`). `gvcst_put`, `gvcst_get`, `gvcst_kill`, `gvcst_order`, `gvcst_query`,
`gvcst_data` and `gvcst_dataget` make and hide them over the plain operations, changing `gv_currkey` in place on the way.
-/

namespace Gtm

/-- The database parameters, and `sscanf` for the control values of an old format. -/
structure GvEnv where
  blkSize : Nat
  reservedBytes : Nat
  stdNullColl : Bool
  sscanf : List UInt8 → Nat × Nat

/-- A global with the two keys the operations work on. -/
structure GvState where
  store : Store
  currkey : GvKey
  altkey : GvKey

/-- `nsb_dummy`. -/
def nsbDummy : List UInt8 := [0]

/-- `MAX_GVSUBSCRIPTS`. -/
def maxGvsubscripts : Nat := 32

/-! ## Hidden subscripts -/

/-- `CHECK_HIDDEN_SUBSCRIPT`. -/
def checkHiddenSubscript (k : GvKey) : Bool :=
  decide (5 ≤ k.kend) && k.base[k.kend - 5]? == some 0 && k.base[k.kend - 4]? == some 2

/-- `APPEND_HIDDEN_SUB`. -/
def appendHiddenSub (k : GvKey) : GvKey := { k with base := k.base ++ [2, 1, 1, keyDelimiter] }

/-- `NEXT_HIDDEN_SUB`: the hidden subscript of chunk `i`. -/
def nextHiddenSub (k : GvKey) (i : Nat) : GvKey :=
  { k with
    base := k.base.take (k.kend - 4) ++ [2, UInt8.ofNat (1 + (i + 1) / 0xFF), UInt8.ofNat (1 + (i + 1) % 0xFF), keyDelimiter] }

/-- `REPLACE_HIDDEN_SUB_TO_HIGHEST`. -/
def replaceHiddenSubToHighest (key1 key2 : GvKey) : GvKey :=
  { key2 with base := key2.base.take (key1.kend - 4) ++ [2, 0xFF, 0xFF, 1, keyDelimiter] }

/-- `RESTORE_CURRKEY`. -/
def restoreCurrkey (k : GvKey) (oldend : Nat) : GvKey := { k with base := k.base.take (oldend - 1) ++ [keyDelimiter] }

/-- `GVKEY_INCREMENT_QUERY`. -/
def gvkeyIncrementQuery (k : GvKey) : GvKey := { k with base := k.base ++ [1, keyDelimiter] }

/-- `COMPUTE_CHUNK_SIZE`, with the sizes of a block header and a record header. -/
def computeChunkSize (env : GvEnv) (k : GvKey) : Int := env.blkSize - env.reservedBytes - (k.kend + 1) - 16 - 4

/-- `RECORD_FITS_IN_A_BLOCK`. -/
def recordFits (env : GvEnv) (k : GvKey) (val : List UInt8) : Bool := decide ((val.length : Int) ≤ computeChunkSize env k)

/-- `PUT_NSBCTRL`: the number of chunks as an unsigned short and the size as a four byte integer, each little-endian. -/
def putNsbctrl (numsubs gblsize : Nat) : List UInt8 :=
  [UInt8.ofNat numsubs, UInt8.ofNat (numsubs / 256), UInt8.ofNat gblsize, UInt8.ofNat (gblsize / 256),
    UInt8.ofNat (gblsize / 65536), UInt8.ofNat (gblsize / 16777216)]

/-- `GET_NSBCTRL`, or the text form of a control value of another length. -/
def getNsbctrl (env : GvEnv) (ctrl : List UInt8) : Nat × Nat :=
  match ctrl with
  | [a, b, c, d, e, f] => (a.toNat + 256 * b.toNat, c.toNat + 256 * d.toNat + 65536 * e.toNat + 16777216 * f.toNat)
  | _ => env.sscanf ctrl

/-! ## Updates -/

/-- The loop that sets the chunks, from chunk `i` on. -/
def putChunks (val : List UInt8) (chunkSize : Nat) : Nat → Nat → Store → GvKey → Store × GvKey
  | 0, _, store, key => (store, key)
  | cnt + 1, i, store, key =>
    let key := nextHiddenSub key i
    putChunks val chunkSize cnt (i + 1) (gvcstPut2 store key ((val.drop (i * chunkSize)).take chunkSize) true).1 key

/-- `ZKILL_NODELETS`: the hidden records of the key are removed. -/
def zkillNodelets (store : Store) (key : GvKey) : Store × GvKey :=
  let oldend := key.kend
  let key := appendHiddenSub key
  ((gvcstKill2 true store key false false true).1, restoreCurrkey key oldend)

/-- `gvcst_put`. -/
def gvcstPut (env : GvEnv) (s : GvState) (val : List UInt8) : GvState :=
  let fits := recordFits env s.currkey val
  let first := if fits then gvcstPut2 s.store s.currkey val false else (s.store, true)
  if first.2 = false then { s with store := first.1 }
  else
    let oldend := s.currkey.kend
    let store := (gvcstPut2 first.1 s.currkey (if fits then val else nsbDummy) true).1
    let (store, key) := zkillNodelets store s.currkey
    if fits then { s with store := store, currkey := key }
    else
      let key := appendHiddenSub key
      let chunkSize := (computeChunkSize env key).toNat
      let gblsize := val.length
      let numsubs := (gblsize + chunkSize - 1) / chunkSize % 65536
      let store := (gvcstPut2 store key (putNsbctrl numsubs gblsize) true).1
      let (store, key) := putChunks val chunkSize numsubs 0 store key
      { s with store := store, currkey := restoreCurrkey key oldend }

/-- `gvcst_kill`, inside or outside TP. -/
def gvcstKill (inTp : Bool) (s : GvState) (doSubtree : Bool) : GvState :=
  if doSubtree then { s with store := (gvcstKill2 inTp s.store s.currkey true false false).1 }
  else
    let (store, spanstat) := gvcstKill2 inTp s.store s.currkey false true false
    if spanstat = false then { s with store := store }
    else
      -- outside TP nothing has been removed yet
      let store := if inTp then store else (gvcstKill2 true store s.currkey false false false).1
      let oldend := s.currkey.kend
      let key := appendHiddenSub s.currkey
      { s with store := (gvcstKill2 true store key false false true).1, currkey := restoreCurrkey key oldend }

/-! ## Reads -/

/-- The loop of `gvcst_get` over the chunks: what it has pieced together and the number of the chunk it stopped at. -/
def getChunks (store : Store) (gblsize : Nat) : Nat → Nat → GvKey → List UInt8 → List UInt8 × Nat × GvKey
  | 0, i, key, acc => (acc, i, key)
  | cnt + 1, i, key, acc =>
    let key := nextHiddenSub key i
    match gvcstGet2 store key with
    | none => (acc, i, key)
    | some piece =>
      if gblsize < (acc ++ piece).length then (acc ++ piece, i, key) else getChunks store gblsize cnt (i + 1) key (acc ++ piece)

/-- `gvcst_get`: the value, if there is one; the outer `none` is a restart for chunks that do not add up. -/
def gvcstGet (env : GvEnv) (s : GvState) : Option (Option (List UInt8)) × GvState :=
  match gvcstGet2 s.store s.currkey with
  | none => (some none, s)
  | some v =>
    if isSnDummy v = false then (some (some v), s)
    else
      let oldend := s.currkey.kend
      let key := appendHiddenSub s.currkey
      match gvcstGet2 s.store key with
      | none => (some (some v), { s with currkey := restoreCurrkey key oldend })
      | some ctrl =>
        let (numsubs, gblsize) := getNsbctrl env ctrl
        let (acc, i, key) := getChunks s.store gblsize numsubs 0 key []
        if acc.length ≠ gblsize ∨ i ≠ numsubs then (none, { s with currkey := key })
        else (some (some acc), { s with currkey := restoreCurrkey key oldend })

/-- `gvcst_order`. -/
def gvcstOrder (s : GvState) : Bool × GvState :=
  let (found, altkey) := gvcstOrder2 s.store s.currkey s.altkey
  let s := { s with altkey := altkey }
  if found = false ∨ checkHiddenSubscript altkey = false then (found, s)
  else
    let prev := s.currkey.prev
    let saved := s.currkey.base.drop prev
    let key := replaceHiddenSubToHighest altkey s.currkey
    let (found, altkey) := gvcstOrder2 s.store key altkey
    (found, { s with altkey := altkey, currkey := { key with prev := prev, base := key.base.take prev ++ saved } })

/-- The loop of `gvcst_query`, with `cnt` turns left. -/
def queryLoop (store : Store) : Nat → GvKey → GvKey → Bool × GvKey
  | 0, _, altkey => (true, altkey)
  | cnt + 1, currkey, altkey =>
    let (found, altkey) := gvcstQuery2 store currkey altkey
    if found = false ∨ checkHiddenSubscript altkey = false then (found, altkey)
    else queryLoop store cnt (replaceHiddenSubToHighest altkey currkey) altkey

/-- `gvcst_query`. -/
def gvcstQuery (s : GvState) : Bool × GvState :=
  let (found, altkey) := gvcstQuery2 s.store s.currkey s.altkey
  if found = false ∨ checkHiddenSubscript altkey = false then (found, { s with altkey := altkey })
  else
    let (found, altkey) := queryLoop s.store (maxGvsubscripts + 1) s.currkey altkey
    (found, { s with altkey := altkey })

/-- `gvcst_data`. -/
def gvcstData (s : GvState) : Int × GvState :=
  let val := gvcstData2 s.store s.currkey
  if val ≠ -1 then (val, s)
  else
    let oldend := s.currkey.kend
    let (found, s) := gvcstQuery { s with currkey := gvkeyIncrementQuery s.currkey }
    let val := if found = true ∧ s.currkey.base.take oldend = s.altkey.base.take oldend then 1 + 10 else 1
    (val, { s with currkey := restoreCurrkey s.currkey oldend })

/-- The loop of `gvcst_dataget` over the chunks; besides, the existence code the last chunk was found with. -/
def datagetChunks (store : Store) (dgInfo : DgInfo) (gblsize numsubs : Nat) :
    Nat → Nat → GvKey → List UInt8 → Nat → List UInt8 × Nat × GvKey × Nat
  | 0, i, key, acc, dlr => (acc, i, key, dlr)
  | cnt + 1, i, key, acc, _ =>
    let key := nextHiddenSub key i
    let info : DgInfo := if i + 1 = numsubs ∧ dgInfo = .dataGet then .getSnData else .getOnly
    let (dlr, piece) := gvcstDataget2 store key info
    if dlr % 10 = 0 then (acc, i, key, dlr)
    else if gblsize < (acc ++ piece).length then (acc ++ piece, i, key, dlr)
    else datagetChunks store dgInfo gblsize numsubs cnt (i + 1) key (acc ++ piece) dlr

/-- `gvcst_dataget`, asked for the value alone or for the existence code too; `none` is a restart for chunks that do not add up. -/
def gvcstDataget (env : GvEnv) (s : GvState) (dgInfo : DgInfo) : Option (Nat × List UInt8) × GvState :=
  let (dollarData, val) := gvcstDataget2 s.store s.currkey dgInfo
  let gotit := dollarData % 10
  let answer := fun (dlr : Nat) (v : List UInt8) => (if dgInfo = .getOnly then gotit else dlr, v)
  if gotit = 0 ∨ isSnDummy val = false then (some (answer dollarData val), s)
  else
    let oldend := s.currkey.kend
    let key := appendHiddenSub s.currkey
    let (dollarDataCtrl, valCtrl) := gvcstDataget2 s.store key dgInfo
    if dollarDataCtrl % 10 = 0 then (some (answer dollarData val), { s with currkey := restoreCurrkey key oldend })
    else
      let (numsubs, gblsize) := getNsbctrl env valCtrl
      let (acc, i, key, dlrPiece) := datagetChunks s.store dgInfo gblsize numsubs numsubs 0 key [] 0
      if acc.length ≠ gblsize ∨ i ≠ numsubs then (none, { s with currkey := restoreCurrkey key oldend })
      else if dgInfo = .dataGet then
        if dlrPiece ≠ 11 ∧ env.stdNullColl = true then
          -- a descendant with a null subscript stands before the hidden ones
          let key := gvkeyIncrementQuery (restoreCurrkey key oldend)
          let dollarDataNull := (gvcstDataget2 s.store key .dataOnly).1
          (some (answer (if dollarDataNull ≠ 0 then 11 else dlrPiece) acc), { s with currkey := restoreCurrkey key oldend })
        else (some (answer dlrPiece acc), { s with currkey := restoreCurrkey key oldend })
      else (some (answer dollarData acc), { s with currkey := restoreCurrkey key oldend })

end Gtm
