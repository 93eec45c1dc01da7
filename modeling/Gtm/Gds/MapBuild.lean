import Gtm.Gds.BlkMaps

/-!
# Updating a local bitmap

At commit `gvcst_map_build` sets the blocks of an update array to one status, through `bml_busy`, `bml_free` or `bml_recycled`. If the
process dies in the middle of a commit, `sec_shr_map_build` does it with masks of its own, and sets the bit of the master map, too.
Both count by how much the number of free blocks goes down, which has to be the `reference_cnt` of the change.
-/

namespace Gtm

open Function

/-- `CSE_LEVEL_DRT_LVL0_FREE`. -/
def cseLevelDrtLvl0Free : Nat := 9

/-- `LCL_MAP_LEVL`. -/
def lclMapLevl : Nat := 0xFF

/-- The fields of a `cw_set_element` for a bitmap that are looked at. -/
structure MapCse where
  blk : Nat
  referenceCnt : Int
  level : Nat

/-- What the file header and the process have on bitmaps. -/
structure MapEnv where
  truncPid : Nat
  dbGotToV5Once : Bool
  muReorgUpgrdDwngrd : Bool
  bplmap : Nat
  totalBlks : Nat

/-- What the shared memory has on bitmaps, with the master map. -/
structure MapNl where
  highestLbmWithBusyBlk : Nat
  highestLbmBlkChanged : Nat
  mmAddr : Nat → UInt8

/-- A bitmap block: its transaction number and its bytes behind the header. -/
structure BmBlk where
  tn : Nat
  byte : Nat → UInt8

/-- The routines that set the status of a block. -/
inductive BmlFunc where
  | busy
  | free
  | recycled
deriving DecidableEq, Repr

/-- `DETERMINE_BML_FUNC_COMMON`. -/
def determineBmlFuncCommon (env : MapEnv) (cs : MapCse) : BmlFunc :=
  if cs.referenceCnt > 0 then .busy else if env.dbGotToV5Once then .recycled else .free

/-- `DETERMINE_BML_FUNC`, with what it notes for a truncate in progress. -/
def determineBmlFunc (env : MapEnv) (cs : MapCse) (nl : MapNl) : BmlFunc × MapCse × MapNl :=
  if env.truncPid ≠ 0 then
    if cs.referenceCnt > 0 then (.busy, cs, { nl with highestLbmWithBusyBlk := max cs.blk nl.highestLbmWithBusyBlk })
    else if cs.referenceCnt < 0 then
      if env.dbGotToV5Once = true ∧ cseLevelDrtLvl0Free ≠ cs.level then (.recycled, cs, nl)
      else (.free, { cs with level := lclMapLevl }, nl)
    else if env.dbGotToV5Once = true ∧ env.muReorgUpgrdDwngrd = true then (.recycled, cs, nl)
    else (.free, cs, nl)
  else (determineBmlFuncCommon env cs, cs, nl)

/-- `bit_set`, with whether the bit was set before. -/
def bitSet (bit : Nat) (base : Nat → UInt8) : Bool × (Nat → UInt8) :=
  let mask : UInt8 := 1 <<< UInt8.ofNat (bit % 8)
  (mask &&& base (bit / 8) ≠ 0, update base (bit / 8) (base (bit / 8) ||| mask))

/-- `bit_clear`, with whether the bit was set before. -/
def bitClear (bit : Nat) (base : Nat → UInt8) : Bool × (Nat → UInt8) :=
  let mask : UInt8 := 1 <<< UInt8.ofNat (bit % 8)
  (mask &&& base (bit / 8) ≠ 0, update base (bit / 8) (base (bit / 8) &&& ~~~mask))

/-- `bml_busy`. -/
def bmlBusy (setbusy : Nat) (map : Nat → UInt8) : Bool × (Nat → UInt8) :=
  let (ret, map) := bitClear (setbusy * 2) map
  (ret, (bitClear (setbusy * 2 + 1) map).2)

/-- `bml_free`. -/
def bmlFree (setfree : Nat) (map : Nat → UInt8) : Bool × (Nat → UInt8) :=
  let (ret, map) := bitSet (setfree * 2) map
  (ret, (bitClear (setfree * 2 + 1) map).2)

/-- `bml_recycled`. -/
def bmlRecycled (setfree : Nat) (map : Nat → UInt8) : Bool × (Nat → UInt8) :=
  let (ret, map) := bitSet (setfree * 2) map
  (ret, (bitSet (setfree * 2 + 1) map).2)

/-- A call of the routine. -/
def BmlFunc.call : BmlFunc → Nat → (Nat → UInt8) → Bool × (Nat → UInt8)
  | .busy => bmlBusy
  | .free => bmlFree
  | .recycled => bmlRecycled

/-- The loop of `gvcst_map_build` over the update array, which ends with a 0, with the change of the free blocks that it counts. -/
def gvcstMapLoop (func : BmlFunc) (cs : MapCse) : List Nat → (Nat → UInt8) → Int → (Nat → UInt8) × Int
  | [], base, actualCnt => (base, actualCnt)
  | bitnum :: array, base, actualCnt =>
    if bitnum = 0 then (base, actualCnt)
    else
      let (ret, base) := func.call bitnum base
      gvcstMapLoop func cs array base
        (if cs.referenceCnt > 0 then actualCnt + 1 else if ret = false then actualCnt - 1 else actualCnt)

/-- What `gvcst_map_build` leaves. -/
structure MapBuilt where
  blk : BmBlk
  actualCnt : Int
  cs : MapCse
  nl : MapNl

/-- `gvcst_map_build`. -/
def gvcstMapBuild (env : MapEnv) (array : List Nat) (b : BmBlk) (cs : MapCse) (nl : MapNl) (ctn : Nat) : MapBuilt :=
  let (func, cs, nl) := determineBmlFunc env cs nl
  let (base, actualCnt) := gvcstMapLoop func cs array b.byte 0
  ⟨⟨ctn, base⟩, actualCnt, cs, nl⟩

/-- The byte with the block at `setbit`, as `sec_shr_map_build` changes it. -/
def secShrMark (func : BmlFunc) (setbit : Nat) (c : UInt8) : UInt8 :=
  let three : UInt8 := 3 <<< UInt8.ofNat setbit
  match func with
  | .busy => c &&& ~~~three
  | .recycled => c ||| three
  | .free => (c &&& ~~~three) ||| (1 <<< UInt8.ofNat setbit)

/-- The loop of `sec_shr_map_build`. -/
def secShrMapLoop (func : BmlFunc) : List Nat → (Nat → UInt8) → Int → (Nat → UInt8) × Int
  | [], base, actualCnt => (base, actualCnt)
  | bitnum :: array, base, actualCnt =>
    if bitnum = 0 then (base, actualCnt)
    else
      let ptr := bitnum * 2 / 8
      let setbit := bitnum * 2 % 8
      let prev := (base ptr >>> UInt8.ofNat setbit) &&& 1
      secShrMapLoop func array (update base ptr (secShrMark func setbit (base ptr)))
        (if func = .busy then actualCnt + 1 else if prev = 0 then actualCnt - 1 else actualCnt)

/-- The blocks of a bitmap: the last one may have fewer. -/
def lmapBlks (env : MapEnv) (blk : Nat) : Nat :=
  if env.totalBlks / env.bplmap * env.bplmap = blk then env.totalBlks - blk else env.bplmap

/-- The bit of the master map, behind a change of the bitmap. -/
def secShrMasterMap (env : MapEnv) (cs : MapCse) (nl : MapNl) (base : Nat → UInt8) : MapNl :=
  let changed := if cs.blk > nl.highestLbmBlkChanged then cs.blk else nl.highestLbmBlkChanged
  match bmlFindFree 0 base (lmapBlks env cs.blk) with
  | none => { nl with mmAddr := (bitClear (cs.blk / env.bplmap) nl.mmAddr).2, highestLbmBlkChanged := changed }
  | some _ =>
    let (was, mmAddr) := bitSet (cs.blk / env.bplmap) nl.mmAddr
    { nl with mmAddr, highestLbmBlkChanged := if was then nl.highestLbmBlkChanged else changed }

/-- `sec_shr_map_build`. -/
def secShrMapBuild (env : MapEnv) (array : List Nat) (b : BmBlk) (cs : MapCse) (nl : MapNl) (ctn : Nat) : MapBuilt :=
  let (func, cs, nl) := determineBmlFunc env cs nl
  let (base, actualCnt) := secShrMapLoop func array b.byte 0
  ⟨⟨ctn, base⟩, actualCnt, cs, secShrMasterMap env cs nl base⟩

end Gtm
