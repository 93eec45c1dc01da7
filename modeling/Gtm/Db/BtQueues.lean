import Gtm.Db.BlockTable
import Gtm.Db.Relqueop

/-!
# The block table in shared memory

Each record of the block table is on two self-relative queues, at different offsets: `blkque`, the hash chain of its block, and `tnque`,
the queue of all records. The heads of the chains come first in memory, then the head of `tnque`, then the records (`bt_refresh.c`,
`bt_put.c`, `bt_get.c`). An address is that of a record, of which `blkque` is the first field; a `th_rec` is a record from `tnque` on.
-/

namespace Gtm

/-- `BT_QUEHEAD`. -/
def btQuehead : Int := -2

/-- `BT_NOTVALID`. -/
def btNotvalid : Int := -1

/-- `CR_NOTVALID`. -/
def crNotvalid : Int := -1

/-- `SIZEOF(bt_rec)`. -/
def sizeofBtRec : Int := 64

/-- `SIZEOF(th->tnque)`, and the offset of `tnque`. -/
def sizeofTnque : Int := 16

/-- The place of the table in shared memory. -/
structure BtLayout where
  btHeader : Int
  btBuckets : Nat
  nBts : Nat

namespace BtLayout

variable (lay : BtLayout)

/-- `csa->bt_header`, as an array. -/
def hdr (c : Nat) : Int := lay.btHeader + sizeofBtRec * c

/-- `csa->th_base`. -/
def thBase : Int := lay.hdr lay.btBuckets + sizeofTnque

/-- `csa->bt_base`, as an array. -/
def btBase (i : Nat) : Int := lay.hdr (lay.btBuckets + 1) + sizeofBtRec * i

end BtLayout

/-- A `bt_rec` without its links. -/
structure BtData where
  blk : Int
  tn : Nat
  killtn : Nat
  cacheIndex : Int

/-- The memory of the table. -/
structure BtMem where
  que : QueMem
  bt : Int → BtData

/-- The errors of `bt_put`: `ERR_BTFAIL` with its number, and a failed `assertpro`. -/
inductive BtFail where
  | btfail (n : Nat)
  | assertpro

/-- The cache: whether the buffer of a cache record is dirty, and whether `wcs_get_space` can have it written. -/
structure BtCache where
  dirty : Int → Bool
  wcsGetSpace : Int → Bool

namespace BtMem

def setBt (m : BtMem) (a : Int) (f : BtData → BtData) : BtMem := { m with bt := Function.update m.bt a (f (m.bt a)) }

/-- `longset`. -/
def zero : BtMem := ⟨⟨fun _ => 0, fun _ => 0⟩, fun _ => ⟨0, 0, 0, 0⟩⟩

/-- One turn of the second loop of `bt_refresh`. -/
def refreshRec (lay : BtLayout) (m : BtMem) (i : Nat) : BtMem :=
  let ptr := lay.btBase i
  let m := m.setBt ptr fun _ => ⟨btNotvalid, 0, 0, crNotvalid⟩
  { m with que := (m.que.insqt ptr (lay.hdr i)).insqt (ptr + sizeofTnque) lay.thBase }

/-- `SET_OLDEST_HIST_TN`. -/
def setOldestHistTn (lay : BtLayout) (tn : Nat) (m : BtMem) : BtMem :=
  m.setBt (lay.thBase + m.que.fl lay.thBase - sizeofTnque) fun d => { d with tn := tn }

/-- `bt_refresh`, which also initializes the links. -/
def btRefresh (lay : BtLayout) (currTn : Nat) : BtMem :=
  let m := (List.range (lay.btBuckets + 1)).foldl (fun m c => m.setBt (lay.hdr c) fun d => { d with blk := btQuehead }) zero
  setOldestHistTn lay (currTn - 1) ((List.range lay.nBts).foldl (refreshRec lay) m)

/-- The loop of `bt_get`, and whether it sets `wc_blocked`. -/
def btGetLoop (m : BtMem) (block : Nat) : Nat → Int → Option Int × Bool
  | 0, _ => (none, true)
  | lcnt + 1, bt =>
    let bt := bt + m.que.fl bt
    if (m.bt bt).blk = block then (some bt, false)
    else if (m.bt bt).blk = btQuehead then (none, false)
    else btGetLoop m block lcnt bt

/-- `bt_get`. -/
def btGet (lay : BtLayout) (m : BtMem) (block : Nat) : Option Int × Bool :=
  btGetLoop m block lay.nBts (lay.hdr (block % lay.btBuckets))

/-- The search of `bt_put` at a record: the record of the block, or the end of the chain. The count is `n_bts - lcnt`. -/
def btPutSearch (m : BtMem) (block : Nat) : Nat → Int → Except BtFail (Option Int)
  | left, bt =>
    if (m.bt bt).blk = btQuehead then .ok none
    else if (m.bt bt).blk = block then .ok (some bt)
    else if m.que.fl bt = 0 then .error (.btfail 2)
    else
      match left with
      | 0 => .error (.btfail 3)
      | left + 1 => btPutSearch m block left (bt + m.que.fl bt)

/-- The end of `bt_put`. -/
def btPutEnd (lay : BtLayout) (bt th : Int) (lclTn : Nat) (m : BtMem) : BtMem :=
  { m with que := m.que.insqt th lay.thBase }.setBt bt fun d => { d with tn := lclTn }

/-- `bt_put`: the record, or none when the oldest one cannot be reused. -/
def btPut (lay : BtLayout) (cache : BtCache) (block lclTn : Nat) (m : BtMem) : Except BtFail (Option Int × BtMem) :=
  let hdr := lay.hdr (block % lay.btBuckets)
  match btPutSearch m block lay.nBts (hdr + m.que.fl hdr) with
  | .error e => .error e
  | .ok none =>
    let bt := lay.thBase + m.que.fl lay.thBase - sizeofTnque
    let index := (m.bt bt).cacheIndex
    if index ≠ crNotvalid ∧ cache.dirty index = true ∧ cache.wcsGetSpace index = false then .ok (none, m)
    else
      let m := if index ≠ crNotvalid then m.setBt bt fun d => { d with cacheIndex := crNotvalid } else m
      let q0 := bt + m.que.fl bt
      match m.que.remqt q0 with
      | (none, _) => .error (.btfail 1)
      | (some _, que) =>
        let m := { m with que := que }.setBt bt fun d => { d with blk := block, killtn := lclTn }
        match (m.que.insqt bt hdr).remqh lay.thBase with
        | (none, _) => .error .assertpro
        | (some th, que) => .ok (some bt, btPutEnd lay bt th lclTn { m with que := que })
  | .ok (some bt) =>
    let q0 := bt + m.que.fl (bt + sizeofTnque)
    match m.que.remqt (q0 + sizeofTnque) with
    | (none, _) => .error .assertpro
    | (some th, que) => .ok (some bt, btPutEnd lay bt th lclTn { m with que := que })

/-- What the rest of the code does to a record: another cache record, or a kill with the number of its last update. -/
def mark (m : BtMem) (a : Int) (cacheIndex : Int) (kill : Bool) : BtMem :=
  m.setBt a fun d => { d with cacheIndex := cacheIndex, killtn := if kill then d.tn else d.killtn }

end BtMem

open BtMem

/-- The runs from the table as it is initialized: the calls that have updated a block, with its number and that of the transaction, and
the number of the current transaction. -/
inductive BtRun (lay : BtLayout) (startTn : Nat) : List (Nat × Nat) → Nat → BtMem → Prop where
  | start : BtRun lay startTn [] startTn (btRefresh lay startTn)
  | put {updates : List (Nat × Nat)} {tn lclTn block : Nat} {m m' : BtMem} {cache : BtCache} {bt : Int} (h : BtRun lay startTn updates tn m)
      (hle : tn ≤ lclTn) (hput : btPut lay cache block lclTn m = .ok (some bt, m')) : BtRun lay startTn (updates ++ [(lclTn, block)]) lclTn m'
  | refused {updates : List (Nat × Nat)} {tn lclTn block : Nat} {m m' : BtMem} {cache : BtCache} (h : BtRun lay startTn updates tn m)
      (hle : tn ≤ lclTn) (hput : btPut lay cache block lclTn m = .ok (none, m')) : BtRun lay startTn updates lclTn m'
  | mark {updates : List (Nat × Nat)} {tn i : Nat} {m : BtMem} (h : BtRun lay startTn updates tn m) (hi : i < lay.nBts) (cacheIndex : Int)
      (kill : Bool) : BtRun lay startTn updates tn (m.mark (lay.btBase i) cacheIndex kill)

end Gtm
