import Gtm.Gds.Entries
import Gtm.Lib.OrderedTree

/-!
# The sibling to the right and to the left

From the history of a search, `gvcst_rtsib` and `gvcst_lftsib` build the history of the leaf next to the one that was found
(`gvcst_rtsib.c`, `gvcst_lftsib.c`): up to the first block with a record on that side of the search key, and down again along the first
or the last records. Blocks may hold the numbers of their children in 32 or in 64 bits, each as its own header says.

A history is the list of its levels, from the leaf on; the entry with the block number 0 behind them is the end of the list.
-/

namespace Gtm

/-- `READ_BLK_ID`, in the format that is asked for. -/
def GdsBlk.readBlkIdAs (b : GdsBlk) (longBlkId : Bool) (p : Nat) : Int :=
  let n := b.number p (sizeofBlkId longBlkId)
  if n < 2 ^ (8 * sizeofBlkId longBlkId - 1) then (n : Int) else (n : Int) - 2 ^ (8 * sizeofBlkId longBlkId)

/-- One level of a search history (`srch_blk_status`): the number of the block, its buffer, the number that the buffer's cache record
has where there is one (`cr->blk`), and the positions of the search. -/
structure SrchBlkStatus where
  blkNum : Int
  blk : GdsBlk
  crBlk : Option Int
  prevRec : SrchRec
  currRec : SrchRec

/-- What the two functions return: `cdb_sc_endtree`, the codes of a restart, with that of `gvcst_search_blk`, or of a read that has
failed (`rdfail_detail`). -/
inductive SibSc where
  | normal
  | endtree
  | lostcr
  | rmisalign
  | rdfail
  | search (sc : BlkSc)
deriving DecidableEq

/-- `t_qread`: the buffer of a block and the number that its cache record has. -/
abbrev Qread := Int → Option (GdsBlk × Option Int)

/-- A place in the history of the search: the levels below it, nearest first, the level itself and the levels above. -/
structure HistCursor where
  below : List SrchBlkStatus
  cur : SrchBlkStatus
  above : List SrchBlkStatus

/-- The whole history again. -/
def HistCursor.hist (c : HistCursor) : List SrchBlkStatus := c.below.reverse ++ c.cur :: c.above

/-- The buffer has been used for another block meanwhile. -/
def SrchBlkStatus.lost (h : SrchBlkStatus) : Bool := h.crBlk.any (· != h.blkNum)

/-- A level with the positions that `gvcst_search_blk` has left. -/
def SrchBlkStatus.searched (h : SrchBlkStatus) (stat : SrchStat) : SrchBlkStatus :=
  { h with prevRec := stat.prevRec, currRec := stat.currRec }

/-- The climb of `gvcst_rtsib` from a level: up to the first block with a record behind the one for the search key. -/
def rtClimb (env : SrchEnv) (key : List UInt8) : List SrchBlkStatus → SrchBlkStatus → List SrchBlkStatus → List UInt8 →
    SibSc × HistCursor × List UInt8
  | below, cur, [], altkey => (.endtree, ⟨below, cur, []⟩, altkey)
  | below, cur, old :: above, altkey =>
    if old.lost then (.lostcr, ⟨cur :: below, old, above⟩, altkey)
    else
      let out := gvcstSearchBlk env old.blk key ⟨old.prevRec, old.currRec⟩ altkey
      let old := old.searched out.stat
      if out.sc ≠ .normal then (.search out.sc, ⟨cur :: below, old, above⟩, out.altkey)
      else
        let top := old.currRec.offset + old.blk.rsiz old.currRec.offset
        if old.blk.bsiz < top then (.rmisalign, ⟨cur :: below, old, above⟩, out.altkey)
        else if top < old.blk.bsiz then (.normal, ⟨cur :: below, old, above⟩, out.altkey)
        else rtClimb env key (cur :: below) old above out.altkey

/-- The descent of `gvcst_rtsib` by some levels: from the record at `rp` of a block along the first records. -/
def rtDescend (qread : Qread) : Nat → GdsBlk → Bool → Nat → List SrchBlkStatus → Except SibSc (List SrchBlkStatus)
  | 0, _, _, _, new => .ok new
  | n + 1, b, longBlkId, rp, new =>
    if b.bsiz < rp + b.rsiz rp then .error .rmisalign
    else
      let blk := b.readBlkIdAs longBlkId (rp + b.rsiz rp - sizeofBlkId longBlkId)
      match qread blk with
      | none => .error .rdfail
      | some (b, cr) => rtDescend qread n b b.longBlkId blkHdrSize (⟨blk, b, cr, ⟨0, 0⟩, ⟨blkHdrSize, 0⟩⟩ :: new)

/-- What the two functions leave: the code, the new history, the history of the search, and `gv_altkey`. -/
structure SibOut where
  sc : SibSc
  full : List SrchBlkStatus
  hist : List SrchBlkStatus
  altkey : List UInt8

/-- `gvcst_rtsib` from the level `cur`, with the levels above it. -/
def gvcstRtsib (env : SrchEnv) (qread : Qread) (key : List UInt8) (cur : SrchBlkStatus) (above : List SrchBlkStatus)
    (altkey : List UInt8) : SibOut :=
  let (sc, c, altkey) := rtClimb env key [] cur above altkey
  if sc ≠ .normal then ⟨sc, [], c.hist, altkey⟩
  else
    let old := c.cur
    let offset := old.currRec.offset + old.blk.rsiz old.currRec.offset
    if old.blk.bsiz < offset then ⟨.rmisalign, [], c.hist, altkey⟩
    else
      let new : SrchBlkStatus := { old with prevRec := old.currRec, currRec := ⟨offset, 0⟩ }
      match rtDescend qread c.below.length old.blk old.blk.longBlkId offset [new] with
      | .error sc => ⟨sc, [], c.hist, altkey⟩
      | .ok full => ⟨.normal, full, c.hist, altkey⟩

/-- The climb of `gvcst_lftsib`: up to the first block with a record before the one for the search key. The level it starts from has
been searched. -/
def lftClimb (env : SrchEnv) (key : List UInt8) : List SrchBlkStatus → SrchBlkStatus → List SrchBlkStatus → List UInt8 →
    SibSc × HistCursor × List UInt8
  | below, cur, [], altkey => if 0 < cur.prevRec.offset then (.normal, ⟨below, cur, []⟩, altkey) else (.endtree, ⟨below, cur, []⟩, altkey)
  | below, cur, old :: above, altkey =>
    if 0 < cur.prevRec.offset then (.normal, ⟨below, cur, old :: above⟩, altkey)
    else if old.lost then (.lostcr, ⟨cur :: below, old, above⟩, altkey)
    else
      let out := gvcstSearchBlk env old.blk key ⟨old.prevRec, old.currRec⟩ altkey
      let old := old.searched out.stat
      if out.sc ≠ .normal then (.search out.sc, ⟨cur :: below, old, above⟩, out.altkey)
      else lftClimb env key (cur :: below) old above out.altkey

/-- The descent of `gvcst_lftsib`, from the record of a block that ends at `rtop` along the last records. Below each level comes the one
of the history of the search (`old`); the positions of the new levels stay as they were in the new history, `full`. -/
def lftDescend (qread : Qread) (full : Nat → SrchBlkStatus) : List SrchBlkStatus → GdsBlk → Bool → Nat → List SrchBlkStatus →
    Except SibSc (List SrchBlkStatus)
  | [], _, _, _, new => .ok new
  | old :: below, b, longBlkId, rtop, new =>
    let blk := b.readBlkIdAs longBlkId (rtop - sizeofBlkId longBlkId)
    match qread blk with
    | none => .error .rdfail
    | some (b, cr) =>
      lftDescend qread full below b old.blk.longBlkId b.bsiz ({ full below.length with blkNum := blk, blk := b, crBlk := cr } :: new)

/-- `gvcst_lftsib`. The format for the first number read is that of the leaf, `cur`. -/
def gvcstLftsib (env : SrchEnv) (qread : Qread) (key : List UInt8) (full : Nat → SrchBlkStatus) (cur : SrchBlkStatus)
    (above : List SrchBlkStatus) (altkey : List UInt8) : SibOut :=
  let (sc, c, altkey) := lftClimb env key [] cur above altkey
  if sc ≠ .normal then ⟨sc, [], c.hist, altkey⟩
  else
    let old := c.cur
    let rtop := old.prevRec.offset + old.blk.rsiz old.prevRec.offset
    let new : SrchBlkStatus := { old with prevRec := (full c.below.length).prevRec, currRec := old.prevRec }
    if old.blk.bsiz < rtop then ⟨.rmisalign, [], c.hist, altkey⟩
    else
      match lftDescend qread full c.below old.blk cur.blk.longBlkId rtop [new] with
      | .error sc => ⟨sc, [], c.hist, altkey⟩
      | .ok full => ⟨.normal, full, c.hist, altkey⟩

/-! ## The tree -/

open OrderedTree

/-- Where the records of a block start. -/
def GdsBlk.offsets (b : GdsBlk) : List Nat := (decompress b b.bsiz blkHdrSize []).map Prod.fst

/-- The number of the child in a record, in the format of the block. -/
def GdsBlk.childAt (b : GdsBlk) (off : Nat) : Int := b.readBlkIdAs b.longBlkId (off + b.rsiz off - sizeofBlkId b.longBlkId)

/-- The children of a block, in the order of its records. -/
def treeKids (qread : Qread) (n : Int) : List Int :=
  match qread n with
  | none => []
  | some (b, _) => if b.levl = 0 then [] else b.offsets.map b.childAt

/-- The format that a block holds the numbers of its children in. -/
def treeFmt (qread : Qread) (n : Int) : Bool := (qread n).any fun r => r.1.longBlkId

/-- A well-formed tree: every node can be read, is a well-formed block of its level that fits into a block and whose keys fit into the
key buffer, and has a positive number. -/
def BlkTreeOk (env : SrchEnv) (qread : Qread) (root : Int) (height : Nat) : Prop :=
  ∀ k ≤ height, ∀ w ∈ layer (treeKids qread) root k, 0 < w.1 ∧ ∃ b cr, qread w.1 = some (b, cr) ∧ (∀ n ∈ cr, n = w.1) ∧
    b.levl + k = height ∧ b.bsiz ≤ env.blkSize ∧ ∃ es, WfBlk b es ∧ ∀ e ∈ es, e.keyBytes.length ≤ env.altTop

/-- The number of the record that a search for the key comes to. -/
def searchIdx (b : GdsBlk) (key : List UInt8) : Nat := ((decompress b b.bsiz blkHdrSize []).takeWhile (recBefore key)).length

/-- A level of a history has this block. -/
structure HistAt (qread : Qread) (h : SrchBlkStatus) (n : Int) : Prop where
  num : h.blkNum = n
  read : qread n = some (h.blk, h.crBlk)

/-- A history has the way to a node, on which a search for the key takes the record it comes to in every block. -/
structure SearchPath (qread : Qread) (key : List UInt8) (cur : SrchBlkStatus) (above : List SrchBlkStatus) (w : Walk Int) : Prop where
  cur : HistAt qread cur w.1
  above : List.Forall₂ (fun h a => HistAt qread h a.1 ∧ a.2 = searchIdx h.blk key) above w.2

/-- A new history has the way to the node `v` from the nearest ancestor on that it has in common with `w`, with the positions that are
asked for; above, the ways are the same. -/
def SibPath (qread : Qread) (pos : SrchBlkStatus → Nat → Prop) (full : List SrchBlkStatus) (w v : Walk Int) : Prop :=
  ∃ new news up down rest, full = new :: news ∧ w.2 = up ++ rest ∧ v.2 = down ++ rest ∧ up.length = down.length ∧
    HistAt qread new v.1 ∧ List.Forall₂ (fun h a => HistAt qread h a.1 ∧ pos h a.2) news down

/-- The position of a level is at the record of the child on the way. -/
def AtChild (h : SrchBlkStatus) (i : Nat) : Prop := h.blk.offsets[i]? = some h.currRec.offset

/-- The function builds the way to the node beside `w`, or says that there is none, which is so at the edge of the tree. -/
structure Reaches (qread : Qread) (pos : SrchBlkStatus → Nat → Prop) (w : Walk Int) (edge : Prop) (beside : Walk Int → Prop)
    (out : SibOut) : Prop where
  endtree : out.sc = .endtree ↔ edge
  path : ∀ v, beside v → out.sc = .normal ∧ SibPath qread pos out.full w v

/-- On the ways to a leaf, of the format `leaf`, and to the one before it: below the block where the ways meet, the blocks of one level
have the same format, and that block has the format of the leaf. -/
def formatsAgree (fmt : Int → Bool) (leaf : Bool) : List (Int × Nat) → List (Int × Nat) → Prop
  | (x, 0) :: anc, (y, _) :: anc' => fmt x = fmt y ∧ formatsAgree fmt leaf anc anc'
  | (x, _ + 1) :: _, _ => fmt x = leaf
  | _, _ => True

end Gtm
