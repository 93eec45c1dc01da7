import Gtm.Gds.Entries

/-!
# Searches with a clue

`gvcst_search` keeps the leaf of its last search, and what it found there, with the global (`gv_target`). As long as the next key
belongs to that leaf, the search is resumed there, or nothing is searched at all; otherwise, and where this fails, the tree is
searched from its root, which comes to a leaf by `gvcst_search_blk` in every block. Then `gvcst_expand_curr_key` and
`gvcst_expand_prev_key` find the full keys of the two records from the search key.

The leaf a search from the root comes to, with the bounds of its keys, is given from outside, and so is whether the clue may be used.
-/

namespace Gtm

/-- `gvcst_expand_curr_key`: after a full match the search key is the key. -/
def gvcstExpandCurrKey (env : SrchEnv) (b : GdsBlk) (stat : SrchStat) (srchKey : List UInt8) : Except BlkSc (List UInt8) :=
  let offset := stat.currRec.offset
  let mtch := stat.currRec.mtch
  if mtch < b.evalCmpc offset then .error .blkmod
  else if mtch = srchKey.length then
    if env.altTop ≤ mtch then .error .keyoflow
    else expandedKey (srchKey.take (mtch - 2) ++ [keyDelimiter, keyDelimiter])
  else
    let mtch := if b.evalCmpc offset < mtch ∧ srchKey.getD (mtch - 1) 0 = keyDelimiter then mtch - 1 else mtch
    if env.altTop ≤ mtch then .error .keyoflow
    else
      match copyDelims b env.altTop env.altTop (srchKey.take mtch) (offset + recHdrSize + (mtch - b.evalCmpc offset)) with
      | .error sc => .error sc
      | .ok k => expandedKey k

/-- What a global keeps of its last search: the leaf block and the positions (`hist.h[0]`), the search key (`clue`), the bounds of
the keys of the leaf, and the key of the record before where that was computed. -/
structure GvClue where
  blk : GdsBlk
  clue : List UInt8
  firstRec : List UInt8
  lastRec : List UInt8
  stat : SrchStat
  prevKey : Option (List UInt8)

/-- The leaf that a search from the root comes to, and the bounds of its keys. -/
structure LeafRead where
  blk : GdsBlk
  firstRec : List UInt8
  lastRec : List UInt8

/-- What `gvcst_search` returns: the leaf and the positions in its history, `gv_altkey`, and the clue it leaves. -/
structure GvSearch where
  sc : BlkSc
  blk : GdsBlk
  stat : SrchStat
  altkey : List UInt8
  target : Option GvClue

/-- The search from the root. With a history of its own (`pHist`) it leaves the clue alone. A key before the first record of the
leaf is no clue. -/
def gvcstSearchRoot (env : SrchEnv) (ownHist : Bool) (leaf : LeafRead) (target : Option GvClue) (key altkey : List UInt8) : GvSearch :=
  let out := gvcstSearchBlk env leaf.blk key ⟨⟨0, 0⟩, ⟨0, 0⟩⟩ altkey
  if out.sc ≠ .normal ∨ ownHist = true then ⟨out.sc, leaf.blk, out.stat, out.altkey, target⟩
  else if out.stat.currRec.offset < blkHdrSize ∨ (out.stat.currRec.offset = blkHdrSize ∧ out.stat.currRec.mtch < key.length) then
    ⟨.normal, leaf.blk, out.stat, out.altkey, none⟩
  else
    ⟨.normal, leaf.blk, out.stat, out.altkey,
      some ⟨leaf.blk, key, leaf.firstRec, leaf.lastRec, out.stat, if env.expandPrevKey then some out.altkey else none⟩⟩

/-- The clue behind a search that has used it (`COPY_CURR_AND_PREV_KEY_TO_GVTARGET_CLUE`). -/
def GvClue.moved (c : GvClue) (env : SrchEnv) (key : List UInt8) (out : SrchOut) : GvClue :=
  { c with clue := key, stat := out.stat, prevKey := if env.expandPrevKey then some out.altkey else none }

/-- `gvcst_search`. -/
def gvcstSearch (env : SrchEnv) (usable ownHist : Bool) (leaf : LeafRead) (target : Option GvClue) (key altkey : List UInt8) :
    GvSearch :=
  let root := gvcstSearchRoot env ownHist leaf target key altkey
  match target with
  | none => root
  | some c =>
    if usable = false then root
    else if c.clue < key then
      if key ≤ c.lastRec then
        let out := gvcstSearchTail env c.blk key c.clue c.stat altkey c.prevKey
        if out.sc = .normal then ⟨.normal, c.blk, out.stat, out.altkey, some (if ownHist then c else c.moved env key out)⟩ else root
      else root
    else if key < c.clue then
      if c.firstRec ≤ key then
        let out := gvcstSearchBlk env c.blk key c.stat altkey
        if out.sc = .normal then ⟨.normal, c.blk, out.stat, out.altkey, some (if ownHist then c else c.moved env key out)⟩ else root
      else root
    else if env.expandPrevKey = false then ⟨.normal, c.blk, c.stat, altkey, some c⟩
    else
      match c.prevKey with
      | some k => ⟨.normal, c.blk, c.stat, k, some c⟩
      | none =>
        match gvcstExpandPrevKey env c.blk c.stat c.clue with
        | .ok k => ⟨.normal, c.blk, c.stat, k, some { c with prevKey := some k }⟩
        | .error _ => root

/-- The database as far as the searches depend on it: the block size, and the largest size of a key. -/
structure KeyEnv where
  blkSize : Nat
  maxKeySize : Nat

/-- The block is one of the database, as `cert_blk` accepts it, its keys start with the name of a global and have no more than the
largest size. -/
structure KeyEnv.Holds (d : KeyEnv) (b : GdsBlk) : Prop where
  cert : ∃ cenv : CertEnv, cenv.blkSize = d.blkSize ∧ certBlk cenv b = true
  name {off : Nat} {k : List UInt8} (h : (off, some k) ∈ decompress b b.bsiz blkHdrSize []) : k.head? ≠ some keyDelimiter
  size {off : Nat} {k : List UInt8} (h : (off, some k) ∈ decompress b b.bsiz blkHdrSize []) : k.length ≤ d.maxKeySize

/-- The process searches this database, with a key buffer that has room to spare (`DBKEYSIZE`). -/
structure KeyEnv.Open (d : KeyEnv) (env : SrchEnv) : Prop where
  blkSize : env.blkSize = d.blkSize
  room : d.maxKeySize < env.altTop

/-- From these positions the full keys on both sides of the search key are found. The star-key record has none. -/
structure Expanded (env : SrchEnv) (b : GdsBlk) (stat : SrchStat) (key : List UInt8) : Prop where
  curr {off : Nat} {k : List UInt8} (h : firstNotBefore b key = some (off, some k)) : gvcstExpandCurrKey env b stat key = .ok k
  prev {off : Nat} {k : List UInt8} (h : lastBefore b key = some (off, some k)) : gvcstExpandPrevKey env b stat key = .ok k

/-- The clues that searches leave, in any order and with any expansions. Anything else that is done may drop the clue. -/
inductive KeyEnv.Left (d : KeyEnv) : Option GvClue → Prop where
  | none : d.Left none
  | search {target : Option GvClue} (h : d.Left target) (env : SrchEnv) (henv : d.Open env) (usable ownHist : Bool) (leaf : LeafRead)
      (hleaf : d.Holds leaf.blk) (hlevl : leaf.blk.levl = 0) (key altkey : List UInt8) (hkey : isKey key = true) :
      d.Left (gvcstSearch env usable ownHist leaf target key altkey).target

end Gtm
