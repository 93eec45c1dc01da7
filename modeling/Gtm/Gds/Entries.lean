import Gtm.Gds.BlkSearch
import Gtm.Lib.CommonPrefix

/-!
# What a block holds

A block stands for a list of entries: full keys with their values in key order, and at the end of an index block the star entry,
which has no key. `Laid` says that a buffer holds a list of entries, each record with the exact compression count against the
record before it; `Contents` says that the entries are those of a well-formed block. The search is compared with one that
decompresses every key.
-/

namespace Gtm

open CommonPrefix LexOrder

/-- A key with its two final delimiters, the only place with two of them. -/
def isKey : List UInt8 → Bool
  | a :: b :: rest => if a = keyDelimiter ∧ b = keyDelimiter then rest.isEmpty else isKey (b :: rest)
  | _ => false

/-- The bytes up to the first two delimiters. -/
def takeKey : List UInt8 → List UInt8
  | a :: b :: rest => if a = keyDelimiter ∧ b = keyDelimiter then [a, b] else a :: takeKey (b :: rest)
  | l => l

/-- An entry of a block; the star entry has no key. -/
structure Entry where
  key : Option (List UInt8)
  val : List UInt8
deriving DecidableEq, Repr

namespace Entry

/-- The bytes of the key, none for the star entry. -/
def keyBytes (e : Entry) : List UInt8 := e.key.getD []

/-- The exact compression count behind a record with the given key. -/
def cmpc (prior : List UInt8) (e : Entry) : Nat := lcp prior e.keyBytes

/-- What a record holds behind its header. -/
def data (prior : List UInt8) (e : Entry) : List UInt8 := e.keyBytes.drop (e.cmpc prior) ++ e.val

/-- The size of the record. -/
def size (prior : List UInt8) (e : Entry) : Nat := recHdrSize + (e.data prior).length

end Entry

/-- The buffer has the given bytes at an offset. -/
def GdsBlk.HasBytes (b : GdsBlk) (off : Nat) (l : List UInt8) : Prop := b.bytes off l.length = l

/-- From the offset to the end of the block the buffer holds the entries. `prior` is the key before them. -/
def Laid (b : GdsBlk) : Nat → List UInt8 → List Entry → Prop
  | off, _, [] => off = b.bsiz
  | off, prior, e :: es =>
    b.rsiz off = e.size prior ∧ b.evalCmpc off = e.cmpc prior ∧ b.HasBytes (off + recHdrSize) (e.data prior) ∧
      off + e.size prior ≤ b.bsiz ∧ Laid b (off + e.size prior) e.keyBytes es

/-- The entries may stand behind the key `prior` in a well-formed block: ascending keys, in an index block each with a block
number, the star entry there and only there the last. -/
def Contents (level0 : Bool) (blkIdSz : Nat) : List UInt8 → List Entry → Prop
  | _, [] => level0 = true
  | prior, e :: es =>
    match e.key with
    | none => level0 = false ∧ es = [] ∧ e.val.length = blkIdSz
    | some k => isKey k = true ∧ prior < k ∧ (level0 = false → e.val.length = blkIdSz) ∧ Contents level0 blkIdSz k es

/-- The buffer is a well-formed block with these entries. The keys of a leaf start with the first character of a name. -/
structure WfBlk (b : GdsBlk) (es : List Entry) : Prop where
  laid : Laid b blkHdrSize [] es
  contents : Contents (decide (b.levl = 0)) (sizeofBlkId b.longBlkId) [] es
  start : b.levl = 0 → ∀ e ∈ es, e.keyBytes.head? ≠ some keyDelimiter

instance (b : GdsBlk) (off : Nat) (l : List UInt8) : Decidable (b.HasBytes off l) := inferInstanceAs (Decidable (_ = _))

instance Laid.decidable (b : GdsBlk) : ∀ off prior es, Decidable (Laid b off prior es)
  | _, _, [] => inferInstanceAs (Decidable (_ = _))
  | off, prior, e :: es =>
    have := Laid.decidable b (off + e.size prior) e.keyBytes es
    inferInstanceAs (Decidable (_ ∧ _ ∧ _ ∧ _ ∧ _))

instance Contents.decidable (level0 : Bool) (blkIdSz : Nat) : ∀ prior es, Decidable (Contents level0 blkIdSz prior es)
  | _, [] => inferInstanceAs (Decidable (_ = _))
  | _, ⟨none, _⟩ :: _ => inferInstanceAs (Decidable (_ ∧ _ ∧ _))
  | _, ⟨some k, _⟩ :: es =>
    have := Contents.decidable level0 blkIdSz k es
    inferInstanceAs (Decidable (_ ∧ _ ∧ _ ∧ _))

/-- Every record of a block with its offset and its full key, which the star-key record does not have. -/
def decompress (b : GdsBlk) : Nat → Nat → List UInt8 → List (Nat × Option (List UInt8))
  | 0, _, _ => []
  | fuel + 1, rp, prior =>
    if b.bsiz ≤ rp then []
    else if b.levl ≠ 0 ∧ rp + b.rsiz rp = b.bsiz then [(rp, none)]
    else
      let key := takeKey (prior.take (b.evalCmpc rp) ++ b.bytes (rp + recHdrSize) (b.rsiz rp - recHdrSize))
      (rp, some key) :: decompress b fuel (rp + b.rsiz rp) key

/-- The record is before the search key; the star-key record is behind all keys. -/
def recBefore (key : List UInt8) (r : Nat × Option (List UInt8)) : Bool := r.2.any fun k => decide (k < key)

/-- The position of a record and how far its key agrees with the search key; the star-key record has none that could. -/
def recStat (key : List UInt8) (r : Nat × Option (List UInt8)) : SrchRec := ⟨r.1, (r.2.map fun k => lcp k key).getD 0⟩

/-- The record before the first record that is not before the search key. -/
def lastBefore (b : GdsBlk) (key : List UInt8) : Option (Nat × Option (List UInt8)) :=
  ((decompress b b.bsiz blkHdrSize []).takeWhile (recBefore key)).getLast?

/-- The first record whose key is not before the search key. -/
def firstNotBefore (b : GdsBlk) (key : List UInt8) : Option (Nat × Option (List UInt8)) :=
  ((decompress b b.bsiz blkHdrSize []).dropWhile (recBefore key)).head?

/-- The search that decompresses: the first record whose key is not before the search key, or the end of the block, and the record
before it, with the lengths of the common beginnings. -/
def naiveSearch (b : GdsBlk) (key : List UInt8) : SrchStat :=
  { prevRec := ((lastBefore b key).map (recStat key)).getD ⟨0, 0⟩
    currRec := ((firstNotBefore b key).map (recStat key)).getD ⟨b.bsiz, 0⟩ }

/-- The key of the record before the position of a search key, empty if there is none. -/
def naivePrevKey (b : GdsBlk) (key : List UInt8) : List UInt8 := ((lastBefore b key).bind (·.2)).getD []

end Gtm
