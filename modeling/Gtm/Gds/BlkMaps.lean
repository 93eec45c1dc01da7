import Mathlib

/-!
# Bitmaps of blocks

The master map has one bit for each local bitmap, set as long as there is a free block in it; a local bitmap has two bits for each
block. `gtm_ffs` and `bmm_find_free` search the master map, `bml_find_free` and `bm_find_blk` a local one.

A map is the byte at each offset, and the memory behind it. `NO_FREE_SPACE` is none.
-/

namespace Gtm

/-! ## The master map -/

/-- A loop of `gtm_ffs` over bits of one byte, where the first of them is number `ret` of the map. -/
def ffsBits (c : UInt8) : Nat → Nat → Nat → Option Nat
  | _, _, 0 => none
  | bit, ret, n + 1 => if c.toNat.testBit bit then some ret else ffsBits c (bit + 1) (ret + 1) n

/-- The loop of `gtm_ffs` over full bytes, and the part of a byte at the end. -/
def ffsBytes (addr : Nat → UInt8) (top c i : Nat) : Option Nat :=
  if i < top / 8 * 8 then (if addr c ≠ 0 then ffsBits (addr c) 0 i 8 else none).or (ffsBytes addr top (c + 1) (i + 8))
  else ffsBits (addr c) 0 i (top - i)
termination_by top - i

/-- `gtm_ffs`. -/
def gtmFfs (offset : Nat) (addr : Nat → UInt8) (size : Nat) : Option Nat :=
  let c := offset / 8
  let i := offset % 8
  let first := if i ≠ 0 then ffsBits (addr c) i offset (min (8 - i) size) else none
  first.or (ffsBytes addr (size + offset) (if i ≠ 0 then c + 1 else c) ((offset + 7) / 8 * 8))

/-- `MAX_FFS_SIZE`. -/
def maxFfsSize : Nat := 32

/-- The inner loop of `bmm_find_free`. -/
def bmmPass (addr : Nat → UInt8) (top start width : Nat) : Option Nat :=
  if 0 < width then
    (gtmFfs start addr width).or (bmmPass addr top (start + width) (min (top - (start + width)) maxFfsSize))
  else none
termination_by (top - start, width)
decreasing_by
  simp only [maxFfsSize, Prod.lex_def]
  omega

/-- `bmm_find_free`: from the hint to the end, and from the beginning to the hint. -/
def bmmFindFree (hint : Nat) (addr : Nat → UInt8) (totalBits : Nat) : Option Nat :=
  let hint := if hint ≥ totalBits then 0 else hint
  let pass (start top : Nat) := bmmPass addr top start (min top (start / maxFfsSize * maxFfsSize + maxFfsSize) - start)
  if totalBits = 0 then none else (pass hint totalBits).or (if hint = 0 then none else pass 0 hint)

/-! ## Local bitmaps -/

/-- The status of a block in its local bitmap. -/
inductive BmStatus where
  | busy
  | free
  | mapInvalid
  | recycled
deriving DecidableEq, Repr

/-- The status that two bits stand for (`BLK_BUSY`, `BLK_FREE`, `BLK_MAPINVALID`, `BLK_RECYCLED`). -/
def BmStatus.ofBits : Nat → BmStatus
  | 0 => .busy
  | 1 => .free
  | 2 => .mapInvalid
  | _ => .recycled

/-- `GET_BM_STATUS`. -/
def getBmStatus (base : Nat → UInt8) (blknum : Nat) : BmStatus :=
  .ofBits (((base (blknum * 2 / 8)).toNat >>> (blknum * 2 % 8)) &&& 3)

/-- `RETURN_IF_FREE`. -/
def returnIfFree (valid : UInt8) (ptr : Nat) : Option Nat :=
  if valid = 0 then none
  else some (ptr * 4 + if valid > 0x3F then 3 else if valid > 0x0F then 2 else if valid > 0x03 then 1 else 0)

/-- The last byte of a bitmap of so many bits, as far as it belongs to it. -/
def lastByte (totalBits : Nat) (c : UInt8) : UInt8 :=
  if totalBits % 8 = 6 then c &&& 0x3F else if totalBits % 8 = 4 then c &&& 0x0F else if totalBits % 8 = 2 then c &&& 0x03 else c

/-- A loop of `bml_find_free`. -/
def bmlScan (base : Nat → UInt8) (ptr top : Nat) : Option Nat :=
  if ptr < top then (returnIfFree (base ptr) ptr).or (bmlScan base (ptr + 1) top) else none
termination_by top - ptr

/-- `bml_find_free`. Behind the first loop `ptr` is at the last byte, or still where it has started behind that. -/
def bmlFindFree (hint : Nat) (base : Nat → UInt8) (total : Nat) : Option Nat :=
  let hint := hint * 2 / 8
  let totalBits := total * 2
  let hint := if hint > (totalBits + 7) / 8 then 0 else hint
  let top := (totalBits + 7) / 8 - 1
  let ptr := max hint top
  ((bmlScan base hint top).or (if base ptr ≠ 0 then returnIfFree (lastByte totalBits (base ptr)) ptr else none)).or
    (if hint ≠ 0 then bmlScan base 0 hint else none)

/-- What `bm_find_blk` returns for a byte, and `*used`. -/
def firstBlk (valid : UInt8) (ptr : Nat) : Option (Nat × Bool) :=
  if valid = 0 then none
  else if valid &&& 1 ≠ 0 then some (ptr * 4, valid &&& 2 ≠ 0)
  else if valid &&& 4 ≠ 0 then some (ptr * 4 + 1, valid &&& 8 ≠ 0)
  else if valid &&& 16 ≠ 0 then some (ptr * 4 + 2, valid &&& 32 ≠ 0)
  else some (ptr * 4 + 3, valid &&& 128 ≠ 0)

/-- A byte from the hint on. -/
def hintByte (hint : Nat) (c : UInt8) : UInt8 :=
  match hint % 4 with
  | 1 => c &&& 252
  | 2 => c &&& 240
  | 3 => c &&& 192
  | _ => c

/-- The loop of `bm_find_blk`, and the last byte, unless `ptr` is behind it. -/
def bmFindRest (base : Nat → UInt8) (totalBits top ptr : Nat) : Option (Nat × Bool) :=
  if ptr < top then (firstBlk (base ptr) ptr).or (bmFindRest base totalBits top (ptr + 1))
  else if ptr = top ∧ base ptr ≠ 0 then firstBlk (lastByte totalBits (base ptr)) ptr
  else none
termination_by top - ptr

/-- `bm_find_blk`. -/
def bmFindBlk (hint : Nat) (base : Nat → UInt8) (total : Nat) : Option (Nat × Bool) :=
  let totalBits := total * 2
  let top := (totalBits + 7) / 8 - 1
  if hint ≠ 0 then
    let ptr := hint * 2 / 8
    let valid := if ptr = top then lastByte totalBits (base ptr) else base ptr
    (firstBlk (hintByte hint valid) ptr).or (bmFindRest base totalBits top (ptr + 1))
  else bmFindRest base totalBits top 0

end Gtm
