import Gtm.Lib.SegmentSort

/-!
# `stpg_sort`

The sort of the array of pointers to live strings by address (`stpg_sort.c`): quicksort on an explicit stack of segments, short
segments by insertion. The array is a function of its index, `key` the address of what an entry points to, and a segment from `l`
to `r` is kept as `l` and the index after `r`.
-/

namespace Gtm

/-- `S_CUTOFF`. -/
def sCutoff : Nat := 15

variable {α : Type}

/-- The inner loop of the insertion sort: entries above `t` move up one place, from `jx` down, and `t` goes into the gap. -/
def insertDown (key : α → Nat) (l : Nat) (t : α) (arr : Nat → α) : Nat → Nat → α
  | 0 => Function.update arr 0 t
  | jx + 1 =>
    if l < jx + 1 ∧ key t < key (arr jx) then insertDown key l t (Function.update arr (jx + 1) (arr jx)) jx
    else Function.update arr (jx + 1) t

/-- The insertion sort, with `cnt` entries left to insert. -/
def insertionSort (key : α → Nat) (l : Nat) : Nat → Nat → (Nat → α) → Nat → α
  | 0, _, arr => arr
  | cnt + 1, ix, arr => insertionSort key l cnt (ix + 1) (insertDown key l (arr ix) arr ix)

/-- `while (ix < r && (*ix)->addr < tval) ix++`, with `cnt` places before `r`. -/
def scanUp (key : α → Nat) (arr : Nat → α) (tval : Nat) : Nat → Nat → Nat
  | 0, ix => ix
  | cnt + 1, ix => if key (arr ix) < tval then scanUp key arr tval cnt (ix + 1) else ix

/-- `while (jx > l && (*jx)->addr > tval) jx--`, with `cnt` places above `l`. -/
def scanDown (key : α → Nat) (arr : Nat → α) (tval : Nat) : Nat → Nat → Nat
  | 0, jx => jx
  | cnt + 1, jx => if tval < key (arr jx) then scanDown key arr tval cnt (jx - 1) else jx

/-- The array after the partition loop, the places where the two scans ended and the entry `t` exchanged last. -/
structure Partition (α : Type) where
  arr : Nat → α
  ix : Nat
  jx : Nat
  t : α

/-- The partition loop of a segment from `l` to `r`; the scans start at `ix` and below `jx`. -/
def partitionLoop (key : α → Nat) (tval l r : Nat) : Nat → (Nat → α) → Nat → Nat → Partition α
  | 0, arr, ix, jx => ⟨arr, ix, jx, arr ix⟩
  | fuel + 1, arr, ix, jx =>
    let ix := scanUp key arr tval (r - ix) ix
    let jx := scanDown key arr tval (jx - 1 - l) (jx - 1)
    let t := arr ix
    let arr := Function.update (Function.update arr ix (arr jx)) jx t
    if ix < jx then partitionLoop key tval l r fuel arr (ix + 1) jx else ⟨arr, ix, jx, t⟩

/-- One partition of a segment from `l` to `r` and the place of its pivot: the middle entry goes to the end first, and the last
exchange is undone together with its move to its place. -/
def partition (key : α → Nat) (l r : Nat) (arr : Nat → α) : (Nat → α) × Nat :=
  let kx := l + (r - l) / 2
  let v := arr kx
  let arr := Function.update (Function.update arr kx (arr r)) r v
  let p := partitionLoop key (key v) l r (r - l) arr l r
  let arr := Function.update p.arr p.jx (p.arr p.ix)
  let arr := Function.update arr p.ix (arr r)
  (Function.update arr r p.t, p.ix)

/-- The main loop: the segment `[l, e)` in hand and the stack of the others. -/
def sortLoop (key : α → Nat) : Nat → List (Nat × Nat) → Nat × Nat → (Nat → α) → Nat → α
  | 0, _, _, arr => arr
  | fuel + 1, sp, (l, e), arr =>
    if e < l + 1 + sCutoff then
      let arr := insertionSort key l (e - (l + 1)) (l + 1) arr
      match sp with
      | [] => arr
      | s :: sp => sortLoop key fuel sp s arr
    else
      let (arr, ix) := partition key l (e - 1) arr
      if e - 1 - ix < ix - l then sortLoop key fuel ((l, ix) :: sp) (ix + 1, e) arr
      else sortLoop key fuel ((ix + 1, e) :: sp) (l, ix) arr

/-- `stpg_sort` of an array of `n` entries. -/
def stpgSort (key : α → Nat) (n : Nat) (arr : Nat → α) : Nat → α := sortLoop key (2 * n + 1) [] (0, n) arr

end Gtm

/-!
## The sorts within their bounds

`stpg_sort` once more, and the parts it has in common with `gvcst_kill_sort`: here an array of `n` entries is only read and written
inside, and the stack of segments has room for 50 pointers. A sort that leaves either of them has no result.
-/

namespace Gtm

/-- The number of segments `stack[50]` has room for. -/
def stackSegs : Nat := 25

variable {α κ : Type} [LT κ] [DecidableLT κ]

/-- Reading the entry at `i`. -/
def cellRead (n : Nat) (arr : Nat → α) (i : Nat) : Option α := if i < n then some (arr i) else none

/-- Storing into the entry at `i`. -/
def cellWrite (n : Nat) (arr : Nat → α) (i : Nat) (t : α) : Option (Nat → α) :=
  if i < n then some (Function.update arr i t) else none

/-- The inner loop of the insertion sort. -/
def insertDownIn (key : α → κ) (n l : Nat) (t : α) (arr : Nat → α) : Nat → Option (Nat → α)
  | 0 => cellWrite n arr 0 t
  | jx + 1 =>
    if l < jx + 1 then
      (cellRead n arr jx).bind fun u =>
        if key t < key u then (cellWrite n arr (jx + 1) u).bind fun arr => insertDownIn key n l t arr jx
        else cellWrite n arr (jx + 1) t
    else cellWrite n arr (jx + 1) t

/-- The insertion sort, with `cnt` entries left to insert. -/
def insertionSortIn (key : α → κ) (n l : Nat) : Nat → Nat → (Nat → α) → Option (Nat → α)
  | 0, _, arr => some arr
  | cnt + 1, ix, arr =>
    (cellRead n arr ix).bind fun t => (insertDownIn key n l t arr ix).bind (insertionSortIn key n l cnt (ix + 1))

/-- The insertion sort of the segment `[l, e)`. -/
def insertionIn (key : α → κ) (n l e : Nat) (arr : Nat → α) : Option (Nat → α) := insertionSortIn key n l (e - (l + 1)) (l + 1) arr

/-- The partition loop: `up` finds the place the scan up from `ix` ends at, `down` the one that the scan from below `jx` does. -/
def partitionLoopIn (n : Nat) (up down : (Nat → α) → Nat → Option Nat) : Nat → (Nat → α) → Nat → Nat → Option (Partition α)
  | 0, _, _, _ => none
  | fuel + 1, arr, ix, jx =>
    (up arr ix).bind fun ix => (down arr jx).bind fun jx =>
    (cellRead n arr ix).bind fun t => (cellRead n arr jx).bind fun u =>
    (cellWrite n arr ix u).bind fun arr => (cellWrite n arr jx t).bind fun arr =>
      if ix < jx then partitionLoopIn n up down fuel arr (ix + 1) jx else some ⟨arr, ix, jx, t⟩

/-- One partition of a segment from `l` to `r` by the entry at `kx`, and the place of this pivot. -/
def partitionIn (n : Nat) (up down : α → (Nat → α) → Nat → Option Nat) (kx l r : Nat) (arr : Nat → α) :
    Option ((Nat → α) × Nat) :=
  (cellRead n arr kx).bind fun v => (cellRead n arr r).bind fun u =>
  (cellWrite n arr kx u).bind fun arr => (cellWrite n arr r v).bind fun arr =>
  (partitionLoopIn n (up v) (down v) (r - l) arr l r).bind fun p =>
  (cellRead n p.arr p.ix).bind fun u => (cellWrite n p.arr p.jx u).bind fun arr =>
  (cellRead n arr r).bind fun u => (cellWrite n arr p.ix u).bind fun arr =>
  (cellWrite n arr r p.t).bind fun arr => some (arr, p.ix)

/-- `l + ((int)(r - l) / 2)`; the cast keeps 32 bits, and an address below the array is none of its entries. -/
def middle (l r : Nat) : Option Nat :=
  let kx := (l : Int) + (((r - l : Nat) : Int).bmod (2 ^ 32)).tdiv 2
  if kx < 0 then none else some kx.toNat

/-- `while (ix < r && (*ix)->addr < tval) ix++`, with `cnt` places before `r`. -/
def scanUpIn (key : α → κ) (n : Nat) (tval : κ) (arr : Nat → α) : Nat → Nat → Option Nat
  | 0, ix => some ix
  | cnt + 1, ix => (cellRead n arr ix).bind fun u => if key u < tval then scanUpIn key n tval arr cnt (ix + 1) else some ix

/-- `do jx--; while (jx > l && (*jx)->addr > tval)`. -/
def scanDownIn (key : α → κ) (n l : Nat) (tval : κ) (arr : Nat → α) : Nat → Option Nat
  | 0 => none
  | jx + 1 =>
    if l < jx then (cellRead n arr jx).bind fun u => if tval < key u then scanDownIn key n l tval arr jx else some jx
    else some jx

/-- One partition of `stpg_sort`. -/
def stpgPartitionIn (key : α → κ) (n l r : Nat) (arr : Nat → α) : Option ((Nat → α) × Nat) :=
  (middle l r).bind fun kx =>
    partitionIn n (fun v arr ix => scanUpIn key n (key v) arr (r - ix) ix) (fun v arr jx => scanDownIn key n l (key v) arr jx)
      kx l r arr

/-- `stpg_sort` of an array of `n` entries. -/
def stpgSortIn (key : α → κ) (n : Nat) (arr : Nat → α) : Option (Nat → α) :=
  Segment.sortSegs stackSegs sCutoff (insertionIn key n) (stpgPartitionIn key n) (2 * n + 1) [] (0, n) arr

end Gtm
