import Gtm.Lib.DoublingRows

/-!
# Lists of elements in rows that double

A buddy list keeps elements of one size in rows that are allocated when they are needed and never moved. The list is given back from its end.
An operation in which a value of type `int4` overflows has no result.
-/

namespace Gtm

namespace Buddy

/-- The value of an expression of type `int4`. -/
def int4 (x : Int) : Option Int := if -2147483648 ≤ x ∧ x < 2147483648 then some x else none

/-- A cast to `int4`. -/
def castInt4 (x : Int) : Int := x.bmod (2 ^ 32)

/-- The blocks that have been allocated, each with its size, and what is in memory. -/
structure SysMem where
  taken : List (Int × Int)
  mem : Int → UInt8

/-- The allocator: where it finds a block, apart from those that are taken, and what is left in it. -/
structure Malloc where
  addr : List (Int × Int) → Int → Int
  fill : List (Int × Int) → Int → UInt8
  apart : ∀ (taken : List (Int × Int)) (size : Int), ∀ b ∈ taken, addr taken size + size ≤ b.1 ∨ b.1 + b.2 ≤ addr taken size

/-- `malloc`. -/
def malloc (m : Malloc) (s : SysMem) (size : Int) : Int × SysMem :=
  let a := m.addr s.taken size
  (a, ⟨(a, size) :: s.taken, fun x => if a ≤ x ∧ x < a + size then m.fill s.taken x else s.mem x⟩)

/-- `buddy_list`; `ptrArrayCurr` is the index of the row. -/
structure BuddyList where
  ptrArray : Nat → Option Int
  elemSize : Int
  initAlloc : Int
  initAllocBits : Nat
  nElems : Int
  cumulMaxElems : Int
  ptrArrayCurr : Nat
  nextFreePtr : Int

/-- The loop that leaves only the highest bit. -/
def floorPower : Nat → Nat → Nat
  | 0, temp => temp
  | fuel + 1, temp => if temp &&& (temp - 1) ≠ 0 then floorPower fuel (temp &&& (temp - 1)) else temp

/-- `for ( ; x >> i; i++)`, for an `int4`. -/
def bitLoop (x : Nat) : Nat → Nat → Nat
  | 0, i => i
  | fuel + 1, i => if x >>> i ≠ 0 then bitLoop x fuel (i + 1) else i

/-- `initialize_list`. Both numbers are positive, but for an `initAlloc` of 0, which stands for 1. -/
def initializeList (m : Malloc) (s : SysMem) (elemSize initAlloc : Nat) : Option (BuddyList × SysMem) := do
  let initAlloc := if initAlloc = 0 then 1 else initAlloc
  let elemSize ← int4 ((elemSize + 7) / 8 * 8 : Nat)
  let temp := floorPower initAlloc initAlloc
  let initAlloc ← int4 (if initAlloc ≠ temp then temp <<< 1 else initAlloc : Nat)
  let bits := bitLoop initAlloc.toNat 32 0 - 1
  let (row, s) := malloc m s (initAlloc * elemSize)
  return (⟨fun i => if i = 0 then some row else none, elemSize, initAlloc, bits, 0, initAlloc, 0, row⟩, s)

/-- `reinitialize_list`. -/
def reinitializeList (list : BuddyList) : Option BuddyList :=
  match list.ptrArray 0 with
  | none => none
  | some row => some { list with nElems := 0, cumulMaxElems := list.initAlloc, ptrArrayCurr := 0, nextFreePtr := row }

/-- The loop of `free_last_n_elements` over the rows: what is left to free, the elements in the row, `cumulMaxElems` and the row. -/
def freeRows (initAlloc : Int) : Nat → (numLeft rowElemsLeft rowElemsMax cumulMaxElems : Int) → Int × Int × Int × Nat
  | 0, numLeft, rowElemsLeft, _, cumulMaxElems => (numLeft, rowElemsLeft, cumulMaxElems, 0)
  | curr + 1, numLeft, rowElemsLeft, rowElemsMax, cumulMaxElems =>
    if rowElemsLeft ≤ numLeft then
      let rowElemsNext := if rowElemsMax ≠ initAlloc then rowElemsMax / 2 else rowElemsMax
      freeRows initAlloc curr (numLeft - rowElemsLeft) rowElemsNext rowElemsNext (cumulMaxElems - rowElemsMax)
    else (numLeft, rowElemsLeft, cumulMaxElems, curr + 1)

/-- `free_last_n_elements`. -/
def freeLastNElements (list : BuddyList) (num : Int) : Option (BuddyList × Bool) :=
  if num ≤ list.nElems then do
    let curr ← list.ptrArray list.ptrArrayCurr
    let rowElemsLeft := (castInt4 (list.nextFreePtr - curr)).tdiv list.elemSize
    let rowElemsMax := list.nElems - rowElemsLeft
    let (numLeft, rowElemsLeft, cumulMaxElems, row) := freeRows list.initAlloc list.ptrArrayCurr num rowElemsLeft rowElemsMax
      list.cumulMaxElems
    let start ← list.ptrArray row
    let offset ← int4 (list.elemSize * (rowElemsLeft - numLeft))
    return ({ list with
      nElems := list.nElems - num, cumulMaxElems := cumulMaxElems, ptrArrayCurr := row, nextFreePtr := start + offset }, true)
  else some (list, false)

/-- The loop of `get_new_element` over further rows. -/
def growRows (m : Malloc) (nElements : Int) : Nat → BuddyList → SysMem → Option (Int × Int × BuddyList × SysMem)
  | 0, _, _ => none
  | fuel + 1, list, s => do
    let curr := list.ptrArrayCurr + 1
    let (retPtr, list, s) :=
      match list.ptrArray curr with
      | some row => (row, list, s)
      | none =>
        let (row, s) := malloc m s (list.cumulMaxElems * list.elemSize)
        (row, { list with ptrArray := fun i => if i = curr then some row else list.ptrArray i }, s)
    let nElems := list.cumulMaxElems
    let cumulMaxElems ← int4 (nElems * 2)
    let list := { list with ptrArrayCurr := curr, cumulMaxElems := cumulMaxElems }
    if cumulMaxElems < nElems + nElements then growRows m nElements fuel list s else return (retPtr, nElems, list, s)

/-- `get_new_element`. There are no more rows than `ptrArray` has entries. -/
def getNewElement (m : Malloc) (list : BuddyList) (s : SysMem) (nElements : Int) : Option (Int × BuddyList × SysMem) := do
  let sum ← int4 (list.nElems + nElements)
  let size ← int4 (nElements * list.elemSize)
  if sum ≤ list.cumulMaxElems then
    return (list.nextFreePtr, { list with nextFreePtr := list.nextFreePtr + size, nElems := sum }, s)
  else
    let (retPtr, nElems, list, s) ← growRows m nElements 64 list s
    return (retPtr, { list with nElems := nElems + nElements, nextFreePtr := retPtr + size }, s)

/-- `find_element`; the inner `none` is NULL. -/
def findElement (list : BuddyList) (index : Nat) : Option (Option Int) :=
  if list.nElems ≤ index then some none
  else do
    let i := bitLoop index 32 list.initAllocBits - list.initAllocBits
    let row ← list.ptrArray i
    let before ← int4 (list.initAlloc * (if i ≠ 0 then 1 <<< (i - 1) else 0 : Nat))
    let offset ← int4 (list.elemSize * (index - before))
    return some (row + offset)

/-- What is in memory from an address on. -/
def bytesAt (mem : Int → UInt8) (a size : Int) : List UInt8 := (List.range size.toNat).map fun k : Nat => mem (a + k)

/-- The loop of `copy_list_to_buf`. -/
def copyRows (list : BuddyList) (mem : Int → UInt8) : Nat → Nat → (numElems curElems cumulMaxElems : Int) → Option (List UInt8)
  | 0, _, _, _, _ => none
  | fuel + 1, curr, numElems, curElems, cumulMaxElems => do
    let copyElems := if numElems < curElems then numElems else curElems
    let row ← list.ptrArray curr
    let bytes := bytesAt mem row (copyElems * list.elemSize)
    if numElems - copyElems = 0 then return bytes
    else
      let cumulNext ← int4 (cumulMaxElems * 2)
      let rest ← copyRows list mem fuel (curr + 1) (numElems - copyElems) cumulMaxElems cumulNext
      return bytes ++ rest

/-- `copy_list_to_buf`: what is written from `dst` on. -/
def copyListToBuf (list : BuddyList) (mem : Int → UInt8) (numElems : Int) : Option (List UInt8) :=
  copyRows list mem 64 0 numElems list.initAlloc list.initAlloc

/-! ## Runs -/

/-- The operations, and a store to the element with a number. -/
inductive BuddyOp where
  | get
  | freeLast (num : Nat)
  | reinit
  | store (i : Nat) (bytes : List UInt8)

/-- A list in memory, the addresses that have been handed out for its elements, and what was last stored to them. -/
structure BuddyRun where
  list : BuddyList
  sys : SysMem
  addrs : List Int
  vals : List (List UInt8)

/-- A store of bytes. -/
def storeBytes (mem : Int → UInt8) (a : Int) (bytes : List UInt8) : Int → UInt8 :=
  fun x => if a ≤ x ∧ x < a + bytes.length then bytes.getD (x - a).toNat 0 else mem x

/-- One operation. A new element holds what is in memory; a store is of a whole element. -/
def buddyStep (m : Malloc) (r : BuddyRun) : BuddyOp → Option BuddyRun
  | .get =>
    (getNewElement m r.list r.sys 1).map fun (a, list, sys) =>
      ⟨list, sys, r.addrs ++ [a], r.vals ++ [bytesAt sys.mem a list.elemSize]⟩
  | .freeLast num =>
    (freeLastNElements r.list num).map fun (list, freed) =>
      if freed then ⟨list, r.sys, r.addrs.take (r.addrs.length - num), r.vals.take (r.vals.length - num)⟩
      else { r with list := list }
  | .reinit => (reinitializeList r.list).map fun list => ⟨list, r.sys, [], []⟩
  | .store i bytes =>
    match r.addrs[i]? with
    | none => some r
    | some a =>
      if (bytes.length : Int) = r.list.elemSize then
        some { r with sys := { r.sys with mem := storeBytes r.sys.mem a bytes }, vals := r.vals.set i bytes }
      else some r

/-- A run from a new list. -/
def buddyRun (m : Malloc) : List BuddyOp → BuddyRun → Option BuddyRun
  | [], r => some r
  | op :: ops, r => (buddyStep m r op).bind (buddyRun m ops)

/-- A new list. -/
def buddyInit (m : Malloc) (s : SysMem) (elemSize initAlloc : Nat) : Option BuddyRun :=
  (initializeList m s elemSize initAlloc).map fun (list, sys) => ⟨list, sys, [], []⟩

end Buddy

end Gtm
