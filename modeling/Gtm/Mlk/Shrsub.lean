import Gtm.Lib.ByteWords
import Gtm.Stp.Gcol

/-!
# The subscripts of the lock space

The area of `mlk_shrsub` entries (`mlkdef.h`): the subscript of each node of the lock tree, one behind the other from `subbase` to
`subfree`. An entry starts with a pointer back to its node, zero when the entry is abandoned, then the length of the subscript in one
byte and its bytes, rounded up. A node starts with the pointer to its entry. All pointers are relative to their own addresses. The
pointers of `mlk_ctldata` are told as the addresses they stand for, and a node is its address.
-/

namespace Gtm

open ByteWords

/-- The memory of a lock space and the pointers of `mlk_ctldata` to the subscripts in it. -/
structure MlkSubs where
  mem : Nat → UInt8
  subbase : Nat
  subfree : Nat
  subtop : Nat

/-- `R2A`: what the relative pointer at an address points to. -/
def r2a (mem : Nat → UInt8) (x : Nat) : Nat := (BitVec.ofNat 64 x + getWord mem x).toNat

/-- `A2R`: the relative pointer at `x` made to point to `y`. -/
def a2r (mem : Nat → UInt8) (x y : Nat) : Nat → UInt8 := setWord mem x (BitVec.ofNat 64 y - BitVec.ofNat 64 x)

/-- `ROUND_UP`. -/
def roundUp (value modulus : Nat) : Nat := (value + modulus - 1) / modulus * modulus

/-- `MLK_SHRSUB_SIZE`: the bytes before the data are the pointer and the length. -/
def mlkShrsubSize (length : UInt8) : Nat := roundUp (9 + length.toNat) 8

/-- `mlk_shrblk_create` goes on: there is room for the subscripts of the `nshrs` nodes it is called for, the first of them `off` bytes
into the `nrefLength` bytes of the private block (`MLK_PVTBLK_SHRSUB_SIZE`). -/
def MlkSubs.hasRoom (r : MlkSubs) (nshrs nrefLength off : Nat) : Bool :=
  !decide (r.subtop - r.subfree < nshrs * (9 + 8 - 1) + nrefLength - off)

/-- What `mlk_shrblk_create` does for the subscript of the node `ret`, once it has found that there is room. -/
def MlkSubs.create (r : MlkSubs) (ret : Nat) (val : List UInt8) (len : UInt8) : MlkSubs :=
  let n := mlkShrsubSize len
  let subptr := r.subfree
  let mem := a2r (a2r r.mem ret subptr) subptr ret
  let mem := Function.update mem (subptr + 8) len
  { r with
    subfree := r.subfree + n
    mem := fun x => if subptr + 9 ≤ x ∧ x < subptr + 9 + len.toNat then val.getD (x - (subptr + 9)) 0 else mem x }

/-- What `mlk_shrblk_delete_if_empty` does with the subscript of the node `d`. -/
def MlkSubs.abandon (r : MlkSubs) (d : Nat) : MlkSubs :=
  { r with mem := setWord (setWord r.mem (r2a r.mem d) 0) d 0 }

theorem mlkShrsubSize_pos (length : UInt8) : 9 + length.toNat ≤ mlkShrsubSize length := by
  unfold mlkShrsubSize roundUp
  omega

/-- The loop of `mlk_shrsub_garbage_collect`, from the entry at `p`: the memory and `delta` at its end. -/
def shrsubGcLoop (mem : Nat → UInt8) (p f delta : Nat) : (Nat → UInt8) × Nat :=
  if p < f then
    let n := mlkShrsubSize (mem (p + 8))
    let bckp := getWord mem p
    if bckp = 0 then shrsubGcLoop mem (p + n) f (delta + n)
    else if delta ≠ 0 then
      let b := r2a mem p
      let mem₁ := setWord mem b (getWord mem b - BitVec.ofNat 64 delta)
      let mem₂ := setWord mem₁ p (bckp + BitVec.ofNat 64 delta)
      shrsubGcLoop (memmove mem₂ (p - delta) p n) (p + n) f delta
    else shrsubGcLoop mem (p + n) f delta
  else (mem, delta)
termination_by f - p
decreasing_by all_goals have := mlkShrsubSize_pos (mem (p + 8)); omega

/-- `mlk_shrsub_garbage_collect`. -/
def mlkShrsubGarbageCollect (r : MlkSubs) : MlkSubs :=
  let (mem, delta) := shrsubGcLoop r.mem r.subbase r.subfree 0
  { r with mem, subfree := r.subfree - delta }

end Gtm
