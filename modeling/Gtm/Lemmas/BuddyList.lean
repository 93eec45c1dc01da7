import Gtm.Mem.BuddyList

/-!
# What a buddy list looks like

The number of elements fixes the row and the counters. The rows are apart from each other, so that the elements are.
-/

namespace Gtm

namespace Buddy

open DoublingRows

variable {A S n : Nat} {list : BuddyList} {sys : SysMem}

theorem int4_eq {x : Int} (hlow : -2147483648 ≤ x) (hhigh : x < 2147483648) : int4 x = some x := if_pos ⟨hlow, hhigh⟩

/-! ## The bit loops -/

/-- Without its lowest bit a number that is no power of two keeps its highest one. -/
theorem pow_le_and_pred {k t : Nat} (hlow : 2 ^ k < t) (hhigh : t < 2 ^ (k + 1)) : 2 ^ k ≤ t &&& (t - 1) := by
  have hbit (x : Nat) (hx : 2 ^ k ≤ x) (hx' : x < 2 ^ (k + 1)) : x.testBit k = true := by
    rw [Nat.testBit_eq_decide_div_mod_eq]
    have hdiv : x / 2 ^ k = 1 := by
      exact Nat.div_eq_of_lt_le (by omega) (by omega)
    simp [hdiv]
  refine Nat.ge_two_pow_of_testBit ?_
  rw [Nat.testBit_and, hbit t hlow.le hhigh, hbit (t - 1) (by omega) (by omega)]
  rfl

theorem floorPower_eq {k : Nat} {fuel t : Nat} (hfuel : t ≤ fuel) (hlow : 2 ^ k ≤ t) (hhigh : t < 2 ^ (k + 1)) : floorPower fuel t = 2 ^ k := by
  induction fuel generalizing t with
  | zero =>
    omega
  | succ fuel ih =>
    rw [floorPower]
    rcases Nat.lt_or_eq_of_le hlow with hlt | rfl
    · have hand : t &&& (t - 1) ≤ t - 1 := Nat.and_le_right
      have hkeep := pow_le_and_pred hlt hhigh
      rw [if_pos (by omega)]
      exact ih (by omega) hkeep (by omega)
    · simp [Nat.and_two_pow_sub_one_eq_mod]

/-- The loop ends at the number of bits. -/
theorem bitLoop_eq {x k fuel i : Nat} (hi : i ≤ k) (hfuel : k ≤ i + fuel) (hbelow : ∀ j, i ≤ j → j < k → 2 ^ j ≤ x) (hx : x < 2 ^ k) :
    bitLoop x fuel i = k := by
  induction fuel generalizing i with
  | zero =>
    obtain rfl : i = k := by omega
    rfl
  | succ fuel ih =>
    rw [bitLoop]
    rcases Nat.lt_or_eq_of_le hi with hlt | rfl
    · have hne : x >>> i ≠ 0 := by
        rw [Nat.shiftRight_eq_div_pow]
        exact (Nat.div_pos (hbelow i (Nat.le_refl _) hlt) (Nat.pow_pos (by omega))).ne'
      rw [if_pos hne]
      exact ih (by omega) (by omega) fun j hj hjk => hbelow j (by omega) hjk
    · have hzero : x >>> i = 0 := by rw [Nat.shiftRight_eq_div_pow, Nat.div_eq_of_lt hx]
      rw [if_neg (not_not.2 hzero)]

/-! ## The layout -/

/-- The address of a row. -/
def base (list : BuddyList) (j : Nat) : Int := (list.ptrArray j).getD 0

/-- A list with one more row. -/
def BuddyList.withRow (list : BuddyList) (j : Nat) (row : Int) : BuddyList :=
  { list with ptrArray := fun i => if i = j then some row else list.ptrArray i }

@[simp] theorem base_withRow_self (list : BuddyList) (j : Nat) (row : Int) : base (list.withRow j row) j = row := by
  simp [base, BuddyList.withRow]

theorem base_withRow (list : BuddyList) {i j : Nat} (row : Int) (h : i ≠ j) : base (list.withRow j row) i = base list i := by
  simp [base, BuddyList.withRow, h]

/-- How many bytes a row has. -/
def rowBytes (A S j : Nat) : Nat := S * (rowEnd A j - rowStart A j)

/-- How many bytes an element is from the start of its row. -/
def rowOffset (A S i : Nat) : Nat := S * (i - rowStart A (rowOf A i))

/-- How many bytes of the last row in use `n` elements take up. -/
def endOffset (A S n : Nat) : Nat := S * (n - rowStart A (endRow A n))

/-- The address of an element. -/
def elemAddr (list : BuddyList) (A S i : Nat) : Int := base list (rowOf A i) + rowOffset A S i

/-- A list of `n` elements of `S` bytes, the first row of which has `A`, and the rows that have been allocated. -/
structure Layout (A S n : Nat) (list : BuddyList) (sys : SysMem) : Prop where
  elemSize : list.elemSize = S
  initAlloc : list.initAlloc = A
  bits : A = 2 ^ list.initAllocBits
  small : A ≤ 2 ^ 30
  size : 8 ≤ S
  width : S < 2 ^ 31
  nElems : list.nElems = n
  curr : list.ptrArrayCurr = endRow A n
  cumul : list.cumulMaxElems = rowEnd A (endRow A n)
  next : list.nextFreePtr = base list (endRow A n) + endOffset A S n
  fits : ∀ i < n, rowOffset A S i < 2 ^ 31
  rows : ∃ top, endRow A n ≤ top ∧ (∀ j, (list.ptrArray j).isSome ↔ j ≤ top) ∧ (∀ j ≤ top, (base list j, (rowBytes A S j : Int)) ∈ sys.taken) ∧
    ∀ i j, i < j → j ≤ top → base list i + rowBytes A S i ≤ base list j ∨ base list j + rowBytes A S j ≤ base list i

namespace Layout

variable (h : Layout A S n list sys)
include h

theorem pos : 0 < A := by
  rw [h.bits]
  exact Nat.pow_pos (by omega)

theorem ptrArray_eq {j : Nat} (hj : j ≤ endRow A n) : list.ptrArray j = some (base list j) := by
  obtain ⟨top, htop, hsome, -⟩ := h.rows
  obtain ⟨a, ha⟩ := Option.isSome_iff_exists.1 ((hsome j).2 (hj.trans htop))
  rw [base, ha]
  rfl

/-- Rows that are full are not long, since the last place in them is not far from the start. -/
theorem rowEnd_small {k : Nat} (hk : rowEnd A k ≤ n) : rowEnd A k ≤ 2 ^ 29 := by
  have hlt := rowStart_lt_rowEnd (k := k) h.pos
  have hoff := h.fits (rowEnd A k - 1) (by omega)
  rw [rowOffset, rowOf_eq h.pos (show rowStart A k ≤ rowEnd A k - 1 by omega) (by omega)] at hoff
  have hrow : 8 * (rowEnd A k - 1 - rowStart A k) < 2 ^ 31 := (Nat.mul_le_mul_right _ h.size).trans_lt hoff
  cases k with
  | zero =>
    simp only [rowStart_zero] at hrow
    omega
  | succ k =>
    have := rowEnd_succ (A := A) (k := k)
    have := rowStart_succ (A := A) (k := k)
    omega

theorem rowEnd_le : rowEnd A (endRow A n) ≤ 2 ^ 30 := by
  cases hk : endRow A n with
  | zero => simpa [rowEnd] using h.small
  | succ k =>
    have hlow := (endRow_spec h.pos n).2 (by omega)
    rw [hk] at hlow
    have := h.rowEnd_small hlow.le
    rw [rowEnd_succ]
    omega

theorem count_le : n ≤ 2 ^ 30 := (endRow_spec h.pos n).1.trans h.rowEnd_le

/-- An element is inside its row. -/
theorem offset_le (i : Nat) : rowOffset A S i + S ≤ rowBytes A S (rowOf A i) := by
  obtain ⟨hlow, hhigh⟩ := rowOf_spec h.pos i
  rw [rowOffset, ← Nat.mul_succ]
  exact Nat.mul_le_mul_left S (by omega)

/-- Elements are apart from each other. -/
theorem elem_apart {i j : Nat} (hij : i < j) (hj : j < n) :
    elemAddr list A S i + S ≤ elemAddr list A S j ∨ elemAddr list A S j + S ≤ elemAddr list A S i := by
  obtain ⟨top, htop, -, -, hapart⟩ := h.rows
  have hi' := h.offset_le i
  have hj' := h.offset_le j
  have hrow : rowOf A i ≤ rowOf A j := rowOf_le h.pos (hij.trans (rowOf_spec h.pos j).2)
  rcases Nat.lt_or_eq_of_le hrow with hlt | heq
  · have := hapart _ _ hlt ((rowOf_le_endRow h.pos hj).trans htop)
    rw [elemAddr, elemAddr]
    omega
  · left
    have hlow := (rowOf_spec h.pos i).1
    have hoff : rowOffset A S i + S ≤ rowOffset A S j := by
      rw [rowOffset, rowOffset, ← heq, ← Nat.mul_succ]
      exact Nat.mul_le_mul_left S (by omega)
    rw [elemAddr, elemAddr, heq]
    omega

/-- An element is inside a block that has been allocated. -/
theorem elem_taken {i : Nat} (hi : i < n) : ∃ b ∈ sys.taken, b.1 ≤ elemAddr list A S i ∧ elemAddr list A S i + S ≤ b.1 + b.2 := by
  obtain ⟨top, htop, -, htaken, -⟩ := h.rows
  have := h.offset_le i
  refine ⟨_, htaken _ ((rowOf_le_endRow h.pos hi).trans htop), ?_⟩
  simp only [elemAddr]
  omega

end Layout

/-! ## Bytes -/

@[simp] theorem length_bytesAt (mem : Int → UInt8) (a size : Int) : (bytesAt mem a size).length = size.toNat := by simp [bytesAt]

theorem bytesAt_congr {mem mem' : Int → UInt8} {a size : Int} (h : ∀ x, a ≤ x → x < a + size → mem' x = mem x) :
    bytesAt mem' a size = bytesAt mem a size := by
  refine List.map_congr_left fun k hk => h _ (by omega) ?_
  have := List.mem_range.1 hk
  omega

theorem bytesAt_add (mem : Int → UInt8) (a : Int) (m k : Nat) :
    bytesAt mem a ((m + k : Nat) : Int) = bytesAt mem a m ++ bytesAt mem (a + m) k := by
  simp only [bytesAt, Int.toNat_natCast, List.range_add, List.map_append, List.map_map]
  congr 1
  refine List.map_congr_left fun j _ => ?_
  simp only [Function.comp_apply, Nat.cast_add]
  rw [Int.add_assoc]

/-- The bytes of elements that are next to each other. -/
theorem bytesAt_elems (mem : Int → UInt8) (a : Int) (S c : Nat) :
    bytesAt mem a ((S * c : Nat) : Int) = ((List.range c).map fun t : Nat => bytesAt mem (a + (S * t : Nat)) S).flatten := by
  induction c with
  | zero => rfl
  | succ c ih =>
    rw [Nat.mul_succ, bytesAt_add, ih, List.range_succ, List.map_append]
    simp

theorem bytesAt_storeBytes (mem : Int → UInt8) (a : Int) (bytes : List UInt8) : bytesAt (storeBytes mem a bytes) a bytes.length = bytes := by
  refine List.ext_getElem (by simp) fun k hk _ => ?_
  rw [length_bytesAt] at hk
  have hin : a ≤ a + (k : Int) ∧ a + (k : Int) < a + bytes.length := by omega
  have hk' : (a + (k : Int) - a).toNat = k := by omega
  simp only [bytesAt, List.getElem_map, List.getElem_range, storeBytes, if_pos hin, hk']
  exact List.getD_eq_getElem _ _ hk

end Buddy

end Gtm
