import Gtm.Lemmas.BuddyList

/-!
# A buddy list keeps its elements

While no offset within a row reaches `2 ^ 31`, the elements stay where they are, apart from each other, and are found there.
-/

namespace Gtm

namespace Buddy

open DoublingRows

variable {A S n : Nat} {list : BuddyList} {sys : SysMem} {m : Malloc}

/-! ## A new list -/

/-- The size of an element, rounded up. -/
def unitSize (elemSize : Nat) : Nat := (elemSize + 7) / 8 * 8

/-- How many elements the first row has. -/
def firstRow (initAlloc : Nat) : Nat := 2 ^ Nat.clog 2 initAlloc

theorem ceilPower_eq (initAlloc : Nat) (h : 0 < initAlloc) :
    (if initAlloc ≠ floorPower initAlloc initAlloc then floorPower initAlloc initAlloc <<< 1 else initAlloc) = firstRow initAlloc := by
  have hlow := Nat.pow_log_le_self 2 h.ne'
  have hhigh := Nat.lt_pow_succ_log_self (b := 2) (by omega) initAlloc
  rw [floorPower_eq (Nat.le_refl _) hlow hhigh, firstRow]
  by_cases heq : initAlloc = 2 ^ Nat.log 2 initAlloc
  · rw [if_neg (not_not.2 heq)]
    conv_rhs => rw [heq, Nat.clog_pow 2 _ (by omega)]
    exact heq
  · have hclog : Nat.clog 2 initAlloc = Nat.log 2 initAlloc + 1 := by
      refine le_antisymm ((Nat.clog_le_iff_le_pow (by omega)).2 hhigh.le) ?_
      exact (Nat.lt_clog_iff_pow_lt (by omega)).2 (lt_of_le_of_ne hlow (Ne.symm heq))
    rw [if_pos heq, Nat.shiftLeft_eq, hclog]
    rfl

theorem bitLoop_firstRow {initAlloc : Nat} (hsmall : Nat.clog 2 initAlloc ≤ 30) :
    bitLoop (firstRow initAlloc) 32 0 - 1 = Nat.clog 2 initAlloc := by
  rw [bitLoop_eq (k := Nat.clog 2 initAlloc + 1) (by omega) (by omega)]
  · rfl
  · intro j _ hj
    exact Nat.pow_le_pow_right (by omega) (by omega)
  · exact Nat.pow_lt_pow_right (by omega) (by omega)

theorem initializeList_layout (m : Malloc) (s : SysMem) {elemSize initAlloc : Nat} (helem : 0 < elemSize) (hsize : unitSize elemSize < 2 ^ 31)
    (hinit : initAlloc ≤ 2 ^ 30) :
    ∃ list sys, initializeList m s elemSize initAlloc = some (list, sys) ∧ Layout (firstRow initAlloc) (unitSize elemSize) 0 list sys := by
  have hclog : Nat.clog 2 initAlloc ≤ 30 := (Nat.clog_le_iff_le_pow (by omega)).2 hinit
  have hsmall : firstRow initAlloc ≤ 2 ^ 30 := Nat.pow_le_pow_right (by omega) hclog
  have hunit : int4 ((elemSize + 7) / 8 * 8 : Nat) = some ((unitSize elemSize : Nat) : Int) := int4_eq (by omega) (by exact_mod_cast hsize)
  have hrow : int4 (firstRow initAlloc : Nat) = some ((firstRow initAlloc : Nat) : Int) := int4_eq (by omega) (by omega)
  have hone : ∃ a, (if initAlloc = 0 then 1 else initAlloc) = a ∧ 0 < a ∧ firstRow a = firstRow initAlloc := by
    by_cases h0 : initAlloc = 0
    · exact ⟨1, if_pos h0, by omega, by rw [h0]; rfl⟩
    · exact ⟨initAlloc, if_neg h0, by omega, rfl⟩
  obtain ⟨a, ha, hpos, hfirst⟩ := hone
  have hceil := ceilPower_eq a hpos
  rw [hfirst] at hceil
  have hrun : initializeList m s elemSize initAlloc = some
      (⟨fun i => if i = 0 then some (malloc m s ((firstRow initAlloc : Nat) * (unitSize elemSize : Nat))).1 else none, (unitSize elemSize : Nat),
        (firstRow initAlloc : Nat), bitLoop (firstRow initAlloc : Nat) 32 0 - 1, 0, (firstRow initAlloc : Nat), 0,
        (malloc m s ((firstRow initAlloc : Nat) * (unitSize elemSize : Nat))).1⟩,
        (malloc m s ((firstRow initAlloc : Nat) * (unitSize elemSize : Nat))).2) := by
    simp only [initializeList, ha, hceil, hunit, hrow, Option.bind_eq_bind, Option.bind_some, Option.pure_def, Int.toNat_natCast]
  refine ⟨_, _, hrun, ?_⟩
  have hend : endRow (firstRow initAlloc) 0 = 0 := rfl
  exact {
    elemSize := rfl
    initAlloc := rfl
    bits := by rw [bitLoop_firstRow hclog, firstRow]
    small := hsmall
    size := by rw [unitSize]; omega
    width := hsize
    nElems := rfl
    curr := hend.symm
    cumul := by simp [hend, rowEnd]
    next := by simp [base, endOffset, hend]
    fits := fun i hi => absurd hi (Nat.not_lt_zero i)
    rows := by
      refine ⟨0, Nat.le_refl _, fun j => ?_, fun j hj => ?_, fun i j hij hj => absurd hij (by omega)⟩
      · by_cases hj : j = 0 <;> simp [hj]
      · obtain rfl : j = 0 := by omega
        simp [base, malloc, rowBytes, rowEnd, Nat.mul_comm] }

/-! ## One more element -/

/-- What is in the blocks that have been allocated is kept. -/
def Kept (sys sys' : SysMem) : Prop :=
  (∀ b ∈ sys.taken, b ∈ sys'.taken) ∧ ∀ b ∈ sys.taken, ∀ x, b.1 ≤ x → x < b.1 + b.2 → sys'.mem x = sys.mem x

theorem Kept.refl (sys : SysMem) : Kept sys sys := ⟨fun _ hb => hb, fun _ _ _ _ _ => rfl⟩

theorem malloc_kept (m : Malloc) (sys : SysMem) (size : Int) : Kept sys (malloc m sys size).2 := by
  refine ⟨fun b hb => List.mem_cons_of_mem _ hb, fun b hb x hlow hhigh => if_neg ?_⟩
  have := m.apart sys.taken size b hb
  omega

theorem endOffset_succ (hA : 0 < A) (h : n < rowEnd A (endRow A n)) : endRow A (n + 1) = endRow A n ∧ endOffset A S (n + 1) = endOffset A S n + S := by
  have hlow := rowStart_endRow_le hA n
  have hend : endRow A (n + 1) = endRow A n := endRow_eq hA h fun _ => Nat.lt_succ_of_le hlow
  refine ⟨hend, ?_⟩
  rw [endOffset, endOffset, hend, ← Nat.mul_succ]
  congr 1
  omega

/-- An element that is added in the row in use. -/
theorem Layout.push (h : Layout A S n list sys) (hfit : rowOffset A S n < 2 ^ 31) (hroom : n < rowEnd A (endRow A n)) :
    Layout A S (n + 1) { list with nextFreePtr := list.nextFreePtr + S, nElems := (n : Int) + 1 } sys := by
  obtain ⟨hend, hoff⟩ := endOffset_succ (S := S) h.pos hroom
  exact { h with
    nElems := by simp
    curr := by rw [hend]; exact h.curr
    cumul := by rw [hend]; exact h.cumul
    next := by
      simp only [hend, hoff, h.next, base, Nat.cast_add]
      omega
    fits := fun i hi => by
      rcases Nat.lt_succ_iff_lt_or_eq.1 hi with hlt | rfl
      · exact h.fits i hlt
      · exact hfit
    rows := by rw [hend]; exact h.rows }

/-- A new row after the last one. -/
theorem Layout.addRow (h : Layout A S n list sys) (m : Malloc) (hnone : list.ptrArray (endRow A n + 1) = none) :
    Layout A S n (list.withRow (endRow A n + 1) (m.addr sys.taken (rowEnd A (endRow A n) * S))) (malloc m sys (rowEnd A (endRow A n) * S)).2 := by
  obtain ⟨top, htop, hsome, htaken, hapart⟩ := h.rows
  obtain rfl : top = endRow A n := by
    by_contra hne
    have := (hsome (endRow A n + 1)).2 (by omega)
    simp [hnone] at this
  have hbytes : (rowBytes A S (endRow A n + 1) : Int) = rowEnd A (endRow A n) * S := by
    rw [rowBytes, rowSize_succ, Nat.mul_comm, Nat.cast_mul]
  exact { h with
    next := by
      rw [base_withRow _ _ (by omega)]
      exact h.next
    rows := by
      refine ⟨endRow A n + 1, by omega, fun j => ?_, fun j hj => ?_, fun i j hij hj => ?_⟩
      · by_cases hj : j = endRow A n + 1
        · simp [BuddyList.withRow, hj]
        · simp only [BuddyList.withRow, if_neg hj, hsome]
          omega
      · rcases Nat.lt_or_eq_of_le hj with hlt | rfl
        · rw [base_withRow _ _ (by omega)]
          exact List.mem_cons_of_mem _ (htaken j (by omega))
        · rw [base_withRow_self, hbytes]
          exact List.mem_cons_self
      · rw [base_withRow _ _ (show i ≠ endRow A n + 1 by omega)]
        rcases Nat.lt_or_eq_of_le hj with hlt | rfl
        · rw [base_withRow _ _ (by omega)]
          exact hapart i j hij (by omega)
        · rw [base_withRow_self]
          have := m.apart sys.taken (rowEnd A (endRow A n) * S) _ (htaken i (by omega))
          omega }

/-- An element that is the first one of the next row. -/
theorem Layout.advance (h : Layout A S n list sys) (hfull : n = rowEnd A (endRow A n)) {row : Int}
    (hrow : list.ptrArray (endRow A n + 1) = some row) :
    Layout A S (n + 1) { list with
      ptrArrayCurr := endRow A n + 1, cumulMaxElems := ((rowEnd A (endRow A n) : Nat) : Int) * 2, nElems := ((rowEnd A (endRow A n) : Nat) : Int) + 1,
      nextFreePtr := row + S } sys ∧ rowOf A n = endRow A n + 1 ∧ rowOffset A S n = 0 := by
  have hstart : rowStart A (endRow A n + 1) = n := by rw [rowStart_succ, ← hfull]
  have hsucc : rowEnd A (endRow A n + 1) = 2 * n := by rw [rowEnd_succ, ← hfull]
  have hpos : 0 < n := hfull ▸ rowEnd_pos h.pos
  have hend : endRow A (n + 1) = endRow A n + 1 := endRow_eq h.pos (by omega) fun _ => by omega
  have hof : rowOf A n = endRow A n + 1 := rowOf_eq h.pos hstart.le (by omega)
  have hzero : rowOffset A S n = 0 := by rw [rowOffset, hof, hstart, Nat.sub_self, Nat.mul_zero]
  have hoff : endOffset A S (n + 1) = S := by rw [endOffset, hend, hstart, Nat.add_sub_cancel_left, Nat.mul_one]
  refine ⟨?_, hof, hzero⟩
  exact { h with
    nElems := by simp [← hfull]
    curr := hend.symm
    cumul := by
      rw [hend, ← hfull]
      push_cast
      omega
    next := by
      rw [hend, hoff, base, hrow]
      rfl
    fits := fun i hi => by
      rcases Nat.lt_succ_iff_lt_or_eq.1 hi with hlt | rfl
      · exact h.fits i hlt
      · omega
    rows := by
      obtain ⟨top, -, hsome, hrest⟩ := h.rows
      refine ⟨top, ?_, hsome, hrest⟩
      rw [hend]
      exact (hsome _).1 (by rw [hrow]; rfl) }

/-- What `get_new_element` does. -/
theorem getNewElement_layout (m : Malloc) (h : Layout A S n list sys) (hfit : rowOffset A S n < 2 ^ 31) :
    ∃ list' sys', getNewElement m list sys 1 = some (elemAddr list' A S n, list', sys') ∧ Layout A S (n + 1) list' sys' ∧
      (∀ i < n, elemAddr list' A S i = elemAddr list A S i) ∧ Kept sys sys' := by
  have hcount := h.count_le
  have hwidth := h.width
  have hsum : int4 (list.nElems + 1) = some ((n : Int) + 1) := by
    rw [h.nElems]
    exact int4_eq (by omega) (by omega)
  have hsize : int4 (1 * list.elemSize) = some (S : Int) := by
    rw [h.elemSize, one_mul]
    exact int4_eq (by omega) (by omega)
  have hend := (endRow_spec h.pos n).1
  rw [getNewElement, hsum, hsize]
  simp only [Option.bind_eq_bind, Option.bind_some, Option.pure_def, h.cumul]
  rcases Nat.lt_or_eq_of_le hend with hroom | hfull
  · rw [if_pos (by omega)]
    refine ⟨_, _, ?_, h.push hfit hroom, fun i _ => rfl, Kept.refl sys⟩
    have hof : rowOf A n = endRow A n := rowOf_eq h.pos (rowStart_endRow_le h.pos n) hroom
    simp only [elemAddr, rowOffset, hof, h.next, endOffset, base, h.cumul]
  · rw [if_neg (by omega)]
    have hsmall := h.rowEnd_small hfull.ge
    have htwice : int4 (((rowEnd A (endRow A n) : Nat) : Int) * 2) = some (((rowEnd A (endRow A n) : Nat) : Int) * 2) := int4_eq (by omega) (by omega)
    have hpos : 0 < rowEnd A (endRow A n) := rowEnd_pos h.pos
    have hlast : ¬ ((rowEnd A (endRow A n) : Nat) : Int) * 2 < ((rowEnd A (endRow A n) : Nat) : Int) + 1 := by omega
    rw [growRows]
    cases hrow : list.ptrArray (endRow A n + 1) with
    | some row =>
      obtain ⟨hlayout, hof, hzero⟩ := h.advance hfull hrow
      simp only [h.curr, hrow, h.cumul, Option.bind_eq_bind, Option.bind_some, htwice, if_neg hlast, Option.pure_def]
      refine ⟨_, _, ?_, hlayout, fun i _ => rfl, Kept.refl sys⟩
      simp only [elemAddr, hof, hzero, base, hrow, Option.getD_some, Nat.cast_zero, add_zero]
    | none =>
      have hadded := h.addRow m hrow
      have hrow' : (list.withRow (endRow A n + 1) (m.addr sys.taken (rowEnd A (endRow A n) * S))).ptrArray (endRow A n + 1)
          = some (m.addr sys.taken (rowEnd A (endRow A n) * S)) := if_pos rfl
      obtain ⟨hlayout, hof, hzero⟩ := hadded.advance hfull hrow'
      have hmul : ((rowEnd A (endRow A n) : Nat) : Int) * list.elemSize = rowEnd A (endRow A n) * S := by rw [h.elemSize]
      simp only [h.curr, hrow, h.cumul, hmul, Option.bind_eq_bind, Option.bind_some, htwice, if_neg hlast, Option.pure_def]
      refine ⟨_, _, ?_, hlayout, fun i hi => ?_, malloc_kept m sys _⟩
      · simp only [elemAddr, hof, hzero, base, hrow', Option.getD_some, Nat.cast_zero, add_zero]
        simp only [malloc, BuddyList.withRow]
      · have := rowOf_le_endRow h.pos hi
        have hrows := base_withRow list (m.addr sys.taken (rowEnd A (endRow A n) * S)) (show rowOf A i ≠ endRow A n + 1 by omega)
        exact congrArg (· + (rowOffset A S i : Int)) hrows

/-! ## Fewer elements -/

/-- The loop over the rows ends in the row in which the elements that are left end. -/
theorem freeRows_eq (hA : 0 < A) (k num left : Nat) (rowMax : Int) (hnum : num ≤ rowStart A k + left)
    (hleft : rowStart A k + left ≤ rowEnd A k) (hpos : k ≠ 0 → 0 < left) (hmax : k ≠ 0 → rowMax = rowStart A k) :
    ∃ numLeft rowLeft : Int, freeRows A k num left rowMax (rowEnd A k) =
        (numLeft, rowLeft, ((rowEnd A (endRow A (rowStart A k + left - num)) : Nat) : Int), endRow A (rowStart A k + left - num)) ∧
      rowLeft - numLeft = (rowStart A k + left - num - rowStart A (endRow A (rowStart A k + left - num)) : Nat) := by
  induction k generalizing num left rowMax with
  | zero =>
    have hend : endRow A (rowStart A 0 + left - num) = 0 := endRow_eq hA (by omega) fun h => absurd rfl h
    refine ⟨num, left, by rw [hend]; rfl, ?_⟩
    rw [hend, rowStart_zero] at *
    omega
  | succ j ih =>
    have hstart : rowStart A (j + 1) = rowEnd A j := rfl
    rw [freeRows]
    by_cases hall : left ≤ num
    · have hrowMax : (if rowMax ≠ A then rowMax / 2 else rowMax) = ((rowEnd A j - rowStart A j : Nat) : Int) := by
        rw [hmax (by omega), hstart]
        cases j with
        | zero => simp [rowEnd]
        | succ j =>
          have hne : ((rowEnd A (j + 1) : Nat) : Int) ≠ A := by
            have := rowEnd_mono (A := A) (Nat.zero_le j)
            have hzero : rowEnd A 0 = A := by simp [rowEnd]
            have := rowEnd_succ (A := A) (k := j)
            omega
          have := rowEnd_succ (A := A) (k := j)
          rw [rowSize_succ]
          omega
      have hlt := rowStart_lt_rowEnd (k := j) hA
      have hmax' : j ≠ 0 → ((rowEnd A j - rowStart A j : Nat) : Int) = rowStart A j := by
        intro hj
        obtain ⟨i, rfl⟩ : ∃ i, j = i + 1 := ⟨j - 1, by omega⟩
        rw [rowSize_succ, rowStart_succ]
      obtain ⟨numLeft, rowLeft, hrun, hdiff⟩ := ih (num - left) (rowEnd A j - rowStart A j)
        ((rowEnd A j - rowStart A j : Nat) : Int) (by omega) (by omega) (fun _ => by omega) hmax'
      have htotal : rowStart A j + (rowEnd A j - rowStart A j) - (num - left) = rowStart A (j + 1) + left - num := by omega
      rw [htotal] at hrun hdiff
      have hcumul : ((rowEnd A (j + 1) : Nat) : Int) - rowMax = rowEnd A j := by
        have := rowEnd_succ (A := A) (k := j)
        omega
      refine ⟨numLeft, rowLeft, ?_, hdiff⟩
      rw [if_pos (by omega)]
      simp only [hrowMax]
      rw [← hrun]
      congr 1
      omega
    · have hend : endRow A (rowStart A (j + 1) + left - num) = j + 1 := endRow_eq hA (by omega) fun _ => by omega
      rw [if_neg (by omega), hend]
      exact ⟨_, _, rfl, by omega⟩

theorem castInt4_eq {x : Int} (hlow : 0 ≤ x) (hhigh : x < 2147483648) : castInt4 x = x := by
  exact Int.bmod_eq_of_le (by omega) (by omega)

/-- What `free_last_n_elements` does. -/
theorem freeLastNElements_layout (h : Layout A S n list sys) {num : Nat} (hnum : num ≤ n) (hfrom : endOffset A S n < 2 ^ 31)
    (hto : endOffset A S (n - num) < 2 ^ 31) : ∃ list', freeLastNElements list num = some (list', true) ∧ Layout A S (n - num) list' sys ∧
      ∀ i, elemAddr list' A S i = elemAddr list A S i := by
  have hlow := rowStart_endRow_le h.pos n
  have hspec := endRow_spec h.pos n
  have hleft : (castInt4 (list.nextFreePtr - base list (endRow A n))).tdiv list.elemSize = ((n - rowStart A (endRow A n) : Nat) : Int) := by
    rw [h.next, h.elemSize, castInt4_eq (by omega) (by omega), add_sub_cancel_left, endOffset, Nat.cast_mul]
    refine Int.mul_tdiv_cancel_left _ ?_
    have := h.size
    omega
  have hmax : list.nElems - ((n - rowStart A (endRow A n) : Nat) : Int) = (rowStart A (endRow A n) : Nat) := by
    rw [h.nElems]
    omega
  obtain ⟨numLeft, rowLeft, hrun, hdiff⟩ := freeRows_eq h.pos (endRow A n) num (n - rowStart A (endRow A n))
    (rowStart A (endRow A n) : Nat) (by omega) (by omega) (fun hne => by have := hspec.2 hne; omega) (fun _ => rfl)
  have hcount : rowStart A (endRow A n) + (n - rowStart A (endRow A n)) - num = n - num := by omega
  rw [hcount] at hrun hdiff
  have hmono : endRow A (n - num) ≤ endRow A n := endRow_mono h.pos (by omega)
  have hoff : int4 (list.elemSize * (rowLeft - numLeft)) = some ((endOffset A S (n - num) : Nat) : Int) := by
    rw [h.elemSize, hdiff, ← Nat.cast_mul]
    exact int4_eq (by omega) (by exact_mod_cast hto)
  have hguard : (num : Int) ≤ list.nElems := by rw [h.nElems]; omega
  have hcurr : list.ptrArray list.ptrArrayCurr = some (base list (endRow A n)) := by rw [h.curr, h.ptrArray_eq (Nat.le_refl _)]
  have hrow : list.ptrArray (endRow A (n - num)) = some (base list (endRow A (n - num))) := h.ptrArray_eq hmono
  have hrun' : freeRows list.initAlloc list.ptrArrayCurr num ((n - rowStart A (endRow A n) : Nat) : Int) (rowStart A (endRow A n) : Nat)
      list.cumulMaxElems = (numLeft, rowLeft, ((rowEnd A (endRow A (n - num)) : Nat) : Int), endRow A (n - num)) := by
    rw [h.initAlloc, h.curr, h.cumul]
    exact hrun
  have hresult : freeLastNElements list num = some ({ list with
      nElems := list.nElems - num, cumulMaxElems := ((rowEnd A (endRow A (n - num)) : Nat) : Int), ptrArrayCurr := endRow A (n - num),
      nextFreePtr := base list (endRow A (n - num)) + ((endOffset A S (n - num) : Nat) : Int) }, true) := by
    simp only [freeLastNElements, if_pos hguard, hcurr, Option.bind_eq_bind, Option.bind_some, hleft, hmax, hrun', hrow, hoff, Option.pure_def]
  refine ⟨_, hresult, ?_, fun i => rfl⟩
  exact { h with
    nElems := by
      dsimp only
      omega
    curr := rfl
    cumul := rfl
    next := rfl
    fits := fun i hi => h.fits i (by omega)
    rows := by
      obtain ⟨top, htop, hrest⟩ := h.rows
      exact ⟨top, hmono.trans htop, hrest⟩ }

theorem reinitializeList_layout (h : Layout A S n list sys) : ∃ list', reinitializeList list = some list' ∧ Layout A S 0 list' sys := by
  have hrow := h.ptrArray_eq (Nat.zero_le _)
  have hend : endRow A 0 = 0 := by simp [endRow]
  refine ⟨_, by rw [reinitializeList, hrow], ?_⟩
  exact { h with
    nElems := rfl
    curr := hend.symm
    cumul := by simp [hend, rowEnd, h.initAlloc]
    next := by
      simp only [endOffset, hend, Nat.zero_sub, Nat.mul_zero, Nat.cast_zero, add_zero]
      rfl
    fits := fun i hi => absurd hi (Nat.not_lt_zero i)
    rows := by
      obtain ⟨top, -, hrest⟩ := h.rows
      exact ⟨top, by rw [hend]; exact Nat.zero_le _, hrest⟩ }

/-! ## What is found -/

/-- What `find_element` finds. -/
theorem findElement_layout (h : Layout A S n list sys) {i : Nat} (hi : i < n) : findElement list i = some (some (elemAddr list A S i)) := by
  have hcount := h.count_le
  have hlow := (rowOf_spec h.pos i).1
  have hhigh := (rowOf_spec h.pos i).2
  have hpow (j : Nat) : rowEnd A j = 2 ^ (list.initAllocBits + j) := by rw [rowEnd, pow_add, ← h.bits]
  have hrowOf : rowOf A i ≤ 31 := rowOf_le h.pos (by
    rw [hpow, pow_add]
    have hone := Nat.pow_pos (n := list.initAllocBits) (show 0 < 2 by omega)
    omega)
  have hloop : bitLoop i 32 list.initAllocBits = list.initAllocBits + rowOf A i := by
    refine bitLoop_eq (by omega) (by omega) (fun j hj hjk => ?_) (by rw [← hpow]; exact hhigh)
    obtain ⟨t, ht⟩ : ∃ t, rowOf A i = t + 1 := ⟨rowOf A i - 1, by omega⟩
    rw [ht, rowStart_succ, hpow] at hlow
    exact (Nat.pow_le_pow_right (by omega) (by omega)).trans hlow
  have hindex : bitLoop i 32 list.initAllocBits - list.initAllocBits = rowOf A i := by omega
  have hbefore : list.initAlloc * ((if rowOf A i ≠ 0 then 1 <<< (rowOf A i - 1) else 0 : Nat) : Int) = rowStart A (rowOf A i) := by
    rw [h.initAlloc]
    cases rowOf A i with
    | zero => simp
    | succ t => simp [rowStart, Nat.shiftLeft_eq]
  have hstart : int4 ((rowStart A (rowOf A i) : Nat) : Int) = some ((rowStart A (rowOf A i) : Nat) : Int) := int4_eq (by omega) (by omega)
  have hoff : list.elemSize * ((i : Int) - (rowStart A (rowOf A i) : Nat)) = (rowOffset A S i : Nat) := by
    rw [h.elemSize, rowOffset, Nat.cast_mul, Nat.cast_sub hlow]
  have hfit : int4 ((rowOffset A S i : Nat) : Int) = some ((rowOffset A S i : Nat) : Int) :=
    int4_eq (by omega) (by exact_mod_cast h.fits i hi)
  have hguard : ¬ list.nElems ≤ (i : Int) := by rw [h.nElems]; omega
  simp only [findElement, if_neg hguard, hindex, h.ptrArray_eq (rowOf_le_endRow h.pos hi), Option.bind_eq_bind, Option.bind_some, hbefore, hstart,
    hoff, hfit, Option.pure_def, elemAddr]

/-- The bytes of an element. -/
def elemBytes (list : BuddyList) (A S : Nat) (mem : Int → UInt8) (i : Nat) : List UInt8 := bytesAt mem (elemAddr list A S i) S

/-- The elements at the start of a row are next to each other. -/
theorem bytesAt_row (hA : 0 < A) (list : BuddyList) (S : Nat) (mem : Int → UInt8) {k c : Nat} (hc : rowStart A k + c ≤ rowEnd A k) :
    bytesAt mem (base list k) ((c * S : Nat) : Int) = ((List.range' (rowStart A k) c).map (elemBytes list A S mem)).flatten := by
  rw [Nat.mul_comm, bytesAt_elems, List.range'_eq_map_range, List.map_map]
  congr 1
  refine List.map_congr_left fun t ht => ?_
  have hlt := List.mem_range.1 ht
  have hof : rowOf A (rowStart A k + t) = k := rowOf_eq hA (by omega) (by omega)
  rw [Function.comp_apply, elemBytes, elemAddr, rowOffset, hof, Nat.add_sub_cancel_left]

theorem copyRows_layout (h : Layout A S n list sys) (mem : Int → UInt8) {fuel k c : Nat} (hc : c ≤ n) (hk : rowStart A k < c)
    (hfuel : endRow A c < k + fuel) :
    copyRows list mem fuel k ((c - rowStart A k : Nat) : Int) ((rowEnd A k - rowStart A k : Nat) : Int) (rowEnd A k : Nat) =
      some ((List.range' (rowStart A k) (c - rowStart A k)).map (elemBytes list A S mem)).flatten := by
  have hin : k ≤ endRow A c := by
    by_contra hlt
    have := rowEnd_le_rowStart A (not_le.1 hlt)
    have := (endRow_spec h.pos c).1
    omega
  have hrow : list.ptrArray k = some (base list k) := h.ptrArray_eq (hin.trans (endRow_mono h.pos hc))
  have hlt := rowStart_lt_rowEnd (k := k) h.pos
  induction fuel generalizing k with
  | zero => omega
  | succ fuel ih =>
    rw [copyRows]
    simp only [hrow, h.elemSize, Option.bind_eq_bind, Option.bind_some]
    rcases Nat.lt_or_ge c (rowEnd A k) with hlast | hmore
    · rw [if_pos (show ((c - rowStart A k : Nat) : Int) < (rowEnd A k - rowStart A k : Nat) by omega), if_pos (by omega), ← Nat.cast_mul,
        bytesAt_row h.pos list S mem (by omega), Option.pure_def]
    · rw [if_neg (show ¬ ((c - rowStart A k : Nat) : Int) < (rowEnd A k - rowStart A k : Nat) by omega), ← Nat.cast_mul,
        bytesAt_row h.pos list S mem (by omega)]
      rcases Nat.lt_or_eq_of_le hmore with hfurther | heq
      · have hsmall := h.rowEnd_small (hmore.trans hc)
        have htwice : int4 (((rowEnd A k : Nat) : Int) * 2) = some ((rowEnd A (k + 1) : Nat) : Int) := by
          rw [rowEnd_succ]
          refine (int4_eq (by omega) (by omega)).trans ?_
          congr 1
          omega
        have hstart : rowStart A (k + 1) = rowEnd A k := rfl
        have hleft : ((c - rowStart A k : Nat) : Int) - ((rowEnd A k - rowStart A k : Nat) : Int) = ((c - rowStart A (k + 1) : Nat) : Int) := by
          omega
        have hin' : k + 1 ≤ endRow A c := by
          by_contra hge
          have := rowEnd_mono (A := A) (show endRow A c ≤ k by omega)
          have := (endRow_spec h.pos c).1
          omega
        have hrest := ih (k := k + 1) (by omega) (by omega) hin' (h.ptrArray_eq (hin'.trans (endRow_mono h.pos hc))) (rowStart_lt_rowEnd h.pos)
        rw [rowSize_succ] at hrest
        rw [if_neg (by omega), htwice]
        simp only [Option.bind_some]
        rw [hleft, hrest, Option.bind_some, Option.pure_def, ← List.flatten_append, ← List.map_append, hstart]
        have hsplit := List.range'_append_1 (s := rowStart A k) (m := rowEnd A k - rowStart A k) (n := c - rowEnd A k)
        rw [show rowStart A k + (rowEnd A k - rowStart A k) = rowEnd A k by omega] at hsplit
        rw [hsplit, show rowEnd A k - rowStart A k + (c - rowEnd A k) = c - rowStart A k by omega]
      · rw [if_pos (by omega), Option.pure_def, heq]

/-- What `copy_list_to_buf` writes. -/
theorem copyListToBuf_layout (h : Layout A S n list sys) (mem : Int → UInt8) {c : Nat} (hc : c ≤ n) (hpos : 0 < c) :
    copyListToBuf list mem c = some ((List.range c).map (elemBytes list A S mem)).flatten := by
  have hfuel : endRow A c < 0 + 64 := by
    by_contra hge
    have hlow := (endRow_spec h.pos c).2 (by omega)
    have hrow := rowEnd_le_rowStart A (show 31 < endRow A c by omega)
    have hpow : 2 ^ 31 ≤ rowEnd A 31 := Nat.le_mul_of_pos_left _ h.pos
    have := h.count_le
    omega
  have hrun := copyRows_layout h mem (k := 0) hc (by simpa using hpos) hfuel
  rw [copyListToBuf, h.initAlloc, List.range_eq_range']
  simpa [rowEnd] using hrun

/-! ## Runs -/

/-- How many elements there are after an operation. -/
def countAfter (n : Nat) : BuddyOp → Nat
  | .get => n + 1
  | .freeLast num => if num ≤ n then n - num else n
  | .reinit => 0
  | .store _ _ => n

/-- The offset of a new element in its row, and where the elements end in a row before and after some are freed, are below `2 ^ 31`. -/
def opFits (A S n : Nat) : BuddyOp → Prop
  | .get => rowOffset A S n < 2 ^ 31
  | .freeLast num => num ≤ n → endOffset A S n < 2 ^ 31 ∧ endOffset A S (n - num) < 2 ^ 31
  | .reinit => True
  | .store _ _ => True

/-- Operations of which every one fits. -/
def opsFit (A S : Nat) : Nat → List BuddyOp → Prop
  | _, [] => True
  | n, op :: ops => opFits A S n op ∧ opsFit A S (countAfter n op) ops

/-- The elements are where they have been handed out and hold what was stored. -/
structure Good (A S n : Nat) (r : BuddyRun) : Prop where
  layout : Layout A S n r.list r.sys
  addrs : r.addrs = (List.range n).map (elemAddr r.list A S)
  vals : r.vals = (List.range n).map (elemBytes r.list A S r.sys.mem)

variable {r : BuddyRun}

theorem step_get (m : Malloc) (h : Good A S n r) (hfit : rowOffset A S n < 2 ^ 31) : ∃ r', buddyStep m r .get = some r' ∧ Good A S (n + 1) r' := by
  obtain ⟨list', sys', hrun, hlayout, hsame, -, hkept⟩ := getNewElement_layout m h.layout hfit
  have hstep : buddyStep m r .get = some ⟨list', sys', r.addrs ++ [elemAddr list' A S n],
      r.vals ++ [bytesAt sys'.mem (elemAddr list' A S n) list'.elemSize]⟩ := by
    rw [buddyStep, hrun]
    rfl
  refine ⟨_, hstep, hlayout, ?_, ?_⟩
  · dsimp only
    rw [List.range_succ, List.map_append, h.addrs]
    congr 1
    exact List.map_congr_left fun i hi => (hsame i (List.mem_range.1 hi)).symm
  · dsimp only
    rw [List.range_succ, List.map_append, h.vals]
    congr 1
    · refine List.map_congr_left fun i hi => ?_
      have hlt := List.mem_range.1 hi
      obtain ⟨b, hb, hlow, hhigh⟩ := h.layout.elem_taken hlt
      rw [elemBytes, elemBytes, hsame i hlt]
      exact (bytesAt_congr fun x hx hx' => hkept b hb x (by omega) (by omega)).symm
    · rw [hlayout.elemSize]
      rfl

theorem step_freeLast (m : Malloc) (h : Good A S n r) {num : Nat} (hfit : opFits A S n (.freeLast num)) :
    ∃ r', buddyStep m r (.freeLast num) = some r' ∧ Good A S (countAfter n (.freeLast num)) r' := by
  by_cases hnum : num ≤ n
  · obtain ⟨hfrom, hto⟩ := hfit hnum
    obtain ⟨list', hrun, hlayout, hsame⟩ := freeLastNElements_layout h.layout hnum hfrom hto
    have haddrs : r.addrs.length = n := by rw [h.addrs, List.length_map, List.length_range]
    have hvals : r.vals.length = n := by rw [h.vals, List.length_map, List.length_range]
    have hstep : buddyStep m r (.freeLast num) = some ⟨list', r.sys, r.addrs.take (r.addrs.length - num),
        r.vals.take (r.vals.length - num)⟩ := by
      rw [buddyStep, hrun]
      rfl
    refine ⟨_, hstep, ?_⟩
    rw [countAfter, if_pos hnum]
    refine ⟨hlayout, ?_, ?_⟩
    · rw [haddrs, h.addrs, ← List.map_take, List.take_range, Nat.min_eq_left (Nat.sub_le n num)]
      exact List.map_congr_left fun i _ => (hsame i).symm
    · rw [hvals, h.vals, ← List.map_take, List.take_range, Nat.min_eq_left (Nat.sub_le n num)]
      refine List.map_congr_left fun i _ => ?_
      rw [elemBytes, elemBytes, hsame i]
  · have hguard : ¬ (num : Int) ≤ r.list.nElems := by
      rw [h.layout.nElems]
      omega
    refine ⟨r, by rw [buddyStep, freeLastNElements, if_neg hguard]; rfl, ?_⟩
    rw [countAfter, if_neg hnum]
    exact h

theorem step_reinit (m : Malloc) (h : Good A S n r) : ∃ r', buddyStep m r .reinit = some r' ∧ Good A S 0 r' := by
  obtain ⟨list', hrun, hlayout⟩ := reinitializeList_layout h.layout
  exact ⟨_, by rw [buddyStep, hrun]; rfl, hlayout, rfl, rfl⟩

theorem step_store (m : Malloc) (h : Good A S n r) (i : Nat) (bytes : List UInt8) :
    ∃ r', buddyStep m r (.store i bytes) = some r' ∧ Good A S n r' := by
  rw [buddyStep]
  cases ha : r.addrs[i]? with
  | none => exact ⟨r, rfl, h⟩
  | some a =>
    obtain ⟨hi, rfl⟩ : i < n ∧ elemAddr r.list A S i = a := by
      rw [h.addrs, List.getElem?_map, Option.map_eq_some_iff] at ha
      obtain ⟨k, hk, rfl⟩ := ha
      obtain ⟨hlt, rfl⟩ := List.getElem?_eq_some_iff.1 hk
      rw [List.length_range] at hlt
      rw [List.getElem_range]
      exact ⟨hlt, rfl⟩
    dsimp only
    by_cases hlen : (bytes.length : Int) = r.list.elemSize
    · rw [if_pos hlen]
      rw [h.layout.elemSize] at hlen
      refine ⟨_, rfl, { h.layout with rows := h.layout.rows }, h.addrs, ?_⟩
      refine List.ext_getElem (by simp [h.vals]) fun j hj hj' => ?_
      rw [List.length_map, List.length_range] at hj'
      rw [List.getElem_map, List.getElem_range, List.getElem_set]
      by_cases heq : i = j
      · subst heq
        rw [if_pos rfl, elemBytes, ← hlen]
        exact (bytesAt_storeBytes _ _ _).symm
      · have hapart : elemAddr r.list A S j + S ≤ elemAddr r.list A S i ∨ elemAddr r.list A S i + S ≤ elemAddr r.list A S j := by
          rcases Nat.lt_or_gt_of_ne heq with hlt | hgt
          · exact (h.layout.elem_apart hlt hj').symm
          · exact h.layout.elem_apart hgt hi
        simp only [if_neg heq, h.vals, List.getElem_map, List.getElem_range]
        refine (bytesAt_congr fun x hx hx' => if_neg ?_).symm
        omega
    · rw [if_neg hlen]
      exact ⟨r, rfl, h⟩

theorem buddyStep_good (m : Malloc) (h : Good A S n r) (op : BuddyOp) (hfit : opFits A S n op) :
    ∃ r', buddyStep m r op = some r' ∧ Good A S (countAfter n op) r' := by
  cases op with
  | get => exact step_get m h hfit
  | freeLast num => exact step_freeLast m h hfit
  | reinit => exact step_reinit m h
  | store i bytes => exact step_store m h i bytes

theorem buddyRun_good (m : Malloc) (ops : List BuddyOp) (h : Good A S n r) (hfit : opsFit A S n ops) :
    ∃ r' k, buddyRun m ops r = some r' ∧ Good A S k r' := by
  induction ops generalizing n r with
  | nil => exact ⟨r, n, rfl, h⟩
  | cons op ops ih =>
    obtain ⟨r', hstep, hgood⟩ := buddyStep_good m h op hfit.1
    obtain ⟨r'', k, hrun, hgood'⟩ := ih hgood hfit.2
    exact ⟨r'', k, by rw [buddyRun, hstep, Option.bind_some, hrun], hgood'⟩

/-- What a list promises: every element is found where it was handed out, apart from the others, with what was stored to it, the counters
agree with each other, and a copy has the first elements in order. -/
structure Sound (r : BuddyRun) : Prop where
  count : r.list.nElems = r.addrs.length
  find : ∀ i a, r.addrs[i]? = some a → findElement r.list i = some (some a)
  apart : r.addrs.Pairwise fun a b => a + r.list.elemSize ≤ b ∨ b + r.list.elemSize ≤ a
  contents : r.vals = r.addrs.map fun a => bytesAt r.sys.mem a r.list.elemSize
  cumul : r.list.cumulMaxElems = rowEnd r.list.initAlloc.toNat r.list.ptrArrayCurr
  curr : r.list.nElems ≤ r.list.cumulMaxElems ∧
    (r.list.ptrArrayCurr ≠ 0 → (rowStart r.list.initAlloc.toNat r.list.ptrArrayCurr : Int) < r.list.nElems)
  next : ∃ row, r.list.ptrArray r.list.ptrArrayCurr = some row ∧
    r.list.nextFreePtr = row + r.list.elemSize * (r.list.nElems - rowStart r.list.initAlloc.toNat r.list.ptrArrayCurr)
  copy : ∀ c : Nat, 0 < c → c ≤ r.addrs.length → copyListToBuf r.list r.sys.mem c = some (r.vals.take c).flatten

theorem Good.sound (h : Good A S n r) : Sound r := by
  have hlen : r.addrs.length = n := by rw [h.addrs, List.length_map, List.length_range]
  have hrow : r.list.initAlloc.toNat = A := by rw [h.layout.initAlloc, Int.toNat_natCast]
  have hspec := endRow_spec h.layout.pos n
  have hstart := rowStart_endRow_le h.layout.pos n
  exact {
    count := by rw [h.layout.nElems, hlen]
    find := fun i a ha => by
      obtain ⟨hi, rfl⟩ := List.getElem?_eq_some_iff.1 ha
      rw [findElement_layout h.layout (hlen ▸ hi)]
      simp [h.addrs]
    apart := by
      rw [h.addrs, h.layout.elemSize, List.pairwise_map]
      exact List.pairwise_lt_range.imp_of_mem fun _ hj hij => h.layout.elem_apart hij (List.mem_range.1 hj)
    contents := by
      rw [h.vals, h.addrs, h.layout.elemSize, List.map_map]
      rfl
    cumul := by rw [h.layout.cumul, hrow, h.layout.curr]
    curr := by
      rw [h.layout.nElems, h.layout.cumul, hrow, h.layout.curr]
      exact ⟨by omega, fun hne => by have := hspec.2 hne; omega⟩
    next := by
      refine ⟨_, by rw [h.layout.curr, h.layout.ptrArray_eq (Nat.le_refl _)], ?_⟩
      rw [h.layout.next, h.layout.elemSize, h.layout.nElems, hrow, h.layout.curr, endOffset, Nat.cast_mul, Nat.cast_sub hstart]
    copy := fun c hpos hc => by
      rw [copyListToBuf_layout h.layout _ (hlen ▸ hc) hpos, h.vals, ← List.map_take, List.take_range, Nat.min_eq_left (hlen ▸ hc)] }

/-- A list keeps its elements in every run in which no offset within a row reaches `2 ^ 31`. -/
theorem buddyRun_sound (m : Malloc) (s : SysMem) (elemSize initAlloc : Nat) (ops : List BuddyOp) (helem : 0 < elemSize)
    (hsize : unitSize elemSize < 2 ^ 31) (hinit : initAlloc ≤ 2 ^ 30) (hfit : opsFit (firstRow initAlloc) (unitSize elemSize) 0 ops) :
    ∃ r₀ r, buddyInit m s elemSize initAlloc = some r₀ ∧ buddyRun m ops r₀ = some r ∧ Sound r := by
  obtain ⟨list, sys, hnew, hlayout⟩ := initializeList_layout m s helem hsize hinit
  obtain ⟨r, k, hrun, hgood⟩ := buddyRun_good m ops (r := ⟨list, sys, [], []⟩) ⟨hlayout, rfl, rfl⟩ hfit
  exact ⟨_, r, by rw [buddyInit, hnew]; rfl, hrun, hgood.sound⟩

/-- The end of the blocks that are taken. -/
def takenEnd (taken : List (Int × Int)) : Int := taken.foldr (fun b e => max (b.1 + b.2) e) 0

theorem le_takenEnd {taken : List (Int × Int)} {b : Int × Int} (h : b ∈ taken) : b.1 + b.2 ≤ takenEnd taken := by
  induction taken with
  | nil => cases h
  | cons c taken ih =>
    rcases List.mem_cons.1 h with rfl | h
    · exact le_max_left _ _
    · exact (ih h).trans (le_max_right _ _)

/-- An allocator that puts every block after the others. -/
def bumpMalloc : Malloc where
  addr taken _ := takenEnd taken
  fill _ _ := 0
  apart _ _ _ h := Or.inr (le_takenEnd h)

theorem buddyRun_sound_two_rows :
    ∃ r₀ r, buddyInit bumpMalloc ⟨[], fun _ => 0⟩ 5 1 = some r₀ ∧
      buddyRun bumpMalloc [.get, .get, .get, .store 1 [1, 2, 3, 4, 5, 6, 7, 8], .freeLast 1, .freeLast 1, .get, .freeLast 3] r₀ = some r ∧ Sound r :=
  buddyRun_sound bumpMalloc ⟨[], fun _ => 0⟩ 5 1
    [.get, .get, .get, .store 1 [1, 2, 3, 4, 5, 6, 7, 8], .freeLast 1, .freeLast 1, .get, .freeLast 3] (by decide) (by decide) (by decide)
    (by simp [opsFit, opFits, countAfter, rowOffset, endOffset, rowOf, endRow, rowStart, firstRow, unitSize, Nat.log2_def])

/-- The third element of a row of 4 GB is not found. -/
theorem findElement_overflows :
    ∃ r₀ r a, buddyInit bumpMalloc ⟨[], fun _ => 0⟩ (2 ^ 30) 4 = some r₀ ∧ buddyRun bumpMalloc [.get, .get, .get] r₀ = some r ∧
      r.addrs[2]? = some a ∧ findElement r.list 2 = none :=
  ⟨_, _, _, rfl, rfl, rfl, rfl⟩

end Buddy

end Gtm
