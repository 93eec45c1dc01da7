import Gtm.Gds.KillSort
import Gtm.Lemmas.StpSort

/-!
# The partitions of the two sorts

Both sorts split every segment they get to split: the middle of the segment is inside the array as long as its length fits into 32
bits, and the scans of `gvcst_kill_sort` meet an entry that stops them, though no bound does.
-/

namespace Gtm

open Segment SortBoundsAux

theorem middle_eq {l r : Nat} (h : r - l < 2 ^ 31) : middle l r = some (l + (r - l) / 2) := by
  have hmod : ((r - l : Nat) : Int).bmod (2 ^ 32) = (r - l : Nat) := by
    apply Int.bmod_eq_of_le <;> omega
  have hdiv : ((r - l : Nat) : Int).tdiv 2 = ((r - l) / 2 : Nat) := rfl
  unfold middle
  rw [hmod]
  congr 1

open StpSortAux in
theorem stpgPartitionIn_splits {α : Type} (key : α → Nat) {n : Nat} (hn : n ≤ 2 ^ 31) : Partitions key n sCutoff (stpgPartitionIn key n) := by
  intro l r arr hlr hr
  obtain ⟨b, ix, hb, h⟩ := middlePartition_spec key l r arr (by unfold sCutoff at hlr; omega) hr
  refine ⟨b, ix, ?_, h.perm, h.l_le, h.le_r, h.left, h.right⟩
  rw [stpgPartitionIn, middle_eq (by omega), Option.bind_some]
  exact hb

namespace KillSortAux

variable {n l r : Nat} {arr : Nat → BlkIdent}

/-- The pivot is one of the entries of the segment, and one of the other two is not above it. -/
theorem killPivot_spec (hlr : l + 2 ≤ r) (hr : r < n) (hn : n ≤ 2 ^ 31) : ∃ kx, killPivot n l r arr = some kx ∧ (l ≤ kx ∧ kx ≤ r) ∧
      ∃ i, l ≤ i ∧ i < r ∧ (swap arr kx r i).blockId ≤ (arr kx).blockId := by
  rw [killPivot, middle_eq (by omega), Option.bind_some, cellRead_of_lt arr (by omega), Option.bind_some, cellRead_of_lt arr hr,
    Option.bind_some, cellRead_of_lt arr (by omega), Option.bind_some]
  have hl : ∀ k, l + (r - l) / 2 = k → l < k ∧ k < r := by omega
  generalize l + (r - l) / 2 = k at *
  obtain ⟨hlk, hkr⟩ := hl k rfl
  -- where the other two entries are after the exchange
  have hswapL : swap arr l r l = arr r := swap_left arr l r
  have hswapLk : swap arr l r k = arr k := swap_other arr (by omega) (by omega)
  have hswapK : swap arr k r k = arr r := swap_left arr k r
  have hswapKl : swap arr k r l = arr l := swap_other arr (by omega) (by omega)
  have hswapR : ∀ i, i < r → swap arr r r i = arr i := fun i hi => swap_other arr (by omega) (by omega)
  split
  · rename_i hij
    split
    · exact ⟨r, rfl, by omega, k, by omega, hkr, by rw [hswapR k hkr]; omega⟩
    · split
      · exact ⟨k, rfl, by omega, k, by omega, hkr, by rw [hswapK]; omega⟩
      · exact ⟨l, rfl, by omega, l, by omega, by omega, by rw [hswapL]; omega⟩
  · rename_i hij
    split
    · exact ⟨r, rfl, by omega, l, by omega, by omega, by rw [hswapR l (by omega)]; omega⟩
    · split
      · exact ⟨l, rfl, by omega, k, by omega, hkr, by rw [hswapLk]; omega⟩
      · exact ⟨k, rfl, by omega, l, by omega, by omega, by rw [hswapKl]; omega⟩

/-- The pivot at the end of the segment stops the scan up. -/
theorem killScanUp_spec {t : Int} (hr : r < n) (ht : (arr r).blockId = t) (cnt ix : Nat) (hix : ix ≤ r) (hc : r < ix + cnt) :
    ∃ ix', killScanUp n t arr cnt ix = some ix' ∧ UpTo BlkIdent.blockId t r arr ix ix' := by
  induction cnt generalizing ix with
  | zero => omega
  | succ cnt ih =>
    rw [killScanUp, cellRead_of_lt arr (by omega), Option.bind_some]
    split
    · rename_i h
      have hne : ix ≠ r := by
        rintro rfl
        omega
      obtain ⟨ix', heq, hle, hler, hbelow, hstop⟩ := ih (ix + 1) (by omega) (by omega)
      refine ⟨ix', heq, by omega, hler, ?_, hstop⟩
      intro i hi hlt
      by_cases hi' : i = ix
      · rw [hi']
        exact Int.le_of_lt h
      · exact hbelow i (by omega) hlt
    · rename_i h
      exact ⟨ix, rfl, Nat.le_refl _, hix, fun i h1 h2 => by omega, .inr (by omega)⟩

/-- An entry that is not above the pivot stops the scan down. -/
theorem killScanDown_spec {t : Int} (jx : Nat) (hn : jx ≤ n) (hlow : ∃ i, l ≤ i ∧ i < jx ∧ (arr i).blockId ≤ t) :
    ∃ jx', killScanDown n t arr jx = some jx' ∧ DownTo BlkIdent.blockId t l arr jx jx' := by
  induction jx with
  | zero =>
    obtain ⟨i, _, hi, _⟩ := hlow
    omega
  | succ jx ih =>
    obtain ⟨i, hl, hi, hle⟩ := hlow
    rw [killScanDown, cellRead_of_lt arr (by omega), Option.bind_some]
    split
    · rename_i h
      have hne : i ≠ jx := by
        rintro rfl
        omega
      obtain ⟨jx', heq, hlj, hlt, habove, hstop⟩ := ih (by omega) ⟨i, hl, by omega, hle⟩
      refine ⟨jx', heq, hlj, by omega, ?_, hstop⟩
      intro j hlt' hj
      by_cases hj' : j = jx
      · rw [hj']
        exact Int.le_of_lt h
      · exact habove j hlt' (by omega)
    · rename_i h
      exact ⟨jx, rfl, by omega, by omega, fun j h1 h2 => by omega, .inr (by omega)⟩

end KillSortAux

open KillSortAux in
theorem killPartition_splits {n : Nat} (hn : n ≤ 2 ^ 31) : Partitions BlkIdent.blockId n sCutoff (killPartition n) := by
  intro l r arr hlr hr
  unfold sCutoff at hlr
  obtain ⟨kx, hkx, hk, hlow⟩ : ∃ kx, killPivot n l r arr = some kx ∧ (l ≤ kx ∧ kx ≤ r) ∧
      ∃ i, l ≤ i ∧ i < r ∧ (swap arr kx r i).blockId ≤ (arr kx).blockId := killPivot_spec (by omega) hr hn
  have hspec : ∃ b ix, partitionIn n (fun v arr ix => killScanUp n v.blockId arr (n + 1 - ix) ix)
      (fun v arr jx => killScanDown n v.blockId arr jx) kx l r arr = some (b, ix) ∧ SplitParts BlkIdent.blockId l r arr b ix := by
    refine partitionIn_spec BlkIdent.blockId (fun a jx => ∃ i, l ≤ i ∧ i < jx ∧ (a i).blockId ≤ (arr kx).blockId) (by omega) hr hk
      ?_ ?_ ?_ hlow
    · intro a ix ht hix
      exact killScanUp_spec hr ht (n + 1 - ix) ix hix (by omega)
    · intro a jx _ hjr hlow
      exact killScanDown_spec jx (by omega) hlow
    · intro a jx i hi hij hle
      exact ⟨i, hi, hij, hle⟩
  obtain ⟨b, ix, hb, h⟩ := hspec
  refine ⟨b, ix, ?_, h.perm, h.l_le, h.le_r, h.left, h.right⟩
  rw [killPartition, hkx, Option.bind_some]
  exact hb

end Gtm

/-!
## The bounds of the sorts

`gvcst_kill_sort` and `stpg_sort` stay inside the array and on their stack, and leave the array sorted: every kill set, and every
array of fewer than `17 * 2 ^ 25 - 1` pointers. That many pointers in ascending order need one segment more than the stack has room
for.
-/

namespace Gtm

open Segment SortBoundsAux StpSortAux

variable {α : Type} (key : α → Nat)

/-- The entries of an array, sorted by their keys. -/
def SortedCopy {κ : Type} [LE κ] (key : α → κ) (n : Nat) (arr b : Nat → α) : Prop :=
  ((List.range n).map b).Perm ((List.range n).map arr) ∧ ((List.range n).map b).Pairwise fun x y => key x ≤ key y

/-- Within its bounds, `stpg_sort` has a result. -/
theorem stpgSortIn_spec {n : Nat} (h : n + 1 < 17 * 2 ^ 25) (arr : Nat → α) : ∃ b, stpgSortIn key n arr = some b ∧ SortedCopy key n arr b :=
  sortSegs_sorts key (insertionIn_sorts key n) (stpgPartitionIn_splits key (by omega)) (by unfold stackSegs sCutoff; omega) arr

/-- The sort without bounds is the one with bounds. -/
theorem stpgSortIn_eq_stpgSort {n : Nat} (h : n + 1 < 17 * 2 ^ 25) (arr : Nat → α) : stpgSortIn key n arr = some (stpgSort key n arr) := by
  obtain ⟨b, hb, -⟩ := stpgSortIn_spec key h arr
  have hpart : ∀ l r arr p, stpgPartitionIn key n l r arr = some p → partition key l r arr = p := by
    intro l r arr p hp
    obtain ⟨kx, hkx, hp⟩ := Option.bind_eq_some_iff.1 hp
    have hr := lt_of_partitionIn hp
    rw [middle_eq (by omega), Option.some_inj] at hkx
    rw [← hkx] at hp
    exact partition_eq key hp
  have heq : stpgSort key n arr = b := sortLoop_eq key hpart hb
  rw [heq]
  exact hb

/-- Every kill set is sorted within the bounds, and so is every array of pointers with fewer than `17 * 2 ^ 25 - 1` entries. -/
theorem sorts_withinBounds :
    (∀ (used : Nat) (blk : Nat → BlkIdent), used ≤ blksInKillSet →
      ∃ b, gvcstKillSort used blk = some b ∧ SortedCopy BlkIdent.blockId used blk b) ∧
    ∀ (β : Type) (key : β → Nat) (n : Nat) (arr : Nat → β), n + 1 < 17 * 2 ^ 25 →
      ∃ b, stpgSortIn key n arr = some b ∧ SortedCopy key n arr b := by
  refine ⟨?_, fun β key n arr h => stpgSortIn_spec key h arr⟩
  intro used blk hused
  unfold blksInKillSet at hused
  exact sortSegs_sorts BlkIdent.blockId (insertionIn_sorts BlkIdent.blockId used) (killPartition_splits (by omega))
    (by unfold stackSegs sCutoff; omega) blk

theorem sorts_withinBounds_three :
    (∃ b, gvcstKillSort 3 (fun i => ⟨5 - i, 0, 0⟩) = some b ∧ SortedCopy BlkIdent.blockId 3 (fun i => ⟨5 - i, 0, 0⟩) b) ∧
    ∃ b, stpgSortIn (fun i : Nat => i % 2) 3 (fun i => i) = some b ∧ SortedCopy (fun i : Nat => i % 2) 3 (fun i => i) b :=
  ⟨sorts_withinBounds.1 3 _ (by decide), sorts_withinBounds.2 Nat _ 3 _ (by decide)⟩

/-! ### An array in ascending order -/

namespace SortBoundsAux

/-- A segment in ascending order: the scans meet in the middle, and the last exchange is undone. -/
theorem stpgPartitionIn_id {n l r : Nat} (hlr : l + 2 ≤ r) (hr : r < n) (hn : n ≤ 2 ^ 31) :
    stpgPartitionIn (fun i : Nat => i) n l r (fun i => i) = some (fun i => i, l + (r - l) / 2) := by
  rw [stpgPartitionIn, middle_eq (by omega)]
  have hmid : ∀ k, l + (r - l) / 2 = k → l < k ∧ k < r := by omega
  generalize l + (r - l) / 2 = k at *
  obtain ⟨hlk, hkr⟩ := hmid k rfl
  set a : Nat → Nat := swap (fun i => i) k r with ha
  have hak : a k = r := swap_left _ k r
  have har : a r = k := swap_right _ k r
  have hother : ∀ i, i ≠ k → i ≠ r → a i = i := fun i h1 h2 => swap_other _ h1 h2
  obtain ⟨ix, hix, hup⟩ := @scanUpIn_spec _ (fun i : Nat => i) n r k a hr (r - l) l (by omega)
  obtain ⟨jx, hjx, hdown⟩ := @scanDownIn_spec _ (fun i : Nat => i) n l k a r (by omega) (Nat.le_of_lt hr)
  have hixk : ix = k := by
    have hle : ix ≤ k := by
      by_contra hlt
      have := hup.below k (by omega) (by omega)
      omega
    by_contra hne
    have := hother ix hne (by omega)
    rcases hup.stop with hstop | hstop <;> omega
  have hjxk : jx = k - 1 := by
    have hjr := hdown.lt
    have hge : k - 1 ≤ jx := by
      by_contra hlt
      have := hdown.above (k - 1) (by omega) (by omega)
      have := hother (k - 1) (by omega) (by omega)
      omega
    have hne : jx ≠ k := by
      rintro rfl
      rcases hdown.stop with hstop | hstop <;> omega
    by_contra hne'
    have := hother jx hne (by omega)
    rcases hdown.stop with hstop | hstop <;> omega
  subst hixk hjxk
  have hloop : partitionLoopIn n (fun arr ix' => scanUpIn (fun i : Nat => i) n ix arr (r - ix') ix')
      (fun arr jx => scanDownIn (fun i : Nat => i) n l ix arr jx) (r - l) a l r =
      some ⟨swap a ix (ix - 1), ix, ix - 1, a ix⟩ := by
    obtain ⟨fuel, hfuel⟩ : ∃ fuel, r - l = fuel + 1 := ⟨r - l - 1, by omega⟩
    rw [hfuel, partitionLoopIn]
    simp only [hix, hjx, Option.bind_some]
    rw [cellRead_of_lt _ (by omega), Option.bind_some, cellRead_of_lt _ (by omega), Option.bind_some,
      cellWrite_of_lt _ _ (by omega), Option.bind_some, cellWrite_of_lt _ _ (by omega), Option.bind_some, if_neg (by omega)]
    rfl
  have hswap : swap a ix r = fun i => i := by
    funext i
    by_cases hi : i = ix
    · rw [hi, swap_left, har]
    · by_cases hi' : i = r
      · rw [hi', swap_right, hak]
      · rw [swap_other _ hi hi', hother i hi hi']
  have hixn : ix < n := by omega
  have hback : ix - 1 ≤ ix := Nat.sub_le ix 1
  have hlast : ix - 1 < r := by omega
  refine (partitionIn_eq hr hixn hloop hixn hback hlast rfl rfl).trans ?_
  rw [hswap]

/-- With `17 * 2 ^ k - 1` entries in ascending order in hand, `k` more segments go to the stack before one is short enough. -/
theorem sortSegs_id_full {n l e k fuel : Nat} {sp : List (Nat × Nat)} (hn : n ≤ 2 ^ 31) (hsp : sp.length + k = stackSegs)
    (he : e = l + (17 * 2 ^ k - 1)) (hen : e ≤ n) :
    sortSegs stackSegs sCutoff (insertionIn (fun i : Nat => i) n) (stpgPartitionIn (fun i : Nat => i) n) fuel sp (l, e)
      (fun i => i) = none := by
  induction k generalizing sp fuel e with
  | zero =>
    cases fuel with
    | zero => rfl
    | succ fuel =>
      rw [sortSegs, if_neg (by unfold sCutoff; omega), stpgPartitionIn_id (by omega) (by omega) hn, Option.bind_some]
      simp only
      rw [if_pos (by omega)]
  | succ k ih =>
    cases fuel with
    | zero => rfl
    | succ fuel =>
      have hpos : 0 < 2 ^ k := Nat.two_pow_pos k
      have hhalf : l + (e - 1 - l) / 2 = l + (17 * 2 ^ k - 1) := by omega
      rw [sortSegs, if_neg (by unfold sCutoff; omega), stpgPartitionIn_id (by omega) (by omega) hn, Option.bind_some]
      simp only
      rw [if_neg (by omega), hhalf, if_neg (by omega)]
      exact ih (by rw [List.length_cons]; omega) rfl (by omega)

end SortBoundsAux

/-- `17 * 2 ^ 25 - 1` pointers in ascending order do not fit on the stack. -/
theorem stpgSortIn_stackFull : stpgSortIn (fun i : Nat => i) (17 * 2 ^ 25 - 1) (fun i => i) = none :=
  sortSegs_id_full (k := 25) (by decide) rfl (by decide) (Nat.le_refl _)

end Gtm
