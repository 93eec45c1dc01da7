import Mathlib

/-!
# Segments of an array

An array as a function of its index, rearranged within segments `[l, e)`: what a rearrangement keeps, and arrays that are sorted
but for what stands inside the segments still to be sorted. These are the steps of a sort that works on a stack of segments.
-/

namespace Segment

variable {α : Type*}

/-- Being an index of the segment. -/
def Mem (s : Nat × Nat) (i : Nat) : Prop := s.1 ≤ i ∧ i < s.2

/-- Two segments have no index in common. -/
def Disjoint (s t : Nat × Nat) : Prop := ∀ i, Mem s i → ¬ Mem t i

/-- `b` is `a` with the elements of one segment rearranged. -/
def Perm (s : Nat × Nat) (a b : Nat → α) : Prop := ∃ σ : Equiv.Perm Nat, (∀ i, ¬ Mem s i → σ i = i) ∧ b = a ∘ σ

/-- Two elements exchanged. -/
def swap (a : Nat → α) (i j : Nat) : Nat → α := Function.update (Function.update a i (a j)) j (a i)

theorem swap_eq_comp (a : Nat → α) (i j : Nat) : swap a i j = a ∘ Equiv.swap i j := by
  funext k
  unfold swap
  by_cases hj : k = j
  · subst hj
    simp
  · rw [Function.update_of_ne hj]
    by_cases hi : k = i
    · subst hi
      simp
    · rw [Function.update_of_ne hi, Function.comp_apply, Equiv.swap_apply_of_ne_of_ne hi hj]

@[simp] theorem swap_right (a : Nat → α) (i j : Nat) : swap a i j j = a i := by simp [swap]

@[simp] theorem swap_left (a : Nat → α) (i j : Nat) : swap a i j i = a j := by
  rw [swap_eq_comp, Function.comp_apply, Equiv.swap_apply_left]

theorem swap_other (a : Nat → α) {i j k : Nat} (hi : k ≠ i) (hj : k ≠ j) : swap a i j k = a k := by
  rw [swap_eq_comp, Function.comp_apply, Equiv.swap_apply_of_ne_of_ne hi hj]

namespace Perm

variable {s : Nat × Nat} {a b c : Nat → α}

theorem refl (s : Nat × Nat) (a : Nat → α) : Perm s a a := ⟨Equiv.refl _, fun _ _ => rfl, rfl⟩

theorem trans (h : Perm s a b) (h' : Perm s b c) : Perm s a c := by
  obtain ⟨σ, hσ, rfl⟩ := h
  obtain ⟨τ, hτ, rfl⟩ := h'
  refine ⟨τ.trans σ, ?_, rfl⟩
  intro i hi
  rw [Equiv.trans_apply, hτ i hi, hσ i hi]

theorem mono {t : Nat × Nat} (h : Perm s a b) (hst : ∀ i, Mem s i → Mem t i) : Perm t a b := by
  obtain ⟨σ, hσ, hb⟩ := h
  exact ⟨σ, fun i hi => hσ i fun hs => hi (hst i hs), hb⟩

theorem swap (a : Nat → α) {i j : Nat} (hi : Mem s i) (hj : Mem s j) : Perm s a (Segment.swap a i j) := by
  refine ⟨Equiv.swap i j, ?_, swap_eq_comp a i j⟩
  intro k hk
  refine Equiv.swap_apply_of_ne_of_ne ?_ ?_
  · rintro rfl
    exact hk hi
  · rintro rfl
    exact hk hj

/-- Outside the segment nothing changes. -/
theorem eq_outside (h : Perm s a b) {i : Nat} (hi : ¬ Mem s i) : b i = a i := by
  obtain ⟨σ, hσ, rfl⟩ := h
  rw [Function.comp_apply, hσ i hi]

/-- What stands in the segment stood there before. -/
theorem exists_mem (h : Perm s a b) {i : Nat} (hi : Mem s i) : ∃ j, Mem s j ∧ b i = a j := by
  obtain ⟨σ, hσ, rfl⟩ := h
  refine ⟨σ i, ?_, rfl⟩
  by_contra hn
  have := σ.injective (hσ _ hn)
  rw [this] at hn
  exact hn hi

/-- As a list, the array is rearranged. -/
theorem map_range {n : Nat} (h : Perm (0, n) a b) : ((List.range n).map b).Perm ((List.range n).map a) := by
  obtain ⟨σ, hσ, rfl⟩ := h
  have hmem : ∀ i, i < n → σ i < n := by
    intro i hi
    by_contra hn
    have := σ.injective (hσ (σ i) fun hm => hn hm.2)
    omega
  have hperm : ((List.range n).map σ).Perm (List.range n) := by
    refine (List.Nodup.subperm (List.nodup_range.map σ.injective) ?_).perm_of_length_le (by simp)
    intro j hj
    obtain ⟨i, hi, rfl⟩ := List.mem_map.1 hj
    exact List.mem_range.2 (hmem i (List.mem_range.1 hi))
  have := hperm.map a
  rwa [List.map_map] at this

end Perm

section Sorted

variable {β : Type*} [Preorder β] {segs : List (Nat × Nat)} {s : Nat × Nat} {n : Nat} {a b : Nat → β}

/-- Sorted but for what stands in one of the segments. -/
def SortedBut (segs : List (Nat × Nat)) (n : Nat) (a : Nat → β) : Prop :=
  ∀ i j, i ≤ j → j < n → a i ≤ a j ∨ ∃ s ∈ segs, Mem s i ∧ Mem s j

/-- Rearranging a segment still to be sorted disturbs nothing. -/
theorem SortedBut.perm (h : SortedBut (s :: segs) n a) (hs : s.2 ≤ n) (hd : ∀ t ∈ segs, Disjoint s t) (hp : Perm s a b) :
    SortedBut (s :: segs) n b := by
  intro i j hij hj
  by_cases hmi : Mem s i <;> by_cases hmj : Mem s j
  · exact .inr ⟨s, by simp, hmi, hmj⟩
  · -- the left element comes from the segment, and all of the segment was left of the right element
    obtain ⟨i', hi', hbi⟩ := hp.exists_mem hmi
    rw [hbi, hp.eq_outside hmj]
    have hlt : i' < j := by
      unfold Mem at *
      omega
    rcases h i' j (Nat.le_of_lt hlt) hj with hle | ⟨t, ht, hti, htj⟩
    · exact .inl hle
    · rcases List.mem_cons.1 ht with rfl | ht
      · exact absurd htj hmj
      · exact absurd hti (hd t ht i' hi')
  · obtain ⟨j', hj', hbj⟩ := hp.exists_mem hmj
    rw [hbj, hp.eq_outside hmi]
    have hlt : i < j' ∧ j' < n := by
      unfold Mem at *
      omega
    rcases h i j' (Nat.le_of_lt hlt.1) hlt.2 with hle | ⟨t, ht, hti, htj⟩
    · exact .inl hle
    · rcases List.mem_cons.1 ht with rfl | ht
      · exact absurd hti hmi
      · exact absurd htj (hd t ht j' hj')
  · rw [hp.eq_outside hmi, hp.eq_outside hmj]
    rcases h i j hij hj with hle | ⟨t, ht, hti, htj⟩
    · exact .inl hle
    · exact .inr ⟨t, ht, hti, htj⟩

/-- A segment is replaced by the parts of it that are still to be sorted. -/
theorem SortedBut.refine (h : SortedBut (s :: segs) n a) (new : List (Nat × Nat))
    (hnew : ∀ i j, i ≤ j → Mem s i → Mem s j → a i ≤ a j ∨ ∃ t ∈ new, Mem t i ∧ Mem t j) : SortedBut (new ++ segs) n a := by
  intro i j hij hj
  rcases h i j hij hj with hle | ⟨t, ht, hti, htj⟩
  · exact .inl hle
  · rcases List.mem_cons.1 ht with rfl | ht
    · rcases hnew i j hij hti htj with hle | ⟨u, hu, hui, huj⟩
      · exact .inl hle
      · exact .inr ⟨u, List.mem_append_left _ hu, hui, huj⟩
    · exact .inr ⟨t, List.mem_append_right _ ht, hti, htj⟩

/-- A segment split at an element that everything left of it is below and everything right of it above. -/
theorem SortedBut.split {l k e : Nat} (h : SortedBut ((l, e) :: segs) n a) (hleft : ∀ i, l ≤ i → i < k → a i ≤ a k)
    (hright : ∀ j, k < j → j < e → a k ≤ a j) : SortedBut ((l, k) :: (k + 1, e) :: segs) n a := by
  refine h.refine [(l, k), (k + 1, e)] ?_
  intro i j hij hi hj
  rcases Nat.lt_trichotomy i k with hik | rfl | hik
  · rcases Nat.lt_trichotomy j k with hjk | rfl | hjk
    · exact .inr ⟨(l, k), by simp, ⟨hi.1, hik⟩, ⟨hj.1, hjk⟩⟩
    · exact .inl (hleft i hi.1 hik)
    · exact .inl ((hleft i hi.1 hik).trans (hright j hjk hj.2))
  · rcases Nat.eq_or_lt_of_le hij with rfl | hij
    · exact .inl le_rfl
    · exact .inl (hright j hij hj.2)
  · exact .inr ⟨(k + 1, e), by simp, ⟨hik, hi.2⟩, ⟨by simp only; omega, hj.2⟩⟩

/-- With no segment left, the array is sorted. -/
theorem SortedBut.pairwise (h : SortedBut [] n a) : ((List.range n).map a).Pairwise (· ≤ ·) := by
  rw [List.pairwise_map]
  refine List.pairwise_lt_range.imp_of_mem ?_
  intro i j _ hj hij
  rcases h i j (Nat.le_of_lt hij) (List.mem_range.1 hj) with hle | ⟨t, ht, _⟩
  · exact hle
  · simp at ht

end Sorted

end Segment
