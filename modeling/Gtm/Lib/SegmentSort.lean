import Gtm.Lib.Segment

/-!
# Sorting on a stack of segments

The main loop of a quicksort without recursion: a short segment is sorted at once, and the next one comes from the stack; a long one
is partitioned, the larger part goes to the stack, which has room for a fixed number of segments, and the smaller one is next.

If both steps do what they have to on every segment, the loop sorts the array. Each segment on the stack is at most half as large as
the one below it, so that the room needed grows with the logarithm of the size of the array only.
-/

namespace Segment

variable {α β : Type*}

/-- The loop, with the segment `[l, e)` in hand and the stack of the others. It has no result if a step has none, or if there is no
room on the stack. -/
def sortSegs (room cutoff : Nat) (short : Nat → Nat → (Nat → α) → Option (Nat → α))
    (part : Nat → Nat → (Nat → α) → Option ((Nat → α) × Nat)) : Nat → List (Nat × Nat) → Nat × Nat → (Nat → α) → Option (Nat → α)
  | 0, _, _, _ => none
  | fuel + 1, sp, (l, e), arr =>
    if e < l + 1 + cutoff then
      (short l e arr).bind fun arr =>
        match sp with
        | [] => some arr
        | s :: sp => sortSegs room cutoff short part fuel sp s arr
    else
      (part l (e - 1) arr).bind fun (arr, ix) =>
        if room ≤ sp.length then none
        else if e - 1 - ix < ix - l then sortSegs room cutoff short part fuel ((l, ix) :: sp) (ix + 1, e) arr
        else sortSegs room cutoff short part fuel ((ix + 1, e) :: sp) (l, ix) arr

/-- The number of turns the loop still takes at most. -/
def turns (segs : List (Nat × Nat)) : Nat := (segs.map fun s => 2 * (s.2 - s.1) + 1).sum

/-- The segments in hand and on the stack: inside the array and apart from each other. -/
def SegsOk (n : Nat) (segs : List (Nat × Nat)) : Prop := (∀ s ∈ segs, s.2 ≤ n) ∧ segs.Pairwise Segment.Disjoint

/-- Each of the segments is at most half as large as the next, and the last as large as the array. -/
def Halved (n : Nat) : List (Nat × Nat) → Prop
  | [] => True
  | s :: segs => (s.2 - s.1 + 1) * 2 ^ segs.length ≤ n + 1 ∧ Halved n segs

section

variable {n l k e : Nat} {s t : Nat × Nat} {segs : List (Nat × Nat)}

/-- A segment split at `k`: its parts are apart, and apart from what it was apart from. -/
theorem SegsOk.split (h : SegsOk n ((l, e) :: segs)) (hl : l ≤ k) (hk : k < e) : SegsOk n ((l, k) :: (k + 1, e) :: segs) := by
  obtain ⟨hn, hd⟩ := h
  rw [List.pairwise_cons] at hd
  have he := hn (l, e) (by simp)
  refine ⟨?_, ?_⟩
  · intro s hs
    simp only [List.mem_cons] at hs
    rcases hs with rfl | rfl | hs
    · omega
    · exact he
    · exact hn s (by simp [hs])
  · rw [List.pairwise_cons, List.pairwise_cons]
    refine ⟨?_, ?_, hd.2⟩
    · intro s hs i hi
      rcases List.mem_cons.1 hs with rfl | hs
      · unfold Mem at *
        omega
      · refine hd.1 s hs i ⟨hi.1, ?_⟩
        have := hi.2
        omega
    · intro s hs i hi
      refine hd.1 s hs i ⟨?_, hi.2⟩
      have := hi.1
      omega

theorem SegsOk.swap (h : SegsOk n (s :: t :: segs)) : SegsOk n (t :: s :: segs) := by
  obtain ⟨hn, hd⟩ := h
  refine ⟨fun u hu => hn u (by simp only [List.mem_cons] at hu ⊢; tauto), ?_⟩
  rw [List.pairwise_cons, List.pairwise_cons] at hd ⊢
  obtain ⟨h1, h2, h3⟩ := hd
  refine ⟨?_, fun u hu => h1 u (by simp [hu]), h3⟩
  intro u hu
  rcases List.mem_cons.1 hu with rfl | hu
  · intro i hi hu'
    exact h1 t (by simp) i hu' hi
  · exact h2 u hu

theorem SegsOk.tail (h : SegsOk n (s :: segs)) : SegsOk n segs := ⟨fun u hu => h.1 u (by simp [hu]), (List.pairwise_cons.1 h.2).2⟩

theorem SortedBut.swap [Preorder β] {a : Nat → β} (h : SortedBut (s :: t :: segs) n a) : SortedBut (t :: s :: segs) n a := by
  intro i j hij hj
  rcases h i j hij hj with hle | ⟨u, hu, hui, huj⟩
  · exact .inl hle
  · exact .inr ⟨u, by simp only [List.mem_cons] at hu ⊢; tauto, hui, huj⟩

/-- The parts of a segment, the larger one put aside. -/
theorem Halved.split {big small : Nat × Nat} (h : Halved n (s :: segs)) (hsum : big.2 - big.1 + (small.2 - small.1) + 1 = s.2 - s.1)
    (hle : small.2 - small.1 ≤ big.2 - big.1) : Halved n (small :: big :: segs) := by
  obtain ⟨hs, hsegs⟩ := h
  refine ⟨?_, ?_, hsegs⟩
  · calc (small.2 - small.1 + 1) * 2 ^ (big :: segs).length = 2 * (small.2 - small.1 + 1) * 2 ^ segs.length := by
          rw [List.length_cons, Nat.pow_succ', ← Nat.mul_assoc, Nat.mul_comm _ 2]
      _ ≤ (s.2 - s.1 + 1) * 2 ^ segs.length := Nat.mul_le_mul_right _ (by omega)
      _ ≤ n + 1 := hs
  · exact (Nat.mul_le_mul_right _ (by omega)).trans hs

/-- As long as there is a long segment in hand, there is room on the stack. -/
theorem Halved.room {room cutoff : Nat} (h : Halved n (s :: segs)) (hlong : cutoff + 1 ≤ s.2 - s.1)
    (hroom : n + 1 < (cutoff + 2) * 2 ^ room) : segs.length < room := by
  by_contra hge
  have hpow : 2 ^ room ≤ 2 ^ segs.length := Nat.pow_le_pow_right (by decide) (not_lt.1 hge)
  have : (cutoff + 2) * 2 ^ room ≤ n + 1 :=
    calc (cutoff + 2) * 2 ^ room ≤ (s.2 - s.1 + 1) * 2 ^ segs.length := Nat.mul_le_mul (by omega) hpow
      _ ≤ n + 1 := h.1
  omega

end

section Loop

variable [Preorder β] (key : α → β) {room cutoff n : Nat} {short : Nat → Nat → (Nat → α) → Option (Nat → α)}
  {part : Nat → Nat → (Nat → α) → Option ((Nat → α) × Nat)}

/-- A step that sorts a short segment. -/
def Sorts (key : α → β) (n : Nat) (short : Nat → Nat → (Nat → α) → Option (Nat → α)) : Prop :=
  ∀ l e arr, e ≤ n → ∃ b, short l e arr = some b ∧ Perm (l, e) arr b ∧ ∀ i j, l ≤ i → i ≤ j → j < e → key (b i) ≤ key (b j)

/-- A step that splits a long segment. -/
def Partitions (key : α → β) (n cutoff : Nat) (part : Nat → Nat → (Nat → α) → Option ((Nat → α) × Nat)) : Prop :=
  ∀ l r arr, l + cutoff ≤ r → r < n → ∃ b ix, part l r arr = some (b, ix) ∧ Perm (l, r + 1) arr b ∧ l ≤ ix ∧ ix ≤ r ∧
    (∀ i, l ≤ i → i < ix → key (b i) ≤ key (b ix)) ∧ ∀ j, ix < j → j < r + 1 → key (b ix) ≤ key (b j)

section
variable (hshort : Sorts key n short) (hpart : Partitions key n cutoff part) (hroom : n + 1 < (cutoff + 2) * 2 ^ room)
include hshort hpart hroom

theorem sortSegs_spec (fuel : Nat) (sp : List (Nat × Nat)) (s : Nat × Nat) (arr : Nat → α) (hok : SegsOk n (s :: sp))
    (hs : SortedBut (s :: sp) n (key ∘ arr)) (hhalved : Halved n (s :: sp)) (hf : turns (s :: sp) ≤ fuel) :
    ∃ b, sortSegs room cutoff short part fuel sp s arr = some b ∧ Perm (0, n) arr b ∧ SortedBut [] n (key ∘ b) := by
  induction fuel generalizing sp s arr with
  | zero => simp [turns] at hf
  | succ fuel ih =>
    obtain ⟨l, e⟩ := s
    have hen : e ≤ n := hok.1 (l, e) (by simp)
    have hdis := (List.pairwise_cons.1 hok.2).1
    have hkey : ∀ {b : Nat → α}, Perm (l, e) arr b → Perm (l, e) (key ∘ arr) (key ∘ b) := by
      rintro b ⟨σ, hσ, rfl⟩
      exact ⟨σ, hσ, rfl⟩
    have hwhole : ∀ {b : Nat → α}, Perm (l, e) arr b → Perm (0, n) arr b := by
      intro b hb
      refine hb.mono ?_
      intro i hi
      exact ⟨Nat.zero_le _, by have := hi.2; simp only at *; omega⟩
    simp only [turns, List.map_cons, List.sum_cons] at hf
    rw [sortSegs]
    split
    · -- a short segment is sorted, and the next one comes from the stack
      obtain ⟨b, hb, hperm, hsorted⟩ := hshort l e arr hen
      have hbut : SortedBut sp n (key ∘ b) := by
        refine (hs.perm hen hdis (hkey hperm)).refine [] ?_
        intro i j hij hi hj
        exact .inl (hsorted i j hi.1 hij hj.2)
      rw [hb]
      cases sp with
      | nil => exact ⟨b, rfl, hwhole hperm, hbut⟩
      | cons t sp =>
        obtain ⟨c, hc, h1, h2⟩ := ih sp t b hok.tail hbut hhalved.2 (by
          simp only [turns, List.map_cons, List.sum_cons] at hf ⊢
          omega)
        exact ⟨c, hc, (hwhole hperm).trans h1, h2⟩
    · rename_i hlong
      obtain ⟨b, ix, hb, hperm, hl, hr, hleft, hright⟩ := hpart l (e - 1) arr (by omega) (by omega)
      rw [show e - 1 + 1 = e by omega] at hperm hright
      have hbut := (hs.perm hen hdis (hkey hperm)).split hleft hright
      have hok' := hok.split hl (show ix < e by omega)
      have hspace : sp.length < room := hhalved.room (by simp only; omega) hroom
      rw [hb, Option.bind_some]
      simp only [if_neg (not_le.2 hspace)]
      split
      · have hhalved' : Halved n ((ix + 1, e) :: (l, ix) :: sp) := hhalved.split (by simp only; omega) (by simp only; omega)
        obtain ⟨c, hc, h1, h2⟩ := ih ((l, ix) :: sp) (ix + 1, e) b hok'.swap hbut.swap hhalved' (by
          simp only [turns, List.map_cons, List.sum_cons]
          omega)
        exact ⟨c, hc, (hwhole hperm).trans h1, h2⟩
      · have hhalved' : Halved n ((l, ix) :: (ix + 1, e) :: sp) := hhalved.split (by simp only; omega) (by simp only; omega)
        obtain ⟨c, hc, h1, h2⟩ := ih ((ix + 1, e) :: sp) (l, ix) b hok' hbut hhalved' (by
          simp only [turns, List.map_cons, List.sum_cons]
          omega)
        exact ⟨c, hc, (hwhole hperm).trans h1, h2⟩

/-- The loop on a whole array. -/
theorem sortSegs_sorts (arr : Nat → α) :
    ∃ b, sortSegs room cutoff short part (2 * n + 1) [] (0, n) arr = some b ∧ ((List.range n).map b).Perm ((List.range n).map arr) ∧
      ((List.range n).map b).Pairwise fun a b => key a ≤ key b := by
  have hs : SortedBut [(0, n)] n (key ∘ arr) := by
    intro i j hij hj
    exact .inr ⟨(0, n), by simp, ⟨Nat.zero_le _, Nat.lt_of_le_of_lt hij hj⟩, ⟨Nat.zero_le _, hj⟩⟩
  have hok : SegsOk n [(0, n)] := ⟨by simp, List.pairwise_singleton _ _⟩
  have hhalved : Halved n [(0, n)] := ⟨by simp, trivial⟩
  obtain ⟨b, hb, hperm, hsorted⟩ := sortSegs_spec key hshort hpart hroom (2 * n + 1) [] (0, n) arr hok hs hhalved (by simp [turns])
  refine ⟨b, hb, hperm.map_range, ?_⟩
  have := hsorted.pairwise
  rwa [← List.map_map, List.pairwise_map] at this

end

end Loop

end Segment
