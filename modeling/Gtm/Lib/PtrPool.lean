import Gtm.Lib.PtrList

/-!
# Lists that share their nodes

Several linked lists over one table of next pointers, each with a root of its own, between which a fixed set of nodes is divided. A
node can be taken off one list and put on another, at its front or behind its last node; the other lists stay what they are.
-/

namespace PtrList

open Function

variable {α ι : Type*}

/-- Every root has its list, and the nodes are divided between the lists. -/
structure Pool [Fintype ι] (next : α → Option α) (root : ι → Option α) (lists : ι → List α) (nodes : List α) : Prop where
  isList : ∀ i, IsList next (root i) (lists i)
  held : ∑ i, (lists i : Multiset α) = nodes
  nodup : nodes.Nodup

section Sum

variable {M : Type*} [AddCommMonoid M] [Fintype ι] [DecidableEq ι]

/-- What is moved from one place to another leaves the sum as it is. -/
theorem sum_move {f g : ι → M} {i j : ι} (hij : i ≠ j) (hoff : ∀ k, k ≠ i → k ≠ j → g k = f k) (hmove : g i + g j = f i + f j) :
    ∑ k, g k = ∑ k, f k := by
  have hj : j ∈ Finset.univ.erase i := by simp [hij.symm]
  rw [← Finset.add_sum_erase _ g (Finset.mem_univ i), ← Finset.add_sum_erase _ g hj, ← Finset.add_sum_erase _ f (Finset.mem_univ i),
    ← Finset.add_sum_erase _ f hj, ← add_assoc, ← add_assoc, hmove]
  congr 1
  refine Finset.sum_congr rfl fun k hk => hoff k ?_ ?_
  · rintro rfl
    simp at hk
  · rintro rfl
    simp at hk

end Sum

namespace Pool

variable [Fintype ι] {next : α → Option α} {root : ι → Option α} {lists : ι → List α} {nodes : List α} {i j : ι} {a : α}

section
variable (h : Pool next root lists nodes)
include h

theorem le (i : ι) : (lists i : Multiset α) ≤ nodes := by
  rw [← h.held]
  exact Finset.single_le_sum (fun _ _ => Multiset.zero_le _) (Finset.mem_univ i)

theorem list_nodup (i : ι) : (lists i).Nodup := Multiset.coe_nodup.1 (Multiset.nodup_of_le (h.le i) (Multiset.coe_nodup.2 h.nodup))

theorem length_le (i : ι) : (lists i).length ≤ nodes.length := by
  simpa using Multiset.card_le_card (h.le i)

/-- No node is on two lists. -/
theorem disjoint (hij : i ≠ j) (ha : a ∈ lists i) : a ∉ lists j := by
  classical
  have hj : j ∈ Finset.univ.erase i := by simp [hij.symm]
  have hsum := h.held
  rw [← Finset.add_sum_erase _ _ (Finset.mem_univ i), ← Finset.add_sum_erase _ _ hj, ← add_assoc] at hsum
  have hle : (lists i : Multiset α) + lists j ≤ nodes := hsum ▸ Multiset.le_add_right _ _
  have hnd := Multiset.nodup_of_le hle (Multiset.coe_nodup.2 h.nodup)
  exact fun haj => Multiset.disjoint_left.1 (Multiset.nodup_add.1 hnd).2.2 (Multiset.mem_coe.2 ha) (Multiset.mem_coe.2 haj)

/-- The lengths of the lists add up. -/
theorem sum_length : ∑ i, (lists i).length = nodes.length := by
  have := congrArg Multiset.card h.held
  rwa [Multiset.card_sum] at this

end

variable [DecidableEq α] [DecidableEq ι]

/-- A node is taken off its list and put in front of another. -/
theorem unlinkPush (h : Pool next root lists nodes) {pre post : List α} (hl : lists i = pre ++ a :: post) (hij : i ≠ j) :
    Pool (update (link next pre.getLast? (next a)) a (root j)) (update (update root i (linkRoot (root i) pre.getLast? (next a))) j (some a))
      (update (update lists i (pre ++ post)) j (a :: lists j)) nodes := by
  have hnd := hl ▸ h.list_nodup i
  have hai : a ∈ lists i := by simp [hl]
  obtain ⟨hpre, hpost, hdis⟩ := List.nodup_append.1 hnd
  obtain ⟨hapost, -⟩ := List.nodup_cons.1 hpost
  have hapre : a ∉ pre := fun ha => hdis a ha a (by simp) rfl
  have hlist := hl ▸ h.isList i
  -- the node before is on the same list, so that the others do not see the write
  have hlink : ∀ k, k ≠ i → IsList (link next pre.getLast? (next a)) (root k) (lists k) := fun k hk =>
    (h.isList k).congr fun x hx => link_of_not_mem (fun hxp => h.disjoint hk hx (by simp [hl, hxp])) _
  refine ⟨fun k => ?_, ?_, h.nodup⟩
  · by_cases hkj : k = j
    · subst hkj
      simp only [update_self]
      exact (hlink k (Ne.symm hij)).push (h.disjoint hij hai)
    · by_cases hki : k = i
      · subst hki
        simp only [update_of_ne hkj, update_self]
        have hrest : IsList next (next a) post := hlist.append_right.2
        refine (hlist.link hpre hrest fun x hx hx' => hdis x hx x (by simp [hx']) rfl).update ?_ _
        simp [hapre, hapost]
      · simp only [update_of_ne hkj, update_of_ne hki]
        exact (hlink k hki).update (h.disjoint (Ne.symm hki) hai) _
  · rw [← h.held]
    refine sum_move hij (fun k hki hkj => by rw [update_of_ne hkj, update_of_ne hki]) ?_
    rw [update_of_ne hij, update_self, update_self, hl]
    simp only [Multiset.coe_add, Multiset.coe_eq_coe]
    have hfront : (pre ++ post ++ a :: lists j).Perm (a :: (pre ++ post ++ lists j)) := List.perm_middle
    have hback : (a :: (pre ++ post)).Perm (pre ++ a :: post) := List.perm_middle.symm
    exact hfront.trans (hback.append_right (lists j))

/-- The first node of a list is taken off it and put behind the last node of another. -/
theorem takeAppend (h : Pool next root lists nodes) {rest : List α} (hl : lists i = a :: rest) (hij : i ≠ j) :
    Pool (update (link next (lists j).getLast? (some a)) a none)
      (update (update root i (next a)) j (linkRoot (root j) (lists j).getLast? (some a)))
      (update (update lists i rest) j (lists j ++ [a])) nodes := by
  have hai : a ∈ lists i := by simp [hl]
  obtain ⟨harest, -⟩ := List.nodup_cons.1 (hl ▸ h.list_nodup i)
  have hlist := hl ▸ h.isList i
  have haj : a ∉ lists j := h.disjoint hij hai
  have hlink : ∀ k, k ≠ j → ∀ x ∈ lists k, link next (lists j).getLast? (some a) x = next x := fun k hk x hx =>
    link_of_not_mem (h.disjoint hk hx) _
  refine ⟨fun k => ?_, ?_, h.nodup⟩
  · by_cases hkj : k = j
    · subst hkj
      simp only [update_self]
      have hnew : IsList (update next a none) (some a) [a] := ⟨rfl, update_self ..⟩
      have happ : IsList (update next a none) (root k) (lists k ++ []) := by
        simpa using (h.isList k).update haj none
      have := happ.link (h.list_nodup k) hnew fun x hx hxa => haj (by simpa using List.mem_singleton.1 hxa ▸ hx)
      convert this using 1
      cases hlast : (lists k).getLast? with
      | none => rfl
      | some p =>
        have hpa : p ≠ a := by
          rintro rfl
          exact haj (List.mem_of_getLast? hlast)
        exact update_comm hpa _ _ next
    · by_cases hki : k = i
      · subst hki
        simp only [update_of_ne hkj, update_self]
        exact (hlist.2.congr fun x hx => hlink k hkj x (by simp [hl, hx])).update harest _
      · simp only [update_of_ne hkj, update_of_ne hki]
        exact ((h.isList k).congr (hlink k hkj)).update (h.disjoint (Ne.symm hki) hai) _
  · rw [← h.held]
    refine sum_move hij (fun k hki hkj => by rw [update_of_ne hkj, update_of_ne hki]) ?_
    rw [update_of_ne hij, update_self, update_self, hl]
    simp only [Multiset.coe_add, Multiset.coe_eq_coe]
    rw [← List.append_assoc]
    exact List.perm_append_comm.trans (by simp)

end Pool

end PtrList
