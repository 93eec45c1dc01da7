import Mathlib

/-!
# Rings

Nodes linked both ways in a circle by a table of next and a table of previous nodes, against the list of the nodes from any one of
them on.
-/

namespace PtrRing

variable {α : Type*}

/-- From `a` on the links run through the nodes of the list to `z`, forth and back. -/
def Linked (next prev : α → α) : α → List α → α → Prop
  | a, [], z => next a = z ∧ prev z = a
  | a, b :: l, z => next a = b ∧ prev b = a ∧ Linked next prev b l z

/-- The nodes of the list are linked in a circle, in order. -/
def Ring (next prev : α → α) : List α → Prop
  | [] => True
  | a :: l => Linked next prev a l a

variable {next prev next' prev' : α → α} {a b x z : α} {l l' p s : List α}

theorem linked_append : Linked next prev a (l ++ b :: l') z ↔ Linked next prev a l b ∧ Linked next prev b l' z := by
  induction l generalizing a with
  | nil => simp only [List.nil_append, Linked, and_assoc]
  | cons c l ih => simp only [List.cons_append, Linked, ih, and_assoc]

/-- Links read the next node of all but the last, and the previous one of all but the first. -/
theorem Linked.congr (h : Linked next prev a l z) (hn : ∀ y ∈ a :: l, next' y = next y) (hp : ∀ y ∈ l ++ [z], prev' y = prev y) :
    Linked next' prev' a l z := by
  induction l generalizing a with
  | nil => exact ⟨(hn a (by simp)).trans h.1, (hp z (by simp)).trans h.2⟩
  | cons b l ih =>
    refine ⟨(hn a (by simp)).trans h.1, (hp b (by simp)).trans h.2.1, ih h.2.2 (fun y hy => hn y (by simp [hy])) fun y hy => ?_⟩
    exact hp y (by simpa using Or.inr (by simpa using hy))

theorem Linked.next_eq (h : Linked next prev a l z) : next a = (l ++ [z]).head (by simp) := by
  cases l with
  | nil => exact h.1
  | cons b l => exact h.1

theorem Linked.last (h : Linked next prev a l z) : prev z = l.getLastD a ∧ next (l.getLastD a) = z := by
  induction l generalizing a with
  | nil => exact ⟨h.2, h.1⟩
  | cons b l ih =>
    rw [List.getLastD_cons]
    exact ih h.2.2

/-- The end of a path of links led elsewhere. -/
theorem Linked.retarget [DecidableEq α] (h : Linked next prev a l x) (hnd : (a :: l).Nodup) (hz : z ∉ l) :
    Linked (Function.update next (prev x) z) (Function.update prev z (prev x)) a l z := by
  induction l generalizing a with
  | nil =>
    obtain ⟨-, rfl⟩ := h
    exact ⟨by simp, by simp⟩
  | cons b l ih =>
    obtain ⟨ha, hb, hl⟩ := h
    have hlast := hl.last.1
    have hmem : prev x ∈ b :: l := by
      rw [hlast]
      cases l with
      | nil => simp
      | cons c l => simp [List.getLastD_eq_getLast?, List.getLast?_eq_getLast_of_ne_nil]
    have hne : a ≠ prev x := by
      rintro heq
      exact (List.nodup_cons.mp hnd).1 (heq ▸ hmem)
    have hbz : b ≠ z := by
      rintro rfl
      exact hz (by simp)
    exact ⟨by rw [Function.update_of_ne hne, ha], by rw [Function.update_of_ne hbz, hb],
      ih hl (List.nodup_cons.mp hnd).2 fun hm => hz (by simp [hm])⟩

/-- A ring can be told from any of its nodes on. -/
theorem ring_comm : Ring next prev (l ++ l') ↔ Ring next prev (l' ++ l) := by
  cases l with
  | nil => simp
  | cons a l =>
    cases l' with
    | nil => simp
    | cons b l' => simp only [List.cons_append, Ring, linked_append, and_comm]

theorem Ring.congr (h : Ring next prev l) (hn : ∀ y ∈ l, next' y = next y) (hp : ∀ y ∈ l, prev' y = prev y) : Ring next' prev' l := by
  cases l with
  | nil => trivial
  | cons a l => exact Linked.congr h hn fun y hy => hp y (by simpa [or_comm] using hy)

/-- The node after another one. -/
theorem Ring.next_eq (h : Ring next prev (p ++ x :: s)) : next x = (s ++ p ++ [x]).head (by simp) := by
  have h' : Linked next prev x (s ++ p) x := by simpa [Ring] using ring_comm.mp h
  exact h'.next_eq

/-- A node is taken out of a ring that has others by two writes. -/
theorem Ring.unlink [DecidableEq α] (h : Ring next prev (p ++ x :: s)) (hnd : (p ++ x :: s).Nodup) (hne : s ++ p ≠ []) :
    Ring (Function.update next (prev x) (next x)) (Function.update prev (next x) (prev x)) (p ++ s) ∧ next x ∈ s ++ p ∧ prev x ∈ s ++ p := by
  have h' : Linked next prev x (s ++ p) x := by simpa [Ring] using ring_comm.mp h
  have hnd' : (x :: (s ++ p)).Nodup := by
    have hperm : (p ++ x :: s).Perm (x :: (s ++ p)) := List.perm_middle.trans (List.Perm.cons _ List.perm_append_comm)
    exact hperm.nodup_iff.mp hnd
  rw [ring_comm]
  cases hl : s ++ p with
  | nil => exact absurd hl hne
  | cons y l =>
    rw [hl] at h' hnd'
    obtain ⟨hy, -, hl'⟩ := h'
    obtain ⟨-, hyl⟩ := List.nodup_cons.mp hnd'
    have hlast := hl'.last.1
    refine ⟨?_, by simp [hy], ?_⟩
    · rw [hy]
      exact hl'.retarget hyl (List.nodup_cons.mp hyl).1
    · rw [hlast]
      cases l with
      | nil => simp
      | cons c l => simp [List.getLastD_eq_getLast?, List.getLast?_eq_getLast_of_ne_nil]

section
variable (h : Ring next prev l) (hx : x ∈ l)
include h hx

/-- Where a node leads to, it comes from. -/
theorem Ring.prev_next : prev (next x) = x := by
  obtain ⟨p, s, rfl⟩ := List.append_of_mem hx
  have h' : Linked next prev x (s ++ p) x := by simpa [Ring] using ring_comm.mp h
  cases hl : s ++ p with
  | nil =>
    rw [hl] at h'
    rw [h'.1, h'.2]
  | cons y l =>
    rw [hl] at h'
    rw [h'.1, h'.2.1]

theorem Ring.next_prev : next (prev x) = x := by
  obtain ⟨p, s, rfl⟩ := List.append_of_mem hx
  have h' : Linked next prev x (s ++ p) x := by simpa [Ring] using ring_comm.mp h
  rw [h'.last.1]
  exact h'.last.2

theorem Ring.prev_mem : prev x ∈ l := by
  obtain ⟨p, s, rfl⟩ := List.append_of_mem hx
  have h' : Linked next prev x (s ++ p) x := by simpa [Ring] using ring_comm.mp h
  have hlast : (s ++ p).getLastD x ∈ x :: (s ++ p) := List.getLastD_mem_cons
  have hperm : (x :: (s ++ p)).Perm (p ++ x :: s) := (List.Perm.cons x List.perm_append_comm).trans List.perm_middle.symm
  rw [h'.last.1]
  exact hperm.mem_iff.1 hlast

end

/-- A node is put between the last one of a ring and the first. -/
theorem Ring.insert_last [DecidableEq α] (h : Ring next prev (a :: l)) (hnd : (a :: l).Nodup) (hx : x ∉ a :: l) :
    Ring (Function.update (Function.update next x a) (prev a) x) (Function.update (Function.update prev x (prev a)) a x)
      (a :: (l ++ [x])) := by
  have hxa : x ≠ a := fun heq => hx (heq ▸ List.mem_cons_self)
  have hprev : x ≠ prev a := fun heq => hx (heq ▸ h.prev_mem List.mem_cons_self)
  have hpath : Linked (Function.update next (prev a) x) (Function.update prev x (prev a)) a l x :=
    Linked.retarget h hnd fun hl => hx (List.mem_cons_of_mem _ hl)
  refine linked_append.2 ⟨hpath.congr (fun y hy => ?_) fun y hy => ?_, ?_, ?_⟩
  · have hne : y ≠ x := fun heq => hx (heq ▸ hy)
    by_cases hyp : y = prev a
    · rw [hyp, Function.update_self, Function.update_self]
    · rw [Function.update_of_ne hyp, Function.update_of_ne hyp, Function.update_of_ne hne]
  · have hne : y ≠ a := by
      rintro rfl
      rcases List.mem_append.1 hy with hy | hy
      · exact (List.nodup_cons.1 hnd).1 hy
      · exact hxa (List.mem_singleton.1 hy).symm
    rw [Function.update_of_ne hne]
  · rw [Function.update_of_ne hprev, Function.update_self]
  · rw [Function.update_self]

/-- A node is put behind the first one of a ring. -/
theorem Ring.insert_first [DecidableEq α] (h : Ring next prev (a :: l)) (hnd : (a :: l).Nodup) (hx : x ∉ a :: l) :
    Ring (Function.update (Function.update next x (next a)) a x) (Function.update (Function.update prev x a) (next a) x) (a :: x :: l) := by
  have hback := h.prev_next List.mem_cons_self
  cases l with
  | nil =>
    have hself : next a = a := h.1
    have hself' : prev a = a := h.2
    have hlast := h.insert_last hnd hx
    rw [hself'] at hlast
    rwa [hself]
  | cons b l =>
    have hb : next a = b := h.1
    have h' : Ring next prev (b :: (l ++ [a])) := by simpa using ring_comm.mp (show Ring next prev ([a] ++ b :: l) from h)
    have hperm : (b :: (l ++ [a])).Perm (a :: b :: l) := by
      have hrot : (b :: l ++ [a]).Perm ([a] ++ b :: l) := List.perm_append_comm
      exact hrot
    have hlast := h'.insert_last (hperm.nodup_iff.2 hnd) fun hm => hx (hperm.mem_iff.1 hm)
    rw [hb] at hback ⊢
    rw [hback] at hlast
    have hcomm := ring_comm.mp (show Ring _ _ ((b :: l) ++ [a, x]) by simpa using hlast)
    simpa using hcomm

end PtrRing
