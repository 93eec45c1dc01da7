import Mathlib

/-!
# Merging in runs

A merge of several sequences that takes from one of them a run of elements at a time.
-/

namespace RunMerge

variable {α : Type*} {qs : List (List α)} {out run rest : List α} {x : α} {i : Nat}

/-- A sequence made of the elements of several ones, of each in its order. -/
inductive Interleaving : List (List α) → List α → Prop
  | nil {qs : List (List α)} (h : ∀ q ∈ qs, q = []) : Interleaving qs []
  | cons {qs : List (List α)} {i : Nat} {x : α} {rest out : List α} (h : qs[i]? = some (x :: rest)) (t : Interleaving (qs.set i rest) out) :
      Interleaving qs (x :: out)

/-- A run taken from one sequence. -/
theorem Interleaving.append_run (h : qs[i]? = some (run ++ rest)) (t : Interleaving (qs.set i rest) out) : Interleaving qs (run ++ out) := by
  induction run generalizing qs with
  | nil =>
    obtain ⟨hi, heq⟩ := List.getElem?_eq_some_iff.1 h
    rw [List.nil_append] at heq
    rwa [← heq, List.set_getElem_self] at t
  | cons x run ih =>
    have hi := (List.getElem?_eq_some_iff.1 h).1
    refine .cons h (ih (List.getElem?_set_self hi) ?_)
    rwa [List.set_set]

theorem Interleaving.nil_cons (t : Interleaving qs out) : Interleaving ([] :: qs) out := by
  induction t with
  | nil h => exact .nil fun q hq => (List.mem_cons.1 hq).elim id (h q)
  | cons h _ ih => exact .cons (i := _ + 1) h ih

/-- One sequence after the other. -/
theorem interleaving_flatten (qs : List (List α)) : Interleaving qs qs.flatten := by
  induction qs with
  | nil => exact .nil fun q hq => nomatch hq
  | cons q qs ih => exact .append_run (i := 0) (by rw [List.append_nil, List.getElem?_cons_zero]) ih.nil_cons

theorem flatten_set_perm (h : qs[i]? = some (run ++ rest)) : qs.flatten.Perm (run ++ (qs.set i rest).flatten) := by
  induction qs generalizing i with
  | nil => simp at h
  | cons q qs ih =>
    cases i with
    | zero =>
      obtain rfl : q = run ++ rest := by simpa using h
      simp
    | succ i =>
      have hperm := (ih (by simpa using h)).append_left q
      rw [List.flatten_cons, List.set_cons_succ, List.flatten_cons]
      refine hperm.trans ?_
      rw [← List.append_assoc, ← List.append_assoc]
      exact List.perm_append_comm.append_right _

/-- The same elements. -/
theorem Interleaving.perm (t : Interleaving qs out) : qs.flatten.Perm out := by
  induction t with
  | nil h => rw [List.flatten_eq_nil_iff.2 h]
  | @cons qs i x rest out h _ ih => exact (flatten_set_perm (by rw [List.singleton_append]; exact h)).trans (ih.cons x)

theorem Interleaving.mem {y : α} (t : Interleaving qs out) : y ∈ out ↔ ∃ q ∈ qs, y ∈ q := by rw [← t.perm.mem_iff, List.mem_flatten]

/-- A run at the front of an ordered merge: it is ordered itself, before what is left of its sequence and before the heads of the others. -/
theorem Interleaving.pairwise_append {r : α → α → Prop} (htrans : ∀ a b c, r a b → r b c → r a c) (h : qs[i]? = some (run ++ rest))
    (hqs : ∀ q ∈ qs, q.Pairwise r) (hheads : ∀ j y q, j ≠ i → qs[j]? = some (y :: q) → ∀ x ∈ run, r x y)
    (t : Interleaving (qs.set i rest) out) (hout : out.Pairwise r) : (run ++ out).Pairwise r := by
  have hown := List.pairwise_append.1 (hqs _ (List.mem_of_getElem? h))
  refine List.pairwise_append.2 ⟨hown.1, hout, fun x hx y hy => ?_⟩
  obtain ⟨q, hq, hyq⟩ := t.mem.1 hy
  obtain ⟨j, hj⟩ := List.getElem?_of_mem hq
  by_cases hij : j = i
  · subst hij
    rw [List.getElem?_set_self (List.getElem?_eq_some_iff.1 h).1] at hj
    obtain rfl := Option.some.inj hj
    exact hown.2.2 x hx y hyq
  · rw [List.getElem?_set_ne (Ne.symm hij)] at hj
    cases q with
    | nil => cases hyq
    | cons z q =>
      have hz := hheads j z q hij hj x hx
      rcases List.mem_cons.1 hyq with rfl | hyq
      · exact hz
      · exact htrans _ _ _ hz (List.rel_of_pairwise_cons (hqs _ (List.mem_of_getElem? hj)) hyq)

end RunMerge
