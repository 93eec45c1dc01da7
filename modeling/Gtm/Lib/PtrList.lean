import Mathlib

/-!
# Linked lists

Nodes linked by a table of next pointers, against the list of the nodes. `walk` is the loop that goes along a list with the node
before it at hand, and `link` the write that follows such a loop: the node before, or the root when there is none, is pointed
elsewhere.
-/

namespace PtrList

variable {α : Type*}

/-- From `r` on the pointers run through the nodes of the list, in order, and end there. -/
def IsList (next : α → Option α) : Option α → List α → Prop
  | r, [] => r = none
  | r, a :: l => r = some a ∧ IsList next (next a) l

/-- The loop along a list up to the first node that meets the condition: that node and the one before it. -/
def walk (next : α → Option α) (stop : α → Bool) : Nat → Option α → Option α → Option α × Option α
  | fuel + 1, prev, some a => if stop a then (prev, some a) else walk next stop fuel (some a) (next a)
  | _, prev, curr => (prev, curr)

/-- The pointers after the node before, or the root, is pointed elsewhere. -/
def link [DecidableEq α] (next : α → Option α) (prev r : Option α) : α → Option α :=
  match prev with
  | some p => Function.update next p r
  | none => next

/-- The root after the node before, or the root, is pointed elsewhere. -/
def linkRoot (root prev r : Option α) : Option α := if prev.isSome then root else r

section

variable {next next' : α → Option α} {r base : Option α} {a : α} {l l' : List α}

@[simp] theorem isList_nil : IsList next r [] ↔ r = none := Iff.rfl

theorem IsList.eq_head? (h : IsList next r l) : r = l.head? := by
  cases l with
  | nil => exact h
  | cons a l => exact h.1

/-- A root has one list of nodes behind it. -/
theorem IsList.unique (h : IsList next r l) (h' : IsList next r l') : l = l' := by
  induction l generalizing r l' with
  | nil =>
    cases l' with
    | nil => rfl
    | cons b l' =>
      have hr : r = none := h
      rw [hr] at h'
      exact absurd h'.1 (by simp)
  | cons a l ih =>
    obtain ⟨ha, hl⟩ := h
    cases l' with
    | nil =>
      have hr : r = none := h'
      rw [hr] at ha
      exact absurd ha (by simp)
    | cons b l' =>
      obtain ⟨hb, hl'⟩ := h'
      have hab : a = b := Option.some.inj (ha.symm.trans hb)
      subst hab
      rw [ih hl hl']

/-- A list reads the pointers of its own nodes only. -/
theorem IsList.congr (h : IsList next r l) (hn : ∀ x ∈ l, next' x = next x) : IsList next' r l := by
  induction l generalizing r with
  | nil => exact h
  | cons a l ih =>
    refine ⟨h.1, ?_⟩
    rw [hn a (by simp)]
    exact ih h.2 fun x hx => hn x (by simp [hx])

theorem IsList.append_right (h : IsList next r (l ++ l')) : IsList next (l.getLast?.elim r next) l' := by
  induction l generalizing r with
  | nil => exact h
  | cons a l ih =>
    have := ih h.2
    cases l with
    | nil => exact this
    | cons b l =>
      rwa [List.getLast?_eq_getLast_of_ne_nil (by simp)] at this ⊢

variable [DecidableEq α]

/-- A node outside the list can be written to. -/
theorem IsList.update (h : IsList next r l) {p : α} (hp : p ∉ l) (q : Option α) : IsList (Function.update next p q) r l := by
  apply h.congr
  intro x hx
  rw [Function.update_of_ne]
  rintro rfl
  exact hp hx

/-- A node put in front of a list. -/
theorem IsList.push (h : IsList next r l) {p : α} (hp : p ∉ l) : IsList (Function.update next p r) (some p) (p :: l) := by
  refine ⟨rfl, ?_⟩
  rw [Function.update_self]
  exact h.update hp r

theorem link_of_not_mem {p : α} (hp : p ∉ l) (q : Option α) : link next l.getLast? q p = next p := by
  cases h : l.getLast? with
  | none => rfl
  | some x =>
    refine Function.update_of_ne ?_ _ _
    rintro rfl
    exact hp (List.mem_of_getLast? h)

/-- The part of a list behind a node is exchanged for another list by one write. -/
theorem IsList.link (h : IsList next base (l ++ l')) (hnd : l.Nodup) {r : Option α} {m : List α} (hm : IsList next r m)
    (hlm : ∀ x ∈ l, x ∉ m) : IsList (link next l.getLast? r) (linkRoot base l.getLast? r) (l ++ m) := by
  induction l generalizing base with
  | nil => exact hm
  | cons a l ih =>
    obtain ⟨ha, hl⟩ := h
    obtain ⟨hal, hnd⟩ := List.nodup_cons.1 hnd
    cases l with
    | nil =>
      refine ⟨ha, ?_⟩
      have hr : PtrList.link next [a].getLast? r a = r := by simp [PtrList.link]
      rw [hr]
      exact hm.update (hlm a (by simp)) r
    | cons b l =>
      have hlast : (a :: b :: l).getLast? = (b :: l).getLast? := List.getLast?_cons_cons
      have := ih hl hnd fun x hx => hlm x (by simp [hx])
      obtain ⟨p, hp⟩ := Option.isSome_iff_exists.1 (show ((b :: l).getLast?).isSome by simp)
      rw [hlast]
      rw [hp] at this ⊢
      refine ⟨ha, ?_⟩
      have hpa : a ≠ p := by
        rintro rfl
        exact hal (List.mem_of_getLast? hp)
      have hnext : PtrList.link next (some p) r a = next a := Function.update_of_ne hpa _ _
      rw [hnext]
      exact this

end

section Walk

variable {next : α → Option α} {r : Option α} {l : List α} (stop : α → Bool)

/-- The loop splits the list at the first node that meets the condition, or at the end. -/
theorem walk_split (h : IsList next r l) {fuel : Nat} (hf : l.length ≤ fuel) (prev : Option α) :
    ∃ pre post, l = pre ++ post ∧ (∀ x ∈ pre, stop x = false) ∧ (∀ x ∈ post.head?, stop x = true) ∧
      walk next stop fuel prev r = (pre.getLast?.or prev, post.head?) := by
  induction l generalizing r fuel prev with
  | nil =>
    have hr : r = none := h
    subst hr
    refine ⟨[], [], rfl, by simp, by simp, ?_⟩
    cases fuel <;> rfl
  | cons a l ih =>
    obtain ⟨rfl, hl⟩ := h
    cases fuel with
    | zero => simp at hf
    | succ fuel =>
      rw [walk]
      by_cases ha : stop a = true
      · refine ⟨[], a :: l, rfl, by simp, by simpa using ha, ?_⟩
        rw [if_pos ha]
        rfl
      · obtain ⟨pre, post, hl', hpre, hpost, hw⟩ := ih hl (by simpa using hf) (some a)
        refine ⟨a :: pre, post, by rw [hl', List.cons_append], ?_, hpost, ?_⟩
        · intro x hx
          rcases List.mem_cons.1 hx with rfl | hx
          · simpa using ha
          · exact hpre x hx
        · rw [if_neg ha, hw, List.getLast?_cons]
          cases pre.getLast? <;> rfl

end Walk

end PtrList
