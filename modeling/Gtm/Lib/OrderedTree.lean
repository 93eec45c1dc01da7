import Mathlib

/-!
# Neighbours in ordered trees

A tree is given by its root and the children of each node, in order. A node is told by the way to it: its ancestors, nearest first,
each with the number of the child that comes next. The nodes of one depth stand in the order of these ways, and a neighbour of a
node is found by going up to the first ancestor with another child on that side, and down along the outermost children from there.
-/

namespace OrderedTree

variable {α β : Type*}

/-! ### Neighbours in a list -/

/-- In a list without repetitions an element has one successor. -/
theorem succ_unique {l : List β} (h : l.Nodup) {a b c : β} (hb : [a, b] <:+: l) (hc : [a, c] <:+: l) : b = c := by
  obtain ⟨u, v, rfl⟩ := hb
  obtain ⟨u', v', heq⟩ := hc
  rw [← heq] at h
  simp only [List.append_assoc, List.cons_append, List.nil_append] at h heq
  rw [List.nodup_append, List.nodup_cons] at h
  have hu' : a ∉ u' := fun ha => h.2.2 a ha a (by simp) rfl
  exact (List.cons.inj ((List.append_cons_inj_of_notMem hu' h.2.1.1).1 heq).2.2).1.symm

/-- In a list without repetitions an element has one predecessor. -/
theorem pred_unique {l : List β} (h : l.Nodup) {a b c : β} (hb : [b, a] <:+: l) (hc : [c, a] <:+: l) : b = c := by
  have hrev : ∀ {x : β}, [x, a] <:+: l → [a, x] <:+: l.reverse := by
    intro x hx
    simpa using List.reverse_infix.2 hx
  exact succ_unique (List.nodup_reverse.2 h) (hrev hb) (hrev hc)

/-- The last element has no successor. -/
theorem not_succ_of_getLast? {l : List β} (h : l.Nodup) {a : β} (ha : l.getLast? = some a) (b : β) : ¬[a, b] <:+: l := by
  rintro ⟨u, v, rfl⟩
  rw [List.append_assoc, List.nodup_append] at h
  have hlast : a ∈ b :: v := by
    rw [List.append_assoc, List.getLast?_append_of_ne_nil _ (by simp)] at ha
    exact List.mem_of_getLast? ha
  have hnd := h.2.1
  rw [List.cons_append, List.cons_append, List.nodup_cons] at hnd
  exact hnd.1 hlast

/-- The first element has no predecessor. -/
theorem not_pred_of_head? {l : List β} (h : l.Nodup) {a : β} (ha : l.head? = some a) (b : β) : ¬[b, a] <:+: l := by
  intro hb
  have hlast : l.reverse.getLast? = some a := by rw [List.getLast?_reverse, ha]
  refine not_succ_of_getLast? (List.nodup_reverse.2 h) hlast b ?_
  simpa using List.reverse_infix.2 hb

theorem infix_flatMap {l : List α} {f : α → List β} {w : α} {m : List β} (hw : w ∈ l) (hm : m <:+: f w) : m <:+: l.flatMap f := by
  obtain ⟨u, v, rfl⟩ := List.append_of_mem hw
  obtain ⟨p, q, hpq⟩ := hm
  refine ⟨u.flatMap f ++ p, q ++ v.flatMap f, ?_⟩
  simp [List.flatMap_append, List.flatMap_cons, ← hpq]

/-- The last element of one part, and the first one of the next. -/
theorem across_flatMap {l : List α} {f : α → List β} {w w' : α} {a b : β} (hw : [w, w'] <:+: l) (ha : (f w).getLast? = some a)
    (hb : (f w').head? = some b) : [a, b] <:+: l.flatMap f := by
  obtain ⟨u, v, rfl⟩ := hw
  obtain ⟨p, hp⟩ := List.getLast?_eq_some_iff.1 ha
  obtain ⟨q, hq⟩ := List.head?_eq_some_iff.1 hb
  refine ⟨u.flatMap f ++ p, q ++ v.flatMap f, ?_⟩
  simp [List.flatMap_append, List.flatMap_cons, hp, hq]

theorem getLast?_flatMap {l : List α} {f : α → List β} {w : α} {a : β} (hw : l.getLast? = some w) (ha : (f w).getLast? = some a) :
    (l.flatMap f).getLast? = some a := by
  obtain ⟨u, rfl⟩ := List.getLast?_eq_some_iff.1 hw
  rw [List.flatMap_append, List.flatMap_cons, List.flatMap_nil, List.append_nil, List.getLast?_append, ha, Option.some_or]

theorem head?_flatMap {l : List α} {f : α → List β} {w : α} {a : β} (hw : l.head? = some w) (ha : (f w).head? = some a) :
    (l.flatMap f).head? = some a := by
  obtain ⟨u, rfl⟩ := List.head?_eq_some_iff.1 hw
  rw [List.flatMap_cons, List.head?_append, ha, Option.some_or]

/-! ### The nodes of one depth -/

/-- A node, and its ancestors with the numbers of the children on the way. -/
abbrev Walk (α : Type*) := α × List (α × Nat)

variable (kids : α → List α)

/-- The children of a node. -/
def expand (w : Walk α) : List (Walk α) := (kids w.1).mapIdx fun i c => (c, (w.1, i) :: w.2)

/-- The nodes of one depth, in order. -/
def layer (root : α) : Nat → List (Walk α)
  | 0 => [(root, [])]
  | k + 1 => (layer root k).flatMap (expand kids)

variable {kids} {root : α} {k i : Nat} {x c : α} {anc : List (α × Nat)}

theorem expand_eq (w : Walk α) (i : Nat) : (expand kids w)[i]? = (kids w.1)[i]?.map fun c => (c, (w.1, i) :: w.2) := by
  simp [expand]

theorem mem_expand {w v : Walk α} : v ∈ expand kids w ↔ ∃ i c, (kids w.1)[i]? = some c ∧ v = (c, (w.1, i) :: w.2) := by
  rw [List.mem_iff_getElem?]
  constructor
  · rintro ⟨i, hi⟩
    rw [expand_eq] at hi
    obtain ⟨c, hc, rfl⟩ := Option.map_eq_some_iff.1 hi
    exact ⟨i, c, hc, rfl⟩
  · rintro ⟨i, c, hc, rfl⟩
    exact ⟨i, by rw [expand_eq, hc]; rfl⟩

theorem mem_layer_succ {v : Walk α} : v ∈ layer kids root (k + 1) ↔
    ∃ x anc i c, (x, anc) ∈ layer kids root k ∧ (kids x)[i]? = some c ∧ v = (c, (x, i) :: anc) := by
  rw [layer, List.mem_flatMap]
  constructor
  · rintro ⟨⟨x, anc⟩, hw, hv⟩
    obtain ⟨i, c, hc, rfl⟩ := mem_expand.1 hv
    exact ⟨x, anc, i, c, hw, hc, rfl⟩
  · rintro ⟨x, anc, i, c, hw, hc, rfl⟩
    exact ⟨(x, anc), hw, mem_expand.2 ⟨i, c, hc, rfl⟩⟩

theorem nodup_expand (w : Walk α) : (expand kids w).Nodup := by
  rw [List.nodup_iff_getElem?_ne_getElem?]
  intro i j hij hj heq
  rw [List.getElem?_eq_getElem (by omega), List.getElem?_eq_getElem hj, Option.some_inj] at heq
  simp only [expand, List.getElem_mapIdx, Prod.mk.injEq, List.cons.injEq] at heq
  omega

/-- A way leads to one node. -/
theorem nodup_layer (root : α) (k : Nat) : (layer kids root k).Nodup := by
  induction k with
  | zero => simp [layer]
  | succ k ih =>
    rw [layer, List.nodup_flatMap]
    refine ⟨fun w _ => nodup_expand w, ih.imp ?_⟩
    intro w w' hne v hv hv'
    obtain ⟨i, c, -, rfl⟩ := mem_expand.1 hv
    obtain ⟨j, d, -, heq⟩ := mem_expand.1 hv'
    simp only [Prod.mk.injEq, List.cons.injEq] at heq
    exact hne (Prod.ext heq.2.1.1 heq.2.2)

theorem expand_succ {d : α} (hc : (kids x)[i]? = some c) (hd : (kids x)[i + 1]? = some d) :
    [(c, (x, i) :: anc), (d, (x, i + 1) :: anc)] <:+: expand kids (x, anc) := by
  have hlt : i + 1 < (expand kids (x, anc)).length := by
    rw [expand, List.length_mapIdx]
    exact (List.getElem?_eq_some_iff.1 hd).1
  refine ⟨(expand kids (x, anc)).take i, (expand kids (x, anc)).drop (i + 2), ?_⟩
  have hi := List.getElem?_eq_getElem (Nat.lt_of_succ_lt hlt)
  have hi' := List.getElem?_eq_getElem hlt
  rw [expand_eq, hc, Option.map_some, Option.some_inj] at hi
  rw [expand_eq, hd, Option.map_some, Option.some_inj] at hi'
  rw [hi, hi']
  simp only [List.append_assoc, List.cons_append, List.nil_append]
  rw [← List.drop_eq_getElem_cons hlt, ← List.drop_eq_getElem_cons (Nat.lt_of_succ_lt hlt), List.take_append_drop]

theorem expand_head (hc : (kids x).head? = some c) : (expand kids (x, anc)).head? = some (c, (x, 0) :: anc) := by
  rw [List.head?_eq_getElem?, expand_eq, ← List.head?_eq_getElem?, hc]
  rfl

theorem expand_last (hc : (kids x).getLast? = some c) : (expand kids (x, anc)).getLast? = some (c, (x, (kids x).length - 1) :: anc) := by
  have hlen : (expand kids (x, anc)).length = (kids x).length := List.length_mapIdx
  rw [List.getLast?_eq_getElem?, hlen, expand_eq, ← List.getLast?_eq_getElem?, hc]
  rfl

/-! ### Up and down -/

variable (kids)

/-- The first child of a node, and its number. -/
def firstKid (x : α) : Option (α × Nat) := (kids x).head?.map fun d => (d, 0)

/-- The last child of a node, and its number. -/
def lastKid (x : α) : Option (α × Nat) := (kids x).getLast?.map fun d => (d, (kids x).length - 1)

variable {kids}

/-- One level down, to the child of a choice. -/
def step (pick : α → Option (α × Nat)) (w : Walk α) : Option (Walk α) := (pick w.1).map fun c => (c.1, (w.1, c.2) :: w.2)

/-- Some levels down. -/
def descend (pick : α → Option (α × Nat)) : Nat → Walk α → Option (Walk α)
  | 0, w => some w
  | n + 1, w => (step pick w).bind (descend pick n)

theorem descend_succ (pick : α → Option (α × Nat)) (n : Nat) (w : Walk α) : descend pick (n + 1) w = (descend pick n w).bind (step pick) := by
  induction n generalizing w with
  | zero => cases h : step pick w <;> simp [descend, h]
  | succ n ih =>
    rw [descend, descend]
    cases step pick w with
    | none => rfl
    | some v => exact ih v

variable (kids)

/-- The node behind, by way of the ancestors. -/
def right : List (α × Nat) → Option (Walk α)
  | [] => none
  | (p, i) :: anc =>
    match (kids p)[i + 1]? with
    | some d => some (d, (p, i + 1) :: anc)
    | none => (right anc).bind (step (firstKid kids))

/-- The node before, by way of the ancestors. -/
def left : List (α × Nat) → Option (Walk α)
  | [] => none
  | (_, 0) :: anc => (left anc).bind (step (lastKid kids))
  | (p, i + 1) :: anc => (kids p)[i]?.map fun d => (d, (p, i) :: anc)

variable {kids}

/-- Up past the ancestors that have no further child, and down again. -/
theorem right_climb {p d : α} {ups rest : List (α × Nat)} (hups : ∀ a ∈ ups, (kids a.1)[a.2 + 1]? = none) (hd : (kids p)[i + 1]? = some d) :
    right kids (ups ++ (p, i) :: rest) = descend (firstKid kids) ups.length (d, (p, i + 1) :: rest) := by
  induction ups with
  | nil => simp only [List.nil_append, right, hd, List.length_nil, descend]
  | cons a ups ih =>
    rw [List.cons_append, right, hups a (by simp), List.length_cons, descend_succ, ← ih fun b hb => hups b (by simp [hb])]

theorem right_none {anc : List (α × Nat)} (hanc : ∀ a ∈ anc, (kids a.1)[a.2 + 1]? = none) : right kids anc = none := by
  induction anc with
  | nil => rfl
  | cons a anc ih =>
    rw [right, hanc a (by simp), ih fun b hb => hanc b (by simp [hb])]
    rfl

/-- Up past the ancestors that have no child before, and down again. -/
theorem left_climb {p d : α} {ups rest : List (α × Nat)} (hups : ∀ a ∈ ups, a.2 = 0) (hd : (kids p)[i]? = some d) :
    left kids (ups ++ (p, i + 1) :: rest) = descend (lastKid kids) ups.length (d, (p, i) :: rest) := by
  induction ups with
  | nil => simp only [List.nil_append, left, hd, Option.map_some, List.length_nil, descend]
  | cons a ups ih =>
    obtain ⟨x, j⟩ := a
    obtain rfl : j = 0 := hups (x, j) (by simp)
    rw [List.cons_append, left, List.length_cons, descend_succ, ← ih fun b hb => hups b (by simp [hb])]

theorem left_none {anc : List (α × Nat)} (hanc : ∀ a ∈ anc, a.2 = 0) : left kids anc = none := by
  induction anc with
  | nil => rfl
  | cons a anc ih =>
    obtain ⟨x, j⟩ := a
    obtain rfl : j = 0 := hanc (x, j) (by simp)
    rw [left, ih fun b hb => hanc b (by simp [hb])]
    rfl

/-- The way behind leads to the successor, and there is none only behind the last node. -/
theorem right_spec (hne : ∀ j < k, ∀ w ∈ layer kids root j, kids w.1 ≠ []) {w : Walk α} (hw : w ∈ layer kids root k) :
    (∀ v, right kids w.2 = some v → [w, v] <:+: layer kids root k) ∧ (right kids w.2 = none → (layer kids root k).getLast? = some w) := by
  induction k generalizing w with
  | zero =>
    obtain rfl : w = (root, []) := by simpa [layer] using hw
    exact ⟨nofun, fun _ => rfl⟩
  | succ k ih =>
    obtain ⟨x, anc, i, c, hx, hc, rfl⟩ := mem_layer_succ.1 hw
    obtain ⟨hsome, hnone⟩ := ih (fun j hj => hne j (by omega)) hx
    rw [right]
    cases hd : (kids x)[i + 1]? with
    | some d =>
      refine ⟨?_, nofun⟩
      intro v hv
      obtain rfl := Option.some.inj hv
      exact infix_flatMap hx (expand_succ hc hd)
    | none =>
      -- the child is the last one
      have hlast : (expand kids (x, anc)).getLast? = some (c, (x, i) :: anc) := by
        have hi := (List.getElem?_eq_some_iff.1 hc).1
        have hi' := List.getElem?_eq_none_iff.1 hd
        have hlen : (kids x).length - 1 = i := by omega
        rw [expand_last (c := c) (by rw [List.getLast?_eq_getElem?, hlen, hc]), hlen]
      cases hr : right kids anc with
      | none => exact ⟨nofun, fun _ => getLast?_flatMap (hnone hr) hlast⟩
      | some w =>
        have hmem : w ∈ layer kids root k := (hsome w hr).subset (by simp)
        obtain ⟨d, hd'⟩ := Option.ne_none_iff_exists'.1 (mt List.head?_eq_none_iff.1 (hne k (by omega) w hmem))
        simp only [Option.bind_some, step, firstKid, hd', Option.map_some]
        refine ⟨?_, nofun⟩
        intro v hv
        obtain rfl := Option.some.inj hv
        exact across_flatMap (hsome w hr) hlast (@expand_head _ _ w.1 _ w.2 hd')

/-- The way before leads to the predecessor, and there is none only before the first node. -/
theorem left_spec (hne : ∀ j < k, ∀ w ∈ layer kids root j, kids w.1 ≠ []) {w : Walk α} (hw : w ∈ layer kids root k) :
    (∀ v, left kids w.2 = some v → [v, w] <:+: layer kids root k) ∧ (left kids w.2 = none → (layer kids root k).head? = some w) := by
  induction k generalizing w with
  | zero =>
    obtain rfl : w = (root, []) := by simpa [layer] using hw
    exact ⟨nofun, fun _ => rfl⟩
  | succ k ih =>
    obtain ⟨x, anc, i, c, hx, hc, rfl⟩ := mem_layer_succ.1 hw
    obtain ⟨hsome, hnone⟩ := ih (fun j hj => hne j (by omega)) hx
    cases i with
    | succ i =>
      have hlt := (List.getElem?_eq_some_iff.1 hc).1
      have hd := List.getElem?_eq_getElem (Nat.lt_of_succ_lt hlt)
      rw [left, hd, Option.map_some]
      refine ⟨?_, nofun⟩
      intro v hv
      obtain rfl := Option.some.inj hv
      exact infix_flatMap hx (expand_succ hd hc)
    | zero =>
      have hfirst : (expand kids (x, anc)).head? = some (c, (x, 0) :: anc) := expand_head (by rw [List.head?_eq_getElem?, hc])
      rw [left]
      cases hr : left kids anc with
      | none => exact ⟨nofun, fun _ => head?_flatMap (hnone hr) hfirst⟩
      | some w =>
        have hmem : w ∈ layer kids root k := (hsome w hr).subset (by simp)
        obtain ⟨d, hd'⟩ := Option.ne_none_iff_exists'.1 (mt List.getLast?_eq_none_iff.1 (hne k (by omega) w hmem))
        simp only [Option.bind_some, step, lastKid, hd', Option.map_some]
        refine ⟨?_, nofun⟩
        intro v hv
        obtain rfl := Option.some.inj hv
        exact across_flatMap (hsome w hr) (@expand_last _ _ w.1 _ w.2 hd') hfirst

end OrderedTree
