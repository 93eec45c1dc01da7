import Mathlib

/-!
# Maps as sorted lists of entries

A finite map over ordered keys is the list of its entries in strictly ascending order of their keys: lookup, insertion, removal of a
set of keys, and the first entry at or after a key. Two such lists with the same entries are equal.
-/

namespace SortedMap

variable {K V : Type*} [LinearOrder K]

/-- The keys strictly ascend. -/
def Sorted (m : List (K × V)) : Prop := m.Pairwise fun a b => a.1 < b.1

/-- The value of a key. -/
def lookup (k : K) (m : List (K × V)) : Option V := (m.find? fun e => e.1 = k).map Prod.snd

/-- The map with one key set. -/
def insert (k : K) (v : V) : List (K × V) → List (K × V)
  | [] => [(k, v)]
  | e :: m => if k < e.1 then (k, v) :: e :: m else if k = e.1 then (k, v) :: m else e :: insert k v m

/-- The map without the keys of a set. -/
def remove (p : K → Bool) (m : List (K × V)) : List (K × V) := m.filter fun e => !p e.1

/-- The first entry from a key on. -/
def next (k : K) (m : List (K × V)) : Option (K × V) := m.find? fun e => k ≤ e.1

/-- The first entry behind a key. -/
def after (k : K) (m : List (K × V)) : Option (K × V) := m.find? fun e => k < e.1

variable {m m' : List (K × V)} {k : K} {v : V} {e : K × V}

theorem sorted_nil : Sorted ([] : List (K × V)) := List.Pairwise.nil

theorem sorted_cons : Sorted (e :: m) ↔ (∀ a ∈ m, e.1 < a.1) ∧ Sorted m := List.pairwise_cons

/-- A key has one value. -/
theorem Sorted.unique (h : Sorted m) {a b : K × V} (ha : a ∈ m) (hb : b ∈ m) (hk : a.1 = b.1) : a = b := by
  induction m with
  | nil => simp at ha
  | cons e m ih =>
    obtain ⟨he, hm⟩ := sorted_cons.1 h
    rcases List.mem_cons.1 ha with ha' | ha' <;> rcases List.mem_cons.1 hb with hb' | hb'
    · rw [ha', hb']
    · rw [ha'] at hk
      exact absurd hk (he b hb').ne
    · rw [hb'] at hk
      exact absurd hk (he a ha').ne'
    · exact ih hm ha' hb'

theorem lookup_eq_some_iff (h : Sorted m) : lookup k m = some v ↔ (k, v) ∈ m := by
  unfold lookup
  rw [Option.map_eq_some_iff]
  constructor
  · rintro ⟨a, ha, rfl⟩
    have hk : a.1 = k := by simpa using List.find?_some ha
    rw [← hk]
    exact List.mem_of_find?_eq_some ha
  · intro hm
    cases hf : m.find? fun e => e.1 = k with
    | none => simpa using List.find?_eq_none.1 hf (k, v) hm
    | some a =>
      have hk : a.1 = k := by simpa using List.find?_some hf
      exact ⟨a, rfl, by rw [h.unique (List.mem_of_find?_eq_some hf) hm hk]⟩

theorem lookup_eq_none_iff : lookup k m = none ↔ ∀ e ∈ m, e.1 ≠ k := by
  unfold lookup
  simp

theorem mem_insert (h : Sorted m) : e ∈ insert k v m ↔ e = (k, v) ∨ (e ∈ m ∧ e.1 ≠ k) := by
  induction m with
  | nil => simp [insert]
  | cons a m ih =>
    obtain ⟨ha, hm⟩ := sorted_cons.1 h
    rw [insert]
    split
    · rename_i hlt
      have hne : ∀ x ∈ a :: m, x.1 ≠ k := by
        intro x hx
        rcases List.mem_cons.1 hx with rfl | hx
        · exact hlt.ne'
        · exact (hlt.trans (ha x hx)).ne'
      rw [List.mem_cons]
      constructor
      · rintro (rfl | hx)
        · exact .inl rfl
        · exact .inr ⟨hx, hne e hx⟩
      · rintro (rfl | ⟨hx, -⟩)
        · exact .inl rfl
        · exact .inr hx
    · split
      · rename_i _ heq
        subst heq
        rw [List.mem_cons]
        constructor
        · rintro (rfl | hx)
          · exact .inl rfl
          · exact .inr ⟨List.mem_cons_of_mem _ hx, (ha e hx).ne'⟩
        · rintro (rfl | ⟨hx, hne⟩)
          · exact .inl rfl
          · rcases List.mem_cons.1 hx with rfl | hx
            · exact absurd rfl hne
            · exact .inr hx
      · rename_i hlt hne
        rw [List.mem_cons, ih hm, List.mem_cons]
        constructor
        · rintro (rfl | rfl | ⟨hx, hn⟩)
          · exact .inr ⟨.inl rfl, Ne.symm hne⟩
          · exact .inl rfl
          · exact .inr ⟨.inr hx, hn⟩
        · rintro (rfl | ⟨rfl | hx, hn⟩)
          · exact .inr (.inl rfl)
          · exact .inl rfl
          · exact .inr (.inr ⟨hx, hn⟩)

theorem Sorted.insert (h : Sorted m) (k : K) (v : V) : Sorted (insert k v m) := by
  induction m with
  | nil => simp [SortedMap.insert, Sorted]
  | cons a m ih =>
    obtain ⟨ha, hm⟩ := sorted_cons.1 h
    rw [SortedMap.insert]
    split
    · rename_i hlt
      refine sorted_cons.2 ⟨?_, h⟩
      intro x hx
      rcases List.mem_cons.1 hx with rfl | hx
      · exact hlt
      · exact hlt.trans (ha x hx)
    · split
      · rename_i _ heq
        subst heq
        exact sorted_cons.2 ⟨ha, hm⟩
      · rename_i hlt hne
        refine sorted_cons.2 ⟨?_, ih hm⟩
        intro x hx
        rcases (mem_insert hm).1 hx with rfl | ⟨hx, -⟩
        · exact lt_of_le_of_ne (not_lt.1 hlt) (Ne.symm hne)
        · exact ha x hx

omit [LinearOrder K] in
theorem mem_remove {p : K → Bool} : e ∈ remove p m ↔ e ∈ m ∧ p e.1 = false := by
  simp [remove]

theorem Sorted.remove (h : Sorted m) (p : K → Bool) : Sorted (remove p m) := h.filter _

/-- A search for an upward closed property finds the first entry that has it. -/
theorem find?_eq_some_iff_least (h : Sorted m) {p : K → Prop} [DecidablePred p] :
    (m.find? fun e => p e.1) = some e ↔ e ∈ m ∧ p e.1 ∧ ∀ a ∈ m, p a.1 → e.1 ≤ a.1 := by
  induction m with
  | nil => simp
  | cons b m ih =>
    obtain ⟨hb, hm⟩ := sorted_cons.1 h
    rw [List.find?_cons]
    by_cases hp : p b.1
    · simp only [hp, decide_true, Option.some.injEq]
      constructor
      · rintro rfl
        refine ⟨by simp, hp, ?_⟩
        intro a ha _
        rcases List.mem_cons.1 ha with rfl | ha
        · exact le_rfl
        · exact (hb a ha).le
      · rintro ⟨he, -, hleast⟩
        rcases List.mem_cons.1 he with rfl | he
        · rfl
        · exact absurd (hleast b (by simp) hp) (hb e he).not_ge
    · simp only [hp, decide_false, ih hm, List.mem_cons]
      constructor
      · rintro ⟨he, hpe, hleast⟩
        refine ⟨.inr he, hpe, ?_⟩
        rintro a (rfl | ha) hpa
        · exact absurd hpa hp
        · exact hleast a ha hpa
      · rintro ⟨rfl | he, hpe, hleast⟩
        · exact absurd hpe hp
        · exact ⟨he, hpe, fun a ha => hleast a (.inr ha)⟩

theorem next_eq_some_iff (h : Sorted m) : next k m = some e ↔ e ∈ m ∧ k ≤ e.1 ∧ ∀ a ∈ m, k ≤ a.1 → e.1 ≤ a.1 := find?_eq_some_iff_least h

theorem next_eq_none_iff : next k m = none ↔ ∀ a ∈ m, a.1 < k := by
  simp [next, List.find?_eq_none]

theorem after_eq_some_iff (h : Sorted m) : after k m = some e ↔ e ∈ m ∧ k < e.1 ∧ ∀ a ∈ m, k < a.1 → e.1 ≤ a.1 :=
  find?_eq_some_iff_least h

theorem after_eq_none_iff : after k m = none ↔ ∀ a ∈ m, a.1 ≤ k := by
  simp [after, List.find?_eq_none]

end SortedMap
