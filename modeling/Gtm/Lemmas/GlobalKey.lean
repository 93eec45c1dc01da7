import Gtm.Gvcst.Spanning
import Gtm.Lib.Terminated
import Gtm.Theorems.SubscriptOrder

/-!
# Keys as lists of subscripts

The key of a node is the name of the global and its subscripts, each closed by a delimiter; a hidden key has one more subscript,
which starts with a byte that no subscript starts with. The bytes of such keys compare as the lists do.
-/

namespace Gtm

open SortedMap LexOrder Terminated

/-- How many of the last bytes are one. -/
def trailingOnes (s : List UInt8) : ℕ := (s.reverse.takeWhile (· == 1)).length

/-- The bytes of a subscript: the byte of a standard null subscript starts no other one and that of a hidden subscript none; at the
end of a string it stands in pairs, an escape and the byte it escapes. -/
structure SubBytes (std : Bool) (s : List UInt8) : Prop where
  ne_nil : s ≠ []
  pos : ∀ x ∈ s, keyDelimiter < x
  head_ne : s.head? ≠ some 2
  null : s.head? = some 1 → s = [1] ∧ std = true
  ones : s = [1] ∨ Even (trailingOnes s)

/-- The name of a global and the subscripts of one of its nodes. -/
structure NodeSubs (std : Bool) (u : List (List UInt8)) : Prop where
  ne_nil : u ≠ []
  free : Free keyDelimiter u
  subs : ∀ s ∈ u.tail, SubBytes std s
  count : u.length ≤ maxGvsubscripts

/-- The bytes below `end` of the key of a list of subscripts. -/
def keyBase (u : List (List UInt8)) : List UInt8 := closed keyDelimiter u

/-- All the bytes of the key of a list of subscripts. -/
def keyBytes (u : List (List UInt8)) : List UInt8 := keyBase u ++ [keyDelimiter]

/-- `k` is the key of a list of subscripts, with `prev` at the last one. -/
structure GvKey.IsKeyOf (k : GvKey) (u : List (List UInt8)) : Prop where
  base_eq : k.base = keyBase u
  prev_eq : k.prev = (keyBase u.dropLast).length

@[simp] theorem keyBase_append (u w : List (List UInt8)) : keyBase (u ++ w) = keyBase u ++ keyBase w := by simp [keyBase]

@[simp] theorem keyBase_cons (s : List UInt8) (u : List (List UInt8)) : keyBase (s :: u) = s ++ keyDelimiter :: keyBase u := by
  simp [keyBase]

@[simp] theorem keyBase_nil : keyBase [] = [] := rfl

variable {u w : List (List UInt8)} {s r h p : List UInt8} {std : Bool} {k : GvKey}

section
variable (hu : Free keyDelimiter u) (hw : Free keyDelimiter w)
include hu hw

theorem keyBytes_lt_iff :
    keyBytes u < keyBytes w ↔ u < w := closed_lt_iff hu hw

theorem keyBytes_le_iff :
    keyBytes u ≤ keyBytes w ↔ u ≤ w := closed_le_iff hu hw

theorem keyBytes_inj :
    keyBytes u = keyBytes w ↔ u = w := ⟨closed_inj hu hw, congrArg keyBytes⟩

theorem keyBase_prefix_iff :
    keyBase u <+: keyBytes w ↔ u <+: w := closed_prefix_iff hu hw

end

/-! ### Lists of subscripts -/

theorem SubBytes.free (h : SubBytes std s) : Free keyDelimiter [s] := by
  intro r hr
  rw [List.mem_singleton.1 hr]
  exact ⟨h.ne_nil, h.pos⟩

/-- A subscript behind the name of a node's list is one of its subscripts. -/
theorem NodeSubs.sub_of_append (hu : u ≠ []) (h : NodeSubs std (u ++ r :: w)) : SubBytes std r := by
  refine h.subs r ?_
  cases u with
  | nil => exact absurd rfl hu
  | cons a u => simp

/-- No subscript of a node lies between two hidden ones. -/
theorem SubBytes.not_between (h : SubBytes std r) {a b : List UInt8} (h1 : 2 :: a ≤ r) (h2 : r ≤ 2 :: b) : False := by
  have := prefix_of_between (p := [2]) a b h1 h2
  obtain ⟨z, rfl⟩ := this
  exact h.head_ne rfl

/-- A subscript below the hidden ones is the standard null. -/
theorem SubBytes.null_of_lt (h : SubBytes std r) {a : List UInt8} (hlt : r < 2 :: a) : r = [1] ∧ std = true := by
  refine h.null ?_
  cases r with
  | nil => exact absurd rfl h.ne_nil
  | cons x r =>
    have hpos := h.pos x (by simp)
    have hne : x ≠ 2 := fun h2 => h.head_ne (by simp [h2])
    rw [List.cons_lt_cons_iff] at hlt
    rcases hlt with hlt | ⟨rfl, -⟩
    · simp only [UInt8.lt_iff_toNat_lt, keyDelimiter] at hpos hlt
      rw [List.head?_cons, Option.some.injEq, ← UInt8.toNat_inj]
      simp at hpos hlt ⊢
      omega
    · exact absurd rfl hne

/-- A list between a list and the same list with one more subscript. -/
theorem exists_of_between (h1 : u < w) (h2 : w ≤ u ++ [h]) : ∃ r rest, w = u ++ r :: rest ∧ r ≤ h := by
  have hp : u <+: w := prefix_of_between (p := u) [] [h] (by simpa using h1.le) h2
  obtain ⟨z, rfl⟩ := hp
  rw [append_left_le_iff] at h2
  cases z with
  | nil => simp at h1
  | cons r rest =>
    refine ⟨r, rest, rfl, ?_⟩
    rw [cons_le_cons_iff] at h2
    rcases h2 with h2 | ⟨rfl, -⟩
    · exact h2.le
    · exact le_rfl

/-- A list between two that differ in one more subscript. -/
theorem exists_of_range {a b : List UInt8} (h1 : u ++ [a] ≤ w) (h2 : w < u ++ [b]) : ∃ r rest, w = u ++ r :: rest ∧ a ≤ r ∧ r < b := by
  have hp : u <+: w := prefix_of_between (p := u) [a] [b] h1 h2.le
  obtain ⟨z, rfl⟩ := hp
  rw [append_left_le_iff] at h1
  rw [append_left_lt_iff] at h2
  cases z with
  | nil => exact absurd h1 (not_le.2 (List.nil_lt_cons _ _))
  | cons r rest =>
    refine ⟨r, rest, rfl, ?_, ?_⟩
    · rw [cons_le_cons_iff] at h1
      rcases h1 with h1 | ⟨rfl, -⟩
      · exact h1.le
      · exact le_rfl
    · rw [List.cons_lt_cons_iff] at h2
      rcases h2 with h2 | ⟨rfl, h2⟩
      · exact h2
      · exact absurd h2 (List.not_lt_nil _)

/-! ### Hidden subscripts -/

/-- A hidden subscript that is in use. -/
structure HiddenSub (h : List UInt8) : Prop where
  shape : ∃ a b, h = [2, a, b] ∧ 0 < a ∧ 0 < b
  lt_highest : h < [2, 0xFF, 0xFF]

theorem HiddenSub.free (hh : HiddenSub h) : Free keyDelimiter [h] := by
  obtain ⟨a, b, rfl, ha, hb⟩ := hh.shape
  intro r hr
  rw [List.mem_singleton.1 hr]
  refine ⟨by simp, ?_⟩
  intro x hx
  simp only [List.mem_cons, List.not_mem_nil, or_false] at hx
  rcases hx with rfl | rfl | rfl
  · decide
  · exact ha
  · exact hb

theorem one_le_of_pos {a : UInt8} (h : 0 < a) : 1 ≤ a := by
  exact h

theorem HiddenSub.lowest_le (hh : HiddenSub h) : [2, 1, 1] ≤ h := by
  obtain ⟨a, b, rfl, ha, hb⟩ := hh.shape
  have ha := one_le_of_pos ha
  have hb := one_le_of_pos hb
  rw [cons_le_cons_iff, cons_le_cons_iff, cons_le_cons_iff]
  rcases ha.lt_or_eq with ha | ha
  · exact .inr ⟨rfl, .inl ha⟩
  · rcases hb.lt_or_eq with hb | hb
    · exact .inr ⟨rfl, .inr ⟨ha, .inl hb⟩⟩
    · exact .inr ⟨rfl, .inr ⟨ha, .inr ⟨hb, le_rfl⟩⟩⟩

theorem HiddenSub.cons (hh : HiddenSub h) : ∃ z, h = 2 :: z := by
  obtain ⟨a, b, rfl, -, -⟩ := hh.shape
  exact ⟨[a, b], rfl⟩

/-- A hidden subscript is no subscript of a node. -/
theorem HiddenSub.not_subBytes (hh : HiddenSub h) (hs : SubBytes std h) : False := by
  obtain ⟨z, rfl⟩ := hh.cons
  exact hs.head_ne rfl

/-- A node that has a hidden key, or a part of one, for its beginning has the beginning without the hidden subscript. -/
theorem NodeSubs.prefix_of_hidden (hw : NodeSubs std w) (hu : u ≠ []) (hh : HiddenSub h) (hp : w <+: u ++ [h]) : w <+: u := by
  rcases List.prefix_concat_iff.1 hp with rfl | hp
  · exact absurd (NodeSubs.sub_of_append hu hw) fun hs => hh.not_subBytes hs
  · exact hp

/-- A hidden key is not the key of a node. -/
theorem NodeSubs.ne_hidden (hw : NodeSubs std w) (hu : u ≠ []) (hh : HiddenSub h) : w ≠ u ++ [h] := by
  rintro rfl
  exact hh.not_subBytes (NodeSubs.sub_of_append hu hw)

theorem NodeSubs.hidden_free (hu : NodeSubs std u) (hh : HiddenSub h) :
    Free keyDelimiter (u ++ [h]) := hu.free.append hh.free

/-! ### Ranges of keys -/

/-- Nothing lies between a list and the list with the least subscript appended. -/
theorem eq_of_node_range (hw : Free keyDelimiter w) (h1 : u ≤ w) (h2 : w < u ++ [[1]]) : w = u := by
  rcases h1.lt_or_eq with h1 | h1
  · obtain ⟨r, rest, rfl, -⟩ := exists_of_between h1 h2.le
    obtain ⟨hne, hpos⟩ := hw r (by simp)
    cases r with
    | nil => exact absurd rfl hne
    | cons x r =>
      have hx := one_le_of_pos (hpos x (by simp))
      rw [append_left_lt_iff, List.cons_lt_cons_iff, List.cons_lt_cons_iff] at h2
      rcases h2 with (h2 | ⟨-, h2⟩) | ⟨-, h2⟩
      · exact absurd h2 (not_lt.2 hx)
      · exact absurd h2 (List.not_lt_nil _)
      · exact absurd h2 (List.not_lt_nil _)
  · exact h1.symm

theorem lt_append_cons (u : List (List UInt8)) (r : List UInt8) (c : List (List UInt8)) : u < u ++ r :: c := by
  have : u ++ [] < u ++ r :: c := (append_left_lt_iff u [] (r :: c)).2 (List.nil_lt_cons _ _)
  simpa using this

/-- A list strictly behind another one it begins with is at or behind the one with the least subscript appended. -/
theorem append_one_le (hw : Free keyDelimiter w) (h : u < w) : u ++ [[1]] ≤ w := by
  rw [← not_lt]
  intro hlt
  exact h.ne (eq_of_node_range hw h.le hlt).symm

/-- The lists a subtree kill reaches are those with the beginning. -/
theorem subtree_range_iff {q : List (List UInt8)} (hw : Free keyDelimiter w) : (q ++ [s] ≤ w ∧ w < q ++ [s ++ [1]]) ↔ q ++ [s] <+: w := by
  constructor
  · rintro ⟨h1, h2⟩
    obtain ⟨r, rest, rfl, hr1, hr2⟩ := exists_of_range h1 h2
    obtain ⟨z, rfl⟩ := prefix_of_between (p := s) [] [1] (by simpa using hr1) hr2.le
    rw [append_left_lt_iff] at hr2
    cases z with
    | nil => exact ⟨rest, by simp⟩
    | cons x z =>
      -- a byte behind `s` is at least one
      have hx := one_le_of_pos ((hw (s ++ x :: z) (by simp)).2 x (by simp))
      rw [List.cons_lt_cons_iff] at hr2
      rcases hr2 with hr2 | ⟨-, hr2⟩
      · exact absurd hr2 (not_lt.2 hx)
      · exact absurd hr2 (List.not_lt_nil _)
  · rintro ⟨rest, rfl⟩
    have hs : s < s ++ [1] := by
      have : s ++ [] < s ++ [1] := (append_left_lt_iff s [] [1]).2 (List.nil_lt_cons _ _)
      simpa using this
    constructor
    · have h0 : ([] : List (List UInt8)) ≤ rest := not_lt.1 (List.not_lt_nil _)
      have : (q ++ [s]) ++ [] ≤ (q ++ [s]) ++ rest := (append_left_le_iff _ _ _).2 h0
      simpa using this
    · rw [List.append_assoc, append_left_lt_iff, List.singleton_append, List.cons_lt_cons_iff]
      exact .inl hs

theorem killAltkey_subtree {q : List (List UInt8)} (hk : k.base = keyBase (q ++ [s])) (b : Bool) :
    killAltkey k true b = keyBytes (q ++ [s ++ [1]]) := by
  have hb : k.base = (keyBase q ++ s) ++ [keyDelimiter] := by simp [hk]
  have htake : k.base.take (k.kend - 1) = keyBase q ++ s := by
    rw [GvKey.kend, hb]
    exact List.take_left' (by simp)
  simp [killAltkey, htake, keyBytes]

theorem killAltkey_node (hk : k.base = keyBase u) : killAltkey k false false = keyBytes (u ++ [[1]]) := by
  simp [killAltkey, hk, keyBytes]

theorem killAltkey_chunks {a b : UInt8} (hk : k.base = keyBase (u ++ [[2, a, b]])) :
    killAltkey k false true = keyBytes (u ++ [[2, 0xFF, 0xFF]]) := by
  have hb : k.base = (keyBase u ++ [2]) ++ [a, b, keyDelimiter] := by simp [hk]
  have htake : k.base.take (k.kend - 3) = keyBase u ++ [2] := by
    rw [GvKey.kend, hb]
    exact List.take_left' (by simp)
  simp [killAltkey, htake, keyBytes]

/-! ### Common beginnings -/

/-- A beginning of the first key is one of the second as far as they match. -/
theorem le_matchLen_iff {x y : List UInt8} (hp : p <+: x) : p.length ≤ matchLen x y ↔ p <+: y := by
  induction p generalizing x y with
  | nil => simp
  | cons a p ih =>
    obtain ⟨z, rfl⟩ := hp
    cases y with
    | nil => simp [matchLen]
    | cons b y =>
      rw [List.cons_append, matchLen, List.length_cons]
      split
      · rename_i hab
        rw [Nat.add_le_add_iff_right, ih (List.prefix_append p z)]
        simp [hab]
      · rename_i hab
        simp [hab]

theorem matchLen_comm (x y : List UInt8) : matchLen x y = matchLen y x := by
  induction x generalizing y with
  | nil => cases y <;> rfl
  | cons a x ih =>
    cases y with
    | nil => rfl
    | cons b y => simp only [matchLen, ih y, eq_comm]

/-- Two different subscripts match at most as long as one of them is. -/
theorem matchLen_le {t z z' : List UInt8} (hr : keyDelimiter ∉ r) (ht : keyDelimiter ∉ t) (hne : r ≠ t) :
    matchLen (p ++ t ++ keyDelimiter :: z) (p ++ r ++ keyDelimiter :: z') ≤ p.length + r.length := by
  rw [← not_lt, ← Nat.succ_le_iff]
  intro h
  -- otherwise the key agrees with all of `p ++ r` and the delimiter behind it
  have hp : (p ++ r ++ [keyDelimiter]) <+: p ++ t ++ keyDelimiter :: z := by
    rw [matchLen_comm] at h
    have hx : (p ++ r ++ [keyDelimiter]) <+: p ++ r ++ keyDelimiter :: z' := ⟨z', by simp⟩
    exact (le_matchLen_iff hx).1 (by simpa [Nat.add_assoc] using h)
  obtain ⟨y, hy⟩ := hp
  rw [List.append_assoc, List.append_assoc, List.append_assoc, List.append_cancel_left_eq] at hy
  exact hne (append_terminator_inj hr ht hy).1

/-- Where the match ends in a subscript, the key is cut behind it. -/
theorem truncAfter_eq {z : List UInt8} (hr : keyDelimiter ∉ r) {n : ℕ} (h1 : p.length ≤ n) (h2 : n ≤ p.length + r.length) :
    truncAfter (p ++ r ++ keyDelimiter :: z) n = p ++ r ++ [keyDelimiter] := by
  obtain ⟨m, rfl⟩ := Nat.exists_eq_add_of_le h1
  have hm : m ≤ r.length := by omega
  have hdrop : ∀ x ∈ r.drop m, decide (x ≠ keyDelimiter) = true := by
    intro x hx
    have : x ≠ keyDelimiter := by
      rintro rfl
      exact hr (List.mem_of_mem_drop hx)
    simpa using this
  have h3 : (p ++ r ++ keyDelimiter :: z).take (p.length + m) = p ++ r.take m := by
    rw [List.append_assoc, List.take_length_add_append, List.take_append_of_le_length hm]
  have h4 : (p ++ r ++ keyDelimiter :: z).drop (p.length + m) = r.drop m ++ keyDelimiter :: z := by
    rw [List.append_assoc, List.drop_length_add_append, List.drop_append_of_le_length hm]
  rw [truncAfter, h3, h4, List.takeWhile_append_of_pos hdrop]
  simp [List.append_assoc p (r.take m)]

/-! ### The hidden subscript test -/

/-- No subscript of a node starts behind a delimiter with the byte of the hidden ones. -/
theorem keyBase_not_hidden (hfree : Free keyDelimiter u) (hhead : ∀ s ∈ u.tail, s.head? ≠ some 2) (i : ℕ)
    (h0 : (keyBase u)[i]? = some 0) : (keyBase u)[i + 1]? ≠ some 2 := by
  induction u generalizing i with
  | nil => simp at h0
  | cons s u ih =>
    obtain ⟨⟨-, hs⟩, hu⟩ := free_cons.1 hfree
    rw [keyBase_cons] at h0 ⊢
    rcases lt_trichotomy i s.length with hi | hi | hi
    · rw [List.getElem?_append_left hi] at h0
      exact absurd (hs 0 (List.mem_of_getElem? h0)) (lt_irrefl _)
    · rw [List.getElem?_append_right (by omega), hi, Nat.add_sub_cancel_left]
      cases u with
      | nil => simp
      | cons r u =>
        obtain ⟨⟨hne, -⟩, -⟩ := free_cons.1 hu
        have := hhead r (by simp)
        cases r with
        | nil => exact absurd rfl hne
        | cons x r => simpa using this
    · obtain ⟨j, rfl⟩ := Nat.exists_eq_add_of_lt hi
      rw [List.getElem?_append_right (by omega)] at h0 ⊢
      have e1 : s.length + j + 1 - s.length = j + 1 := by omega
      have e2 : s.length + j + 1 + 1 - s.length = j + 1 + 1 := by omega
      rw [e1] at h0
      rw [e2]
      refine ih hu ?_ j h0
      intro r hr
      exact hhead r (List.mem_of_mem_tail hr)

theorem checkHiddenSubscript_node (hu : NodeSubs std u) (hk : k.base = keyBase u) : checkHiddenSubscript k = false := by
  by_contra hne
  rw [Bool.not_eq_false, checkHiddenSubscript, Bool.and_eq_true, Bool.and_eq_true, decide_eq_true_eq, beq_iff_eq, beq_iff_eq, hk] at hne
  obtain ⟨⟨h5, h0⟩, h2⟩ := hne
  have hi : k.kend - 4 = k.kend - 5 + 1 := by omega
  rw [hi] at h2
  exact keyBase_not_hidden hu.free (fun s hs => (hu.subs s hs).head_ne) _ h0 h2

theorem keyBase_getLast? (hu : u ≠ []) : (keyBase u).getLast? = some 0 := by
  rw [← List.dropLast_append_getLast hu, keyBase_append, keyBase_cons]
  simp [keyDelimiter]

theorem checkHiddenSubscript_hidden (hu : u ≠ []) (hh : HiddenSub h) (hk : k.base = keyBase (u ++ [h])) : checkHiddenSubscript k = true := by
  obtain ⟨a, b, rfl, -, -⟩ := hh.shape
  have hb : k.base = keyBase u ++ [2, a, b, keyDelimiter] := by simp [hk]
  have hlast := keyBase_getLast? hu
  have hpos : 0 < (keyBase u).length := by
    rw [List.length_pos_iff]
    rintro h0
    simp [h0] at hlast
  have hlen : k.kend = (keyBase u).length + 4 := by simp [GvKey.kend, hb]
  have e1 : k.kend - 5 = (keyBase u).length - 1 := by omega
  have e2 : k.kend - 4 = (keyBase u).length := by omega
  rw [checkHiddenSubscript, e1, hb, List.getElem?_append_left (by omega), ← List.getLast?_eq_getElem?, hlast]
  simp [hlen]
  omega


end Gtm
