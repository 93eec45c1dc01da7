import Gtm.Gld.SrchMap

/-!
# The map of a name

Whichever way the maps are searched, the same one is found: the only one whose key is above the name while the key before it is not.
-/

namespace Gtm

open LexOrder

namespace MapSearchAux

/-- What is left of a name behind its first byte. -/
theorem isName_tail {c : UInt8} {s : List UInt8} (h : isName (c :: s) = true) : isName s = true := by
  cases s with
  | nil => rfl
  | cons d s =>
    simp only [isName, List.cons_append, isKey] at h ⊢
    split_ifs at h
    · simp at h
    · exact h

/-- A name that goes on with a delimiter has a byte behind it, which is none. -/
theorem isName_delimiter {s : List UInt8} (h : isName (keyDelimiter :: s) = true) : ∃ c s', s = c :: s' ∧ c ≠ keyDelimiter := by
  cases s with
  | nil => simp [isName, isKey] at h
  | cons c s =>
    refine ⟨c, s, rfl, ?_⟩
    rintro rfl
    simp [isName, isKey] at h

section Compare

variable {mem : Nat → UInt8} {s k : List UInt8} {off : Nat}

/-- `memcmp` of a name with a key in memory tells their order; equal says that the name is a beginning of the key. -/
theorem memcmp_name (hs : isName s = true) (hmem : ∀ j (hj : j < k.length), mem (off + j) = k[j])
    (h0 : mem (off + k.length) = keyDelimiter) (h1 : mem (off + k.length + 1) = keyDelimiter) :
    match memcmp mem s off with
    | .lt => s < k
    | .gt => k < s
    | .eq => s <+: k := by
  induction s generalizing k off with
  | nil => exact List.nil_prefix
  | cons c s ih =>
    cases k with
    | nil =>
      rw [List.length_nil, Nat.add_zero] at h0 h1
      have hpos : keyDelimiter ≤ c := UInt8.le_iff_toNat_le.2 (Nat.zero_le _)
      rcases hpos.lt_or_eq with hlt | rfl
      · have hc : compare c (mem off) = .gt := by rw [h0]; exact compare_gt_iff_gt.2 hlt
        simp [memcmp, hc]
      · obtain ⟨d, -, rfl, hd⟩ := isName_delimiter hs
        have hlt : keyDelimiter < d := lt_of_le_of_ne (UInt8.le_iff_toNat_le.2 (Nat.zero_le _)) (Ne.symm hd)
        have hc : compare d (mem (off + 1)) = .gt := by rw [h1]; exact compare_gt_iff_gt.2 hlt
        simp [memcmp, h0, hc]
    | cons d k =>
      have hd : mem off = d := hmem 0 (by simp)
      have hrest := @ih k (off + 1) (isName_tail hs)
        (fun j hj => by rw [Nat.add_right_comm, Nat.add_assoc]; exact hmem (j + 1) (by simpa using hj))
        (by rw [← h0, List.length_cons]; congr 1; omega) (by rw [← h1, List.length_cons]; congr 1; omega)
      rw [memcmp, hd]
      rcases lt_trichotomy c d with hlt | rfl | hgt
      · rw [compare_lt_iff_lt.2 hlt]
        exact List.Lex.rel hlt
      · have heq : compare c c = .eq := compare_eq_iff_eq.2 rfl
        rw [heq]
        cases hm : memcmp mem s (off + 1) with
        | lt => rw [hm] at hrest; exact List.cons_lt_cons_iff.2 (.inr ⟨rfl, hrest⟩)
        | gt => rw [hm] at hrest; exact List.cons_lt_cons_iff.2 (.inr ⟨rfl, hrest⟩)
        | eq => rw [hm] at hrest; exact (List.prefix_cons_inj c).2 hrest
      · rw [compare_gt_iff_gt.2 hgt]
        exact List.Lex.rel hgt

end Compare

section Search

variable {addr : GdAddr} {k : Nat → List UInt8} {name : List UInt8} {i : Nat}

section
variable (h : addr.Keys k)
include h

/-- What the comparison of the name with a map tells. -/
theorem compare_map (hname : isName name = true) (hi : i < addr.nMaps) :
    (memcmp (addr.maps i).gvkey name 0 = .lt → name < k i) ∧ (memcmp (addr.maps i).gvkey name 0 = .gt → k i < name) ∧
      (memcmp (addr.maps i).gvkey name 0 = .eq → name.length < (addr.maps i).gvkeyLen - 1 → name < k i) ∧
      (memcmp (addr.maps i).gvkey name 0 = .eq → ¬name.length < (addr.maps i).gvkeyLen - 1 → name = k i) := by
  obtain ⟨hmem, h0, h1⟩ := h.stored hi
  have hcmp := @memcmp_name (addr.maps i).gvkey name (k i) 0 hname (fun j hj => by rw [Nat.zero_add]; exact hmem j hj)
    (by rw [Nat.zero_add]; exact h0) (by rw [Nat.zero_add]; exact h1)
  have hlen : (addr.maps i).gvkeyLen - 1 = (k i).length := by rw [h.length hi]; rfl
  refine ⟨fun hm => by rwa [hm] at hcmp, fun hm => by rwa [hm] at hcmp, fun hm hlt => ?_, fun hm hge => ?_⟩
  · rw [hm] at hcmp
    obtain ⟨r, hr⟩ := hcmp
    cases r with
    | nil =>
      rw [hlen, ← hr, List.append_nil] at hlt
      exact absurd hlt (lt_irrefl _)
    | cons c r =>
      rw [← hr]
      calc name = name ++ [] := (List.append_nil _).symm
        _ < name ++ c :: r := (append_left_lt_iff name [] (c :: r)).2 (List.nil_lt_cons c r)
  · rw [hm] at hcmp
    exact hcmp.eq_of_length_le (by rw [← hlen]; exact not_lt.1 hge)

/-- There is no other map of a name. -/
theorem routes_unique {m m' : Nat} (hm : addr.Routes k name m) (hm' : addr.Routes k name m') : m = m' := by
  have hle : ∀ {a b : Nat}, addr.Routes k name a → addr.Routes k name b → a ≤ b := by
    intro a b ha hb
    by_contra hlt
    have hle : k b ≤ k (a - 1) := by
      rcases Nat.lt_or_ge b (a - 1) with hba | hba
      · exact (h.ascending hba (by have := ha.inside; omega)).le
      · obtain rfl : b = a - 1 := by omega
        exact le_rfl
    exact absurd (hle.trans ha.ge) (not_le.2 hb.lt)
  exact le_antisymm (hle hm hm') (hle hm' hm)

/-- The binary search closes in on the map. -/
theorem gvSrchMapLoop_routes (hname : isName name = true) {low high : Nat} (hlow : 0 < low) (hle : low ≤ high)
    (hhigh : high < addr.nMaps) (hge : k (low - 1) ≤ name) (hlt : name < k high) : addr.Routes k name (gvSrchMapLoop addr name low high) := by
  fun_induction gvSrchMapLoop addr name low high with
  | case1 low high hlh mid map hm ih =>
    exact ih hlow (by omega) (by omega) hge ((compare_map h hname (by omega)).1 hm)
  | case2 low high hlh mid map hm ih =>
    exact ih (by omega) (by omega) hhigh ((compare_map h hname (by omega)).2.1 hm).le hlt
  | case3 low high hlh mid map hm hlen ih =>
    exact ih hlow (by omega) (by omega) hge ((compare_map h hname (by omega)).2.2.1 hm hlen)
  | case4 low high hlh mid map hm hlen =>
    -- the key of the map is the name itself, and the next one is above it
    have heq : name = k mid := (compare_map h hname (by omega)).2.2.2 hm hlen
    have hnext : mid + 1 < addr.nMaps := by omega
    exact ⟨hnext, Nat.succ_pos _, heq.ge, heq ▸ h.ascending (Nat.lt_succ_self _) hnext⟩
  | case5 low high hlh =>
    obtain rfl : low = high := by omega
    exact ⟨hhigh, hlow, hge, hlt⟩

/-- A map before that of the name has a key that is not above it. -/
theorem key_le_of_lt {m : Nat} (hm : addr.Routes k name m) (hi : i < m) : k i ≤ name := by
  rcases Nat.lt_or_ge i (m - 1) with hlt | hge
  · exact (h.ascending hlt (by have := hm.inside; omega)).le.trans hm.ge
  · obtain rfl : i = m - 1 := by omega
    exact hm.ge

/-- That of the name and those behind it have keys above it. -/
theorem lt_key_of_le {m : Nat} (hm : addr.Routes k name m) (hi : m ≤ i) (hin : i < addr.nMaps) : name < k i := by
  rcases hi.lt_or_eq with hlt | rfl
  · exact hm.lt.trans (h.ascending hlt hin)
  · exact hm.lt

theorem gvSrchMapLinearLoop_eq (hname : isName name = true) {m : Nat} (hm : addr.Routes k name m) {n : Nat}
    (hi : i ≤ m) (hn : m < i + n) : gvSrchMapLinearLoop addr name n i = some m := by
  induction n generalizing i with
  | zero => omega
  | succ n ih =>
    have hin : i < addr.nMaps := hi.trans_lt hm.inside
    obtain ⟨hcl, hcg, hce, hceq⟩ := compare_map h hname hin
    rw [gvSrchMapLinearLoop]
    rcases hi.lt_or_eq with hlt | rfl
    · have hle := key_le_of_lt h hm hlt
      cases hc : memcmp (addr.maps i).gvkey name 0 with
      | gt => exact ih hlt (by omega)
      | lt => exact absurd (hcl hc) hle.not_gt
      | eq =>
        by_cases hlen : name.length < (addr.maps i).gvkeyLen - 1
        · exact absurd (hce hc hlen) hle.not_gt
        · have heq := hceq hc hlen
          have hnext : i + 1 < addr.nMaps := by have := hm.inside; omega
          have hroute : addr.Routes k name (i + 1) := ⟨hnext, Nat.succ_pos _, heq.ge, heq ▸ h.ascending (Nat.lt_succ_self _) hnext⟩
          simp only [if_neg hlen, routes_unique h hroute hm]
    · cases hc : memcmp (addr.maps i).gvkey name 0 with
      | gt => exact absurd (hcg hc) hm.lt.asymm
      | lt => rfl
      | eq =>
        by_cases hlen : name.length < (addr.maps i).gvkeyLen - 1
        · simp only [if_pos hlen]
        · exact absurd (hceq hc hlen) hm.lt.ne

theorem gvSrchMapLinearBackward_eq (hname : isName name = true) {m : Nat} (hm : addr.Routes k name m) (hi : m ≤ i + 1)
    (hin : i < addr.nMaps) : gvSrchMapLinearBackward addr name i = some m := by
  induction i with
  | zero =>
    obtain rfl : m = 1 := by have := hm.pos; omega
    obtain ⟨hcl, hcg, hce, hceq⟩ := compare_map h hname hin
    have hle : k 0 ≤ name := hm.ge
    rw [gvSrchMapLinearBackward]
    cases hc : memcmp (addr.maps 0).gvkey name 0 with
    | gt => rfl
    | lt => exact absurd (hcl hc) hle.not_gt
    | eq =>
      by_cases hlen : name.length < (addr.maps 0).gvkeyLen - 1
      · exact absurd (hce hc hlen) hle.not_gt
      · simp only [if_neg hlen]
  | succ i ih =>
    obtain ⟨hcl, hcg, hce, hceq⟩ := compare_map h hname hin
    rw [gvSrchMapLinearBackward]
    rcases hi.lt_or_eq with hlt | rfl
    · have habove := lt_key_of_le h hm (Nat.lt_succ_iff.1 hlt) hin
      cases hc : memcmp (addr.maps (i + 1)).gvkey name 0 with
      | gt => exact absurd (hcg hc) habove.asymm
      | lt => exact ih (by omega) (by omega)
      | eq =>
        by_cases hlen : name.length < (addr.maps (i + 1)).gvkeyLen - 1
        · simp only [if_pos hlen]
          exact ih (by omega) (by omega)
        · exact absurd (hceq hc hlen) habove.ne
    · have hle : k (i + 1) ≤ name := hm.ge
      cases hc : memcmp (addr.maps (i + 1)).gvkey name 0 with
      | gt => rfl
      | lt => exact absurd (hcl hc) hle.not_gt
      | eq =>
        by_cases hlen : name.length < (addr.maps (i + 1)).gvkeyLen - 1
        · exact absurd (hce hc hlen) hle.not_gt
        · simp only [if_neg hlen]

end

end Search

end MapSearchAux

open MapSearchAux

/-- All three searches find the map of a name, the linear ones from any map on the right side of it. -/
theorem gvSrchMap_routes {addr : GdAddr} {k : Nat → List UInt8} (h : addr.Keys k) (name : List UInt8) (hname : isName name = true)
    (hmaps : 1 < addr.nMaps) (hfirst : k 1 ≤ name) (hlast : name < k (addr.nMaps - 1)) :
    ∃ map, addr.Routes k name map ∧ (∀ map', addr.Routes k name map' → map' = map) ∧ gvSrchMap addr name = map ∧
      (∀ start, start ≤ map → gvSrchMapLinear addr start name = some map) ∧
      ∀ start, map ≤ start → start < addr.nMaps → gvSrchMapLinearBackward addr name start = some map := by
  have hthree : 2 ≤ addr.nMaps - 1 := by
    by_contra hlt
    have hone : addr.nMaps - 1 = 1 := by omega
    rw [hone] at hlast
    exact absurd hfirst (not_le.2 hlast)
  have hroute : addr.Routes k name (gvSrchMap addr name) :=
    gvSrchMapLoop_routes h hname (by decide) hthree (by omega) hfirst hlast
  refine ⟨_, hroute, fun map' hmap' => routes_unique h hmap' hroute, rfl, fun start hstart => ?_, fun start hstart hin => ?_⟩
  · exact gvSrchMapLinearLoop_eq h hname hroute hstart (by have := hroute.inside; omega)
  · exact gvSrchMapLinearBackward_eq h hname hroute (by omega) hin

/-- The keys of a directory with the nodes of `^A` up to `^A(1)` apart. -/
def fourKeys (i : Nat) : List UInt8 := [[35], [37], [65, 0, 191, 17], [255]].getD i []

/-- The directory, with something else in memory behind each key. -/
def fourMaps : GdAddr :=
  ⟨fun i => ⟨fun j => (fourKeys i ++ [0, 0, 66, 67]).getD j 0, (fourKeys i).length + 1⟩, 4⟩

/-- `^A` goes to one map, and `^A(1)`, the key of that map itself, to the next. -/
theorem gvSrchMap_routes_four :
    (∃ map, fourMaps.Routes fourKeys [65] map ∧ gvSrchMap fourMaps [65] = map ∧ gvSrchMapLinear fourMaps 1 [65] = some map) ∧
      ∃ map, fourMaps.Routes fourKeys [65, 0, 191, 17] map ∧ gvSrchMap fourMaps [65, 0, 191, 17] = map ∧
        gvSrchMapLinearBackward fourMaps [65, 0, 191, 17] 3 = some map := by
  have hkeys : fourMaps.Keys fourKeys := by
    have hbytes : ∀ i < 4, ∀ j < (fourKeys i).length, (fourMaps.maps i).gvkey j = (fourKeys i).getD j 0 := by decide
    have hends : ∀ i < 4, (fourMaps.maps i).gvkey (fourKeys i).length = 0 ∧ (fourMaps.maps i).gvkey ((fourKeys i).length + 1) = 0 := by
      decide
    have hasc : ∀ j < 4, ∀ i < j, fourKeys i < fourKeys j := by decide
    refine ⟨fun hi => ⟨fun j hj => ?_, hends _ hi⟩, fun _ => rfl, fun hij hj => hasc _ hj _ hij⟩
    rw [hbytes _ hi j hj]
    exact (List.getElem_eq_getD 0).symm
  obtain ⟨map, hroute, -, hbinary, hlinear, -⟩ := gvSrchMap_routes hkeys [65] rfl (by decide) (by decide) (by decide)
  obtain ⟨map', hroute', -, hbinary', -, hback⟩ :=
    gvSrchMap_routes hkeys [65, 0, 191, 17] rfl (by decide) (by decide) (by decide)
  have hpos := hroute.pos
  have hin := hroute'.inside
  exact ⟨⟨map, hroute, hbinary, hlinear 1 hpos⟩, map', hroute', hbinary', hback 3 (Nat.lt_succ_iff.1 hin) (by decide)⟩

end Gtm
