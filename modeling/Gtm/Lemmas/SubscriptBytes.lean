import Gtm.Lemmas.NumberForm

/-!
# The bytes of a subscript

Statements about the byte strings `mval2subsc` appends: what they are for each kind of subscript, that `KEY_DELIMITER` does not
occur in them, and how two of them compare.
-/

namespace Gtm

open Positional LexOrder NumberFormAux

namespace SubscriptBytesAux

/-! ## Codes of digit pairs -/

theorem posCode_toNat {d : ℕ} (h : d < 100) : (posCode d).toNat = 16 * (d / 10) + d % 10 + 1 := by
  simp only [posCode, UInt8.toNat_ofNat']
  omega

theorem negCode_toNat {d : ℕ} (h : d < 100) : (negCode d).toNat = 0xfe - 16 * (d / 10) - d % 10 := by
  simp only [negCode, UInt8.toNat_ofNat']
  omega

theorem posCode_strictMonoOn : StrictMonoOn posCode {d | d < 100} := by
  intro a ha b hb hab
  rw [UInt8.lt_iff_toNat_lt, posCode_toNat ha, posCode_toNat hb]
  omega

theorem negCode_strictAntiOn : StrictAntiOn negCode {d | d < 100} := by
  intro a ha b hb hab
  simp only [Set.mem_ofPred_eq] at ha hb
  rw [UInt8.lt_iff_toNat_lt, negCode_toNat ha, negCode_toNat hb]
  omega

theorem posCode_pos {d : ℕ} (h : d < 100) : 0 < posCode d := by
  rw [UInt8.lt_iff_toNat_lt, posCode_toNat h]
  simp

theorem negCode_lt {d : ℕ} (h : d < 100) : negCode d < negMntssaEnd := by
  rw [UInt8.lt_iff_toNat_lt, negCode_toNat h]
  simp only [negMntssaEnd, UInt8.reduceToNat]
  omega

theorem negCode_ne_zero {d : ℕ} (h : d < 100) : negCode d ≠ 0 := by
  intro h0
  have := congrArg UInt8.toNat h0
  rw [negCode_toNat h] at this
  simp at this
  omega

theorem cvtTable_ne_zero (neg : Bool) {d : ℕ} (h : d < 100) : cvtTable neg d ≠ 0 := by
  cases neg with
  | false => exact (posCode_pos h).ne'
  | true => exact negCode_ne_zero h

/-! ## Exponent bytes -/

theorem expByte_false_toNat {n : ℕ} (h : n < 256) : (expByte false n).toNat = n := by
  simp [expByte]
  omega

theorem expByte_true_toNat {n : ℕ} (h : n < 256) : (expByte true n).toNat = 255 - n := by
  simp [expByte, UInt8.toNat_not]
  omega

/-! ## Number against number -/

theorem numberBytes_false_lt_iff {n n' : ℕ} {ps ps' : List ℕ} {q q' : ℚ} (hn : n < 256) (hn' : n' < 256)
    (h : Normal 100 ((n : ℤ) - subscriptBias) ps q) (h' : Normal 100 ((n' : ℤ) - subscriptBias) ps' q') :
    numberBytes false n ps ++ [keyDelimiter] < numberBytes false n' ps' ++ [keyDelimiter] ↔ q < q' := by
  have hz : ∀ ds : List ℕ, Digits 100 ds → ∀ x ∈ ds.map posCode, keyDelimiter < x := by
    intro ds hds x hx
    obtain ⟨d, hd, rfl⟩ := List.mem_map.mp hx
    exact posCode_pos (hds d hd)
  simp only [numberBytes, cvtTable, Bool.false_eq_true, if_false, List.append_nil, List.cons_append]
  rw [List.cons_lt_cons_iff, append_least_lt_iff (hz ps h.digits) (hz ps' h'.digits),
    map_lt_map_iff posCode_strictMonoOn h.digits h'.digits, h.lt_iff (by norm_num) h', UInt8.lt_iff_toNat_lt, ← UInt8.toNat_inj,
    expByte_false_toNat hn, expByte_false_toNat hn', sub_lt_sub_iff_right, sub_left_inj, Nat.cast_lt, Nat.cast_inj]

theorem numberBytes_true_lt_iff {n n' : ℕ} {ps ps' : List ℕ} {q q' : ℚ} (hn : n < 256) (hn' : n' < 256)
    (h : Normal 100 ((n : ℤ) - subscriptBias) ps q) (h' : Normal 100 ((n' : ℤ) - subscriptBias) ps' q') :
    numberBytes true n ps ++ [keyDelimiter] < numberBytes true n' ps' ++ [keyDelimiter] ↔ q' < q := by
  have hz : ∀ ds : List ℕ, Digits 100 ds → keyDelimiter ∉ ds.map negCode ++ [negMntssaEnd] := by
    intro ds hds hx
    simp only [List.mem_append, List.mem_map, List.mem_singleton] at hx
    rcases hx with ⟨d, hd, hx⟩ | hx
    · exact negCode_ne_zero (hds d hd) hx
    · exact absurd hx (by decide)
  simp only [numberBytes, cvtTable, if_true, List.cons_append]
  rw [List.cons_lt_cons_iff, append_least_lt_iff, map_append_greatest_lt_iff negCode_strictAntiOn (fun d hd => negCode_lt hd)
    h.digits h'.digits, h'.lt_iff (by norm_num) h, UInt8.lt_iff_toNat_lt, ← UInt8.toNat_inj,
    expByte_true_toNat hn, expByte_true_toNat hn', sub_lt_sub_iff_right, sub_left_inj, Nat.cast_lt, Nat.cast_inj]
  · have hlt : 255 - n < 255 - n' ↔ n' < n := by omega
    have heq : 255 - n = 255 - n' ↔ n' = n := by omega
    rw [hlt, heq]
  · exact fun x hx => lt_of_le_of_ne (by simp [keyDelimiter]) (fun h0 => hz ps h.digits (h0 ▸ hx))
  · exact fun x hx => lt_of_le_of_ne (by simp [keyDelimiter]) (fun h0 => hz ps' h'.digits (h0 ▸ hx))

/-! ## Strings -/

/-- The escaped bytes of a string, whatever room there is. -/
def escapeBytes : List UInt8 → List UInt8
  | [] => []
  | ch :: s => if ch ≤ 1 then strSubEscape :: (ch + 1) :: escapeBytes s else ch :: escapeBytes s

theorem escapeStr_eq {s t : List UInt8} {avail : ℤ} (h : escapeStr s avail = some t) : t = escapeBytes s := by
  induction s generalizing avail t with
  | nil =>
    simp only [escapeStr, Option.some.injEq] at h
    exact h.symm
  | cons ch s ih =>
    unfold escapeStr at h
    unfold escapeBytes
    split at h
    · rename_i hch
      split at h
      · simp at h
      · obtain ⟨u, hu, rfl⟩ := Option.map_eq_some_iff.mp h
        rw [if_pos hch, ih hu]
    · rename_i hch
      obtain ⟨u, hu, rfl⟩ := Option.map_eq_some_iff.mp h
      rw [if_neg hch, ih hu]

theorem byte_le_one {ch : UInt8} (h : ch ≤ 1) : ch = 0 ∨ ch = 1 := by
  rw [UInt8.le_iff_toNat_le] at h
  simp only [← UInt8.toNat_inj]
  simp at h ⊢
  omega

theorem escapeBytes_pos (s : List UInt8) : ∀ x ∈ escapeBytes s, keyDelimiter < x := by
  induction s with
  | nil => simp [escapeBytes]
  | cons ch s ih =>
    intro x hx
    unfold escapeBytes at hx
    split at hx
    · rename_i hch
      simp only [List.mem_cons] at hx
      rcases hx with rfl | rfl | hx
      · decide
      · rcases byte_le_one hch with rfl | rfl <;> decide
      · exact ih x hx
    · rename_i hch
      rcases List.mem_cons.mp hx with rfl | hx
      · exact lt_trans (by decide) (not_le.mp hch)
      · exact ih x hx

/-- Escaping keeps the order of strings. -/
theorem escapeBytes_lt_iff (s t : List UInt8) : escapeBytes s < escapeBytes t ↔ s < t := by
  induction s generalizing t with
  | nil =>
    cases t with
    | nil => simp
    | cons d t =>
      unfold escapeBytes
      split <;> simp
  | cons c s ih =>
    cases t with
    | nil => simp [escapeBytes]
    | cons d t =>
      unfold escapeBytes
      by_cases hc : c ≤ 1 <;> by_cases hd : d ≤ 1
      · rcases byte_le_one hc with rfl | rfl <;> rcases byte_le_one hd with rfl | rfl <;>
          simp [List.cons_lt_cons_iff, ih]
      · have hcd : c < d := lt_of_le_of_lt hc (not_le.mp hd)
        have hesc : strSubEscape < d := not_le.mp hd
        simp [hc, hd, List.cons_lt_cons_iff, hcd, hesc]
      · have hcd : d < c := lt_of_le_of_lt hd (not_le.mp hc)
        have hesc : strSubEscape < c := not_le.mp hc
        simp [hc, hd, List.cons_lt_cons_iff, hcd.ne', hcd.not_gt, hesc.ne', hesc.not_gt]
      · simp [hc, hd, List.cons_lt_cons_iff, ih]

/-- The bytes of a string subscript. -/
def strBytes (stdNullColl : Bool) (s : List UInt8) : List UInt8 :=
  if s = [] then [if stdNullColl then subscriptStdcolNull else strSubPrefix] else strSubPrefix :: escapeBytes s

theorem strSubsc_eq {s bytes : List UInt8} {k : GvKey} {std : Bool} (h : strSubsc s k std = some bytes) : bytes = strBytes std s := by
  unfold strSubsc at h
  simp only at h
  split at h
  · simp at h
  · split at h
    · rename_i hlen
      obtain ⟨u, hu, rfl⟩ := Option.map_eq_some_iff.mp h
      rw [strBytes, if_neg (List.ne_nil_of_length_pos hlen), escapeStr_eq hu]
    · rename_i hlen
      rw [strBytes, if_pos (List.eq_nil_of_length_eq_zero (by omega))]
      exact (Option.some.inj h).symm

end SubscriptBytesAux

open SubscriptBytesAux

/-- `bytes` encode the subscript: zero, a positive or negative number by its normal form in base 100, or a string. -/
inductive Encodes (stdNullColl : Bool) : Subsc → List UInt8 → Prop
  | zero : Encodes stdNullColl (.num 0) [subscriptZero]
  | pos {n : ℕ} {ps : List ℕ} {q : ℚ} (hlo : 148 ≤ n) (hhi : n ≤ 237) (h : Normal 100 ((n : ℤ) - subscriptBias) ps q) :
      Encodes stdNullColl (.num q) (numberBytes false n ps)
  | neg {n : ℕ} {ps : List ℕ} {q : ℚ} (hlo : 148 ≤ n) (hhi : n ≤ 237) (h : Normal 100 ((n : ℤ) - subscriptBias) ps q) :
      Encodes stdNullColl (.num (-q)) (numberBytes true n ps)
  | str (s : List UInt8) : Encodes stdNullColl (.str s) (strBytes stdNullColl s)

/-- The bytes of a number in range: zero, or the normal form of its magnitude, with few enough digits for a short buffer. -/
theorem numSubsc_cases (v : Mval) (hv : v.NumValid) : (v.numVal = 0 ∧ v.m1 = 0 ∧ numSubsc v = [subscriptZero]) ∨
      ∃ (neg : Bool) (n : ℕ) (ps : List ℕ) (q : ℚ), numSubsc v = numberBytes neg n ps ∧ 148 ≤ n ∧ n ≤ 237 ∧
        Normal 100 ((n : ℤ) - subscriptBias) ps q ∧ v.numVal = (if neg then -q else q) ∧ 2 * ps.length + (subscriptBias - n) ≤ 62 := by
  unfold Mval.NumValid at hv
  unfold Mval.numVal numSubsc
  by_cases hint : v.mvtype.int = true
  · simp only [if_pos hint] at hv ⊢
    by_cases h0 : v.m1 = 0
    · exact Or.inl ⟨by simp [h0], h0, by rw [if_pos h0]⟩
    refine Or.inr ?_
    rw [if_neg h0]
    obtain ⟨d, -, hd9, hexp, hnorm⟩ := intDigits_normal v.m1.natAbs (by omega) hv
    have hlen := intDigits_length v.m1.natAbs
    generalize intDigits v.m1.natAbs = p at *
    have hbias : (p.1 : ℤ) - subscriptBias = d - 3 := by omega
    rw [← hbias] at hnorm
    have hsmall : subscriptBias = 190 ∧ tempMantissaSz = 12 := ⟨rfl, rfl⟩
    refine ⟨decide (v.m1 < 0), p.1, p.2, (v.m1.natAbs : ℚ) / 1000, rfl, by omega, by omega, hnorm, ?_, by omega⟩
    by_cases hneg : v.m1 < 0
    · rw [decide_eq_true hneg, if_pos rfl, Nat.cast_natAbs, abs_of_neg hneg]
      push_cast
      ring
    · rw [decide_eq_false hneg, if_neg (by simp), Nat.cast_natAbs, abs_of_nonneg (by omega)]
  · simp only [if_neg hint] at hv ⊢
    refine Or.inr ?_
    obtain ⟨h1, h1', h0, h0', he, he'⟩ := hv
    have hlen := approxDigits_length v.m1.toNat v.m0.toNat
    have hsmall : subscriptBias = 190 ∧ mvXbias = 62 ∧ expLo = 20 ∧ expHi = 110 := ⟨rfl, rfl, rfl, rfl⟩
    have hbias : ((v.e + subscriptBias - mvXbias : ℕ) : ℤ) - subscriptBias = (v.e : ℤ) - mvXbias := by omega
    have hnorm := approxDigits_normal v.m1.toNat v.m0.toNat ((v.e : ℤ) - mvXbias) (by omega) (by omega) (by omega)
    have hm1 : (v.m1 : ℚ) = (v.m1.toNat : ℕ) := by exact_mod_cast (Int.toNat_of_nonneg (by simp only [mantLo] at h1; omega)).symm
    have hm0 : (v.m0 : ℚ) = (v.m0.toNat : ℕ) := by exact_mod_cast (Int.toNat_of_nonneg h0).symm
    rw [← hbias] at hnorm ⊢
    refine ⟨v.sgn, _, _, _, rfl, by omega, by omega, hnorm, ?_, by omega⟩
    rw [hm1, hm0]
    push_cast
    cases v.sgn <;> simp only [Bool.false_eq_true, if_true, if_false] <;> ring

/-- A number in range is encoded by `numSubsc`. -/
theorem numSubsc_encodes (std : Bool) (v : Mval) (hv : v.NumValid) : Encodes std (.num v.numVal) (numSubsc v) := by
  rcases numSubsc_cases v hv with ⟨hval, -, hb⟩ | ⟨neg, n, ps, q, hb, hlo, hhi, hn, hval, -⟩
  · rw [hval, hb]
    exact Encodes.zero
  · rw [hval, hb]
    cases neg
    · exact Encodes.pos hlo hhi hn
    · exact Encodes.neg hlo hhi hn

namespace SubscriptBytesAux

/-! ## Subscript against subscript -/

theorem cons_lt_of_toNat {a b : UInt8} (u v : List UInt8) (h : a.toNat < b.toNat) : a :: u < b :: v :=
  List.cons_lt_cons_iff.mpr (Or.inl (UInt8.lt_iff_toNat_lt.mpr h))

theorem not_cons_lt_of_toNat {a b : UInt8} (u v : List UInt8) (h : b.toNat < a.toNat) : ¬ a :: u < b :: v :=
  (cons_lt_of_toNat v u h).le.not_gt

/-- The first byte of a number lies between that of a standard null and that of a string, with zero in the middle. -/
def HeadOf (q : ℚ) (c : ℕ) : Prop := (q < 0 ∧ 18 ≤ c ∧ c ≤ 107) ∨ (q = 0 ∧ c = 128) ∨ (0 < q ∧ 148 ≤ c ∧ c ≤ 237)

/-- Numbers of different sign are told apart by their first byte. -/
theorem HeadOf.lt {p q : ℚ} {c d : ℕ} (hp : HeadOf p c) (hq : HeadOf q d) (hlt : p < q)
    (hsame : ¬ ((p < 0 ∧ q < 0) ∨ (p = 0 ∧ q = 0) ∨ (0 < p ∧ 0 < q))) : c < d := by
  rcases hp with ⟨hp, hc⟩ | ⟨hp, hc⟩ | ⟨hp, hc⟩ <;> rcases hq with ⟨hq, hd⟩ | ⟨hq, hd⟩ | ⟨hq, hd⟩
  · exact absurd (Or.inl ⟨hp, hq⟩) hsame
  · omega
  · omega
  · linarith
  · exact absurd (Or.inr (Or.inl ⟨hp, hq⟩)) hsame
  · omega
  · linarith
  · linarith
  · exact absurd (Or.inr (Or.inr ⟨hp, hq⟩)) hsame

theorem encodes_num_head {std : Bool} {q : ℚ} {b : List UInt8} (h : Encodes std (.num q) b) : ∃ c t, b = c :: t ∧ HeadOf q c.toNat := by
  cases h with
  | zero => exact ⟨_, _, rfl, Or.inr (Or.inl ⟨rfl, rfl⟩)⟩
  | @pos n ps q hlo hhi hn =>
    refine ⟨_, _, rfl, Or.inr (Or.inr ⟨hn.pos, ?_⟩)⟩
    rw [expByte_false_toNat (by omega)]
    omega
  | @neg n ps q hlo hhi hn =>
    refine ⟨_, _, rfl, Or.inl ⟨neg_neg_iff_pos.mpr hn.pos, ?_⟩⟩
    rw [expByte_true_toNat (by omega)]
    omega

theorem HeadOf.range {q : ℚ} {c : ℕ} (h : HeadOf q c) : 1 < c ∧ c < 255 := by
  rcases h with h | h | h <;> omega

/-- Zero has one encoding. -/
theorem encodes_zero_eq {std : Bool} {b : List UInt8} (h : Encodes std (.num 0) b) : b = [subscriptZero] := by
  generalize hq : (0 : ℚ) = q at h
  cases h with
  | zero => rfl
  | pos _ _ hn => exact absurd hq hn.pos.ne
  | @neg n ps q _ _ hn => exact absurd hq (by have := hn.pos; linarith)

/-- The first byte of a string is the prefix, unless it is the standard null. -/
theorem strBytes_head (std : Bool) (s : List UInt8) :
    ∃ c t, strBytes std s = c :: t ∧ if s = [] ∧ std = true then c.toNat = 1 else c.toNat = 255 := by
  unfold strBytes
  by_cases hs : s = []
  · cases std <;> exact ⟨_, _, by rw [if_pos hs], by simp [hs, subscriptStdcolNull, strSubPrefix]⟩
  · exact ⟨_, _, by rw [if_neg hs], by simp [hs, strSubPrefix]⟩

theorem strBytes_pos (std : Bool) (s : List UInt8) : ∀ x ∈ strBytes std s, keyDelimiter < x := by
  intro x hx
  unfold strBytes at hx
  split at hx
  · rw [List.mem_singleton] at hx
    cases std <;> rw [hx] <;> decide
  · rcases List.mem_cons.mp hx with rfl | hx
    · decide
    · exact escapeBytes_pos s x hx

theorem strBytes_lt_iff (std : Bool) (s t : List UInt8) : strBytes std s ++ [keyDelimiter] < strBytes std t ++ [keyDelimiter] ↔ s < t := by
  rw [append_least_lt_iff (strBytes_pos std s) (strBytes_pos std t)]
  unfold strBytes
  by_cases hs : s = [] <;> by_cases ht : t = []
  · simp [hs, ht]
  · have hne : escapeBytes t ≠ [] := by
      obtain ⟨c, t, rfl⟩ := List.exists_cons_of_ne_nil ht
      unfold escapeBytes
      split <;> simp
    obtain ⟨c, t', rfl⟩ := List.exists_cons_of_ne_nil ht
    obtain ⟨d, u, hu⟩ := List.exists_cons_of_ne_nil hne
    cases std
    · simp [hs, hu]
    · simp [hs, List.cons_lt_cons_iff, subscriptStdcolNull, strSubPrefix]
  · have hlt : subscriptStdcolNull < strSubPrefix := by decide
    cases std
    · simp [hs, ht]
    · simp [hs, ht, List.cons_lt_cons_iff, hlt.ne', hlt.not_gt]
  · simp [hs, ht, escapeBytes_lt_iff]

/-- Two numbers compare as their values. -/
theorem encodes_num_lt_iff {std : Bool} {p q : ℚ} {b c : List UInt8} (hp : Encodes std (.num p) b) (hq : Encodes std (.num q) c) :
    b ++ [keyDelimiter] < c ++ [keyDelimiter] ↔ p < q := by
  by_cases hsame : (p < 0 ∧ q < 0) ∨ (p = 0 ∧ q = 0) ∨ (0 < p ∧ 0 < q)
  · rcases hsame with ⟨h1, h2⟩ | ⟨rfl, rfl⟩ | ⟨h1, h2⟩
    · cases hp with
      | zero => exact absurd h1 (lt_irrefl 0)
      | pos _ _ hn => exact absurd h1 hn.pos.le.not_gt
      | neg hlo hhi hn =>
        cases hq with
        | zero => exact absurd h2 (lt_irrefl 0)
        | pos _ _ hn' => exact absurd h2 hn'.pos.le.not_gt
        | neg hlo' hhi' hn' => rw [numberBytes_true_lt_iff (by omega) (by omega) hn hn', neg_lt_neg_iff]
    · rw [encodes_zero_eq hp, encodes_zero_eq hq]
      simp
    · cases hp with
      | zero => exact absurd h1 (lt_irrefl 0)
      | neg _ _ hn => exact absurd h1 (by have := hn.pos; linarith)
      | pos hlo hhi hn =>
        cases hq with
        | zero => exact absurd h2 (lt_irrefl 0)
        | neg _ _ hn' => exact absurd h2 (by have := hn'.pos; linarith)
        | pos hlo' hhi' hn' => exact numberBytes_false_lt_iff (by omega) (by omega) hn hn'
  · obtain ⟨x, u, rfl, hx⟩ := encodes_num_head hp
    obtain ⟨y, v, rfl, hy⟩ := encodes_num_head hq
    rcases lt_trichotomy p q with hlt | rfl | hgt
    · simp only [hlt, iff_true]
      exact cons_lt_of_toNat _ _ (hx.lt hy hlt hsame)
    · rcases lt_trichotomy p 0 with h | h | h
      · exact absurd (Or.inl ⟨h, h⟩) hsame
      · exact absurd (Or.inr (Or.inl ⟨h, h⟩)) hsame
      · exact absurd (Or.inr (Or.inr ⟨h, h⟩)) hsame
    · simp only [hgt.le.not_gt, iff_false]
      exact not_cons_lt_of_toNat _ _ (hy.lt hx hgt (by simpa only [and_comm] using hsame))

end SubscriptBytesAux

open SubscriptBytesAux

/-- The closed bytes of two subscripts compare as the subscripts collate. -/
theorem Encodes.lt_iff {std : Bool} {x y : Subsc} {b c : List UInt8} (hx : Encodes std x b) (hy : Encodes std y c) :
    b ++ [keyDelimiter] < c ++ [keyDelimiter] ↔ x.Lt std y := by
  cases x with
  | num p =>
    cases y with
    | num q => exact encodes_num_lt_iff hx hy
    | str t =>
      cases hy
      obtain ⟨d, u, rfl, hd⟩ := encodes_num_head hx
      have hrange := hd.range
      obtain ⟨e, w, he, hhead⟩ := strBytes_head std t
      rw [he, List.cons_append, List.cons_append, Subsc.Lt]
      split at hhead
      · rename_i hnull
        simp only [hnull, ne_eq, not_true_eq_false, Bool.true_eq_false, or_self, iff_false]
        exact not_cons_lt_of_toNat _ _ (by omega)
      · rename_i hnull
        have hlt : d :: (u ++ [keyDelimiter]) < e :: (w ++ [keyDelimiter]) := cons_lt_of_toNat _ _ (by omega)
        simp only [hlt, true_iff]
        by_cases ht : t = []
        · exact Or.inr (by simpa [ht] using hnull)
        · exact Or.inl ht
  | str s =>
    cases y with
    | num q =>
      cases hx
      obtain ⟨d, u, rfl, hd⟩ := encodes_num_head hy
      have hrange := hd.range
      obtain ⟨e, w, he, hhead⟩ := strBytes_head std s
      rw [he, List.cons_append, Subsc.Lt]
      split at hhead
      · rename_i hnull
        simp only [hnull, and_self, iff_true]
        exact cons_lt_of_toNat _ _ (by omega)
      · rename_i hnull
        simp only [hnull, iff_false]
        exact not_cons_lt_of_toNat _ _ (by omega)
    | str t =>
      cases hx
      cases hy
      exact strBytes_lt_iff std s t

end Gtm
