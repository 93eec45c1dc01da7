import Gtm.Lemmas.AvlRep
import Gtm.Lemmas.NumberRoundTrip

/-!
# The comparisons of keys

Each of the three comparisons of a key with the key of a node tells on which side of the node the key lies in the order of the
subscripts, and changes nothing of the node that matters for that or for the tree. Numbers are compared by their values in units of
`10 ^ -80`, which are integers.
-/

namespace Gtm

open BalTree BinTree

/-- The side to which the result of a comparison leads. -/
def sideOf (c : Int) : Option Side := if c = 0 then none else if c < 0 then some .left else some .right

/-- The side of the subscript `x` on which the subscript `k` is. -/
def Subsc.side (k x : Subsc) : Option Side :=
  match k, x with
  | .num p, .num q => if p = q then none else if p < q then some .left else some .right
  | .num _, .str _ => some .left
  | .str _, .num _ => some .right
  | .str s, .str t => if s = t then none else if s < t then some .left else some .right

variable {k x : Subsc} {m0 m1 : Int} {a : Mval} {n : LvTreeNode}

theorem Subsc.side_none : k.side x = none ↔ k = x := by
  cases k <;> cases x <;> simp only [side] <;> [skip; simp; simp; skip] <;> split <;> [simp [*]; skip; simp [*]; skip] <;>
    split <;> simp [*]

theorem Subsc.side_left : k.side x = some .left ↔ k.Lt false x := by
  cases k <;> cases x <;> simp only [side, Lt] <;> [skip; simp; simp; skip] <;> split <;> [simp [*]; skip; simp [*]; skip] <;>
    split <;> simp [*]

theorem Subsc.side_right : k.side x = some .right ↔ x.Lt false k := by
  cases k with
  | num p =>
    cases x with
    | num q =>
      simp only [side, Lt]
      rcases lt_trichotomy p q with h | h | h
      · simp [h.ne, h, h.le]
      · simp [h]
      · simp [h.ne', h, not_lt_of_gt h]
    | str t => simp [side, Lt]
  | str s =>
    cases x with
    | num q => simp [side, Lt]
    | str t =>
      simp only [side, Lt]
      rcases lt_trichotomy s t with h | h | h
      · simp [h.ne, h, lt_asymm h]
      · simp [h]
      · simp [h.ne', h, not_lt_of_gt h]

theorem Subsc.Lt.trans {y z : Subsc} (h : x.Lt false y) (h' : y.Lt false z) : x.Lt false z := by
  cases x <;> cases y <;> cases z <;> simp only [Subsc.Lt] at h h' ⊢ <;> first | exact lt_trans h h' | simp_all

theorem Subsc.Lt.irrefl (x : Subsc) : ¬ x.Lt false x := by
  cases x <;> simp [Subsc.Lt]

/-! ## Numbers -/

/-- A number given by sign, exponent and mantissa, in units of `10 ^ -80`. -/
def scaledWords (sgn : Bool) (e : Nat) (m1 m0 : Int) : Int := (if sgn then -1 else 1) * ((m1 * 10 ^ 9 + m0) * 10 ^ e)

/-- The value of a number in units of `10 ^ -80`. -/
def Mval.scaled (v : Mval) : Int := if v.mvtype.int then v.m1 * 10 ^ 77 else scaledWords v.sgn v.e v.m1 v.m0

theorem Mval.numVal_eq_scaled (v : Mval) : v.numVal = v.scaled / 10 ^ 80 := by
  rw [numVal, scaled]
  split
  · push_cast
    ring
  · have h : (10 : ℚ) ^ ((v.e : ℤ) - mvXbias) = 10 ^ v.e / 10 ^ 62 := by
      rw [zpow_sub₀ (by norm_num)]
      norm_num [mvXbias]
    rw [h, scaledWords]
    push_cast
    ring

/-- The sides of numbers are those of their values as integers. -/
theorem side_num (v w : Mval) : Subsc.side (.num v.numVal) (.num w.numVal) = sideOf (v.scaled - w.scaled) := by
  have hpos : (0 : ℚ) < 10 ^ 80 := by positivity
  have heq : v.numVal = w.numVal ↔ v.scaled = w.scaled := by
    rw [v.numVal_eq_scaled, w.numVal_eq_scaled, div_left_inj' hpos.ne']
    exact Int.cast_inj
  have hlt : v.numVal < w.numVal ↔ v.scaled < w.scaled := by
    rw [v.numVal_eq_scaled, w.numVal_eq_scaled, div_lt_div_iff_of_pos_right hpos]
    exact Int.cast_lt
  simp only [Subsc.side, sideOf, heq, hlt, sub_eq_zero, sub_neg]

/-- A mantissa with a leading digit that is not zero. -/
def MantWords (m1 m0 : Int) : Prop := (mantLo : Int) ≤ m1 ∧ m1 < mantHi ∧ 0 ≤ m0 ∧ m0 < mantHi

theorem sideOf_eq_of_sign {c d : Int} (hneg : c < 0 ↔ d < 0) (hpos : 0 < c ↔ 0 < d) : sideOf c = sideOf d := by
  have hz : c = 0 ↔ d = 0 := by omega
  simp only [sideOf, hz, hneg]

/-- The magnitudes compare by the exponents first. -/
theorem mag_lt_of_exp {e f : Nat} {n1 n0 : Int} (hm : MantWords m1 m0) (hn : MantWords n1 n0) (h : e < f) :
    (m1 * 10 ^ 9 + m0) * 10 ^ e < (n1 * 10 ^ 9 + n0) * 10 ^ f := by
  obtain ⟨-, h₂, h₃, h₄⟩ := hm
  obtain ⟨h₅, -, h₇, h₈⟩ := hn
  simp only [mantLo, mantHi, Nat.cast_ofNat] at *
  obtain ⟨d, rfl⟩ := Nat.exists_eq_add_of_lt h
  have hp : (0 : Int) < 10 ^ e := by positivity
  have hd : (1 : Int) ≤ 10 ^ d := one_le_pow₀ (by norm_num)
  calc (m1 * 10 ^ 9 + m0) * 10 ^ e < 10 ^ 18 * 10 ^ e := by
        refine mul_lt_mul_of_pos_right ?_ hp
        omega
    _ ≤ (n1 * 10 ^ 9 + n0) * 10 * 10 ^ e := by
        refine mul_le_mul_of_nonneg_right ?_ hp.le
        omega
    _ ≤ (n1 * 10 ^ 9 + n0) * 10 * 10 ^ e * 10 ^ d := le_mul_of_one_le_right (by positivity) hd
    _ = (n1 * 10 ^ 9 + n0) * 10 ^ (e + d + 1) := by ring

/-- The comparison of two magnitudes. -/
def magDiff (e f : Nat) (m1 m0 n1 n0 : Int) : Int :=
  if (e : Int) - f ≠ 0 then (e : Int) - f else if m1 - n1 ≠ 0 then m1 - n1 else m0 - n0

theorem magDiff_sign {e f : Nat} {n1 n0 : Int} (hm : MantWords m1 m0) (hn : MantWords n1 n0) :
    (magDiff e f m1 m0 n1 n0 < 0 ↔ (m1 * 10 ^ 9 + m0) * 10 ^ e < (n1 * 10 ^ 9 + n0) * 10 ^ f) ∧
    (0 < magDiff e f m1 m0 n1 n0 ↔ (n1 * 10 ^ 9 + n0) * 10 ^ f < (m1 * 10 ^ 9 + m0) * 10 ^ e) := by
  unfold magDiff
  rcases lt_trichotomy e f with h | rfl | h
  · have := mag_lt_of_exp hm hn h
    omega
  · have hp : (0 : Int) < 10 ^ e := by positivity
    simp only [mul_lt_mul_iff_left₀ hp]
    obtain ⟨-, -, h₁, h₂⟩ := hm
    obtain ⟨-, -, h₃, h₄⟩ := hn
    simp only [mantHi, Nat.cast_ofNat] at h₂ h₄
    split <;> omega
  · have := mag_lt_of_exp hn hm h
    omega

theorem fltKeyCmp_eq (bSgn : Bool) (bE : Nat) (bM1 bM0 : Int) (hm : a.m1 ≠ 0) :
    fltKeyCmp a bSgn bE bM1 bM0 = (if (if a.sgn then (-1 : Int) else 1) ≠ (if bSgn then -1 else 1) then (if a.sgn then -1 else 1)
      else magDiff a.e bE a.m1 a.m0 bM1 bM0 * (if a.sgn then -1 else 1)) := by
  unfold fltKeyCmp magDiff
  simp only [hm, if_false]
  generalize (if a.sgn then (-1 : Int) else 1) = p
  generalize (if bSgn then (-1 : Int) else 1) = q
  by_cases hpq : p ≠ q
  · rw [if_pos hpq, if_pos hpq]
  · by_cases he : (a.e : Int) - bE ≠ 0
    · rw [if_pos he, if_pos he]
    · rw [if_neg he, if_neg he]
      by_cases h1 : a.m1 - bM1 ≠ 0
      · rw [if_pos h1, if_pos h1]
      · rw [if_neg h1, if_neg h1]
        by_cases h0 : a.m0 - bM0 ≠ 0
        · rw [if_pos h0]
        · rw [if_neg h0, not_not.1 h0, zero_mul]

theorem MantWords.mag_pos (h : MantWords m1 m0) (e : Nat) : 0 < (m1 * 10 ^ 9 + m0) * 10 ^ e := by
  obtain ⟨h₁, -, h₃, -⟩ := h
  simp only [mantLo, Nat.cast_ofNat] at h₁
  refine mul_pos ?_ (by positivity)
  omega

theorem MantWords.ne_zero (h : MantWords m1 m0) : m1 ≠ 0 := by
  have := h.1
  simp only [mantLo, Nat.cast_ofNat] at this
  omega

/-- The comparison of two numbers that are not zero. -/
theorem fltKeyCmp_side {bSgn : Bool} {bE : Nat} {bM1 bM0 : Int} (ha : MantWords a.m1 a.m0) (hb : MantWords bM1 bM0) :
    sideOf (fltKeyCmp a bSgn bE bM1 bM0) = sideOf (scaledWords a.sgn a.e a.m1 a.m0 - scaledWords bSgn bE bM1 bM0) := by
  obtain ⟨hneg, hpos⟩ := magDiff_sign (e := a.e) (f := bE) ha hb
  have hA := ha.mag_pos a.e
  have hB := hb.mag_pos bE
  rw [fltKeyCmp_eq bSgn bE bM1 bM0 ha.ne_zero]
  unfold scaledWords
  generalize (a.m1 * 10 ^ 9 + a.m0) * 10 ^ a.e = A at *
  generalize (bM1 * 10 ^ 9 + bM0) * 10 ^ bE = B at *
  generalize magDiff a.e bE a.m1 a.m0 bM1 bM0 = d at *
  refine sideOf_eq_of_sign ?_ ?_ <;> cases a.sgn <;> cases bSgn <;> simp <;> omega

/-- The comparison of a number that is not zero with zero. What the node has besides the exponent does not matter. -/
theorem fltKeyCmp_side_zero (bSgn : Bool) (bM1 bM0 : Int) (ha : MantWords a.m1 a.m0) (he : 0 < a.e) :
    sideOf (fltKeyCmp a bSgn 0 bM1 bM0) = sideOf (scaledWords a.sgn a.e a.m1 a.m0 - 0) := by
  have hA := ha.mag_pos a.e
  rw [fltKeyCmp_eq bSgn 0 bM1 bM0 ha.ne_zero]
  unfold scaledWords
  have hd : magDiff a.e 0 a.m1 a.m0 bM1 bM0 = a.e := by
    rw [magDiff, if_pos (by omega)]
    simp
  generalize (a.m1 * 10 ^ 9 + a.m0) * 10 ^ a.e = A at *
  refine sideOf_eq_of_sign ?_ ?_ <;> cases a.sgn <;> cases bSgn <;> simp <;> omega

/-- The comparison of zero with a number that is not zero. -/
theorem fltKeyCmp_zero_side {bSgn : Bool} {bE : Nat} {bM1 bM0 : Int} (hb : MantWords bM1 bM0) (he : 0 < bE) :
    sideOf (fltKeyCmp literalZero bSgn bE bM1 bM0) = sideOf (0 - scaledWords bSgn bE bM1 bM0) := by
  have hB := hb.mag_pos bE
  unfold scaledWords
  generalize (bM1 * 10 ^ 9 + bM0) * 10 ^ bE = B at *
  have hcmp : fltKeyCmp literalZero bSgn bE bM1 bM0 = if bSgn then (1 : Int) else -bE := by
    have he' : (literalZero.e : Int) - bE = -bE := by simp [literalZero]
    simp only [fltKeyCmp, he', show literalZero.sgn = false from rfl, Bool.false_eq_true, if_false]
    cases bSgn
    · rw [if_neg (by decide), if_pos (by omega)]
      simp
    · simp
  rw [hcmp]
  refine sideOf_eq_of_sign ?_ ?_ <;> cases bSgn <;> simp <;> omega

/-! ## Integers -/

/-- The mantissa of an integer that is not zero. -/
theorem promoted {m : Int} (hne : m ≠ 0) (hm : m.natAbs < mantHi) :
    let exp := promoteExp 9 m.natAbs 0
    MantWords (m.natAbs * tenPwr (9 - exp) : Nat) 0 ∧
      scaledWords (decide (m < 0)) (59 + exp) (m.natAbs * tenPwr (9 - exp) : Nat) 0 = m * 10 ^ 77 := by
  intro exp
  obtain ⟨h₁, h₂, h₃⟩ := promoteExp_spec (n := 9) (m := m.natAbs) (e := 0) (.inl rfl) (by simpa [mantHi] using hm)
  have hexp : exp = promoteExp 9 m.natAbs 0 := rfl
  rw [← hexp] at h₁ h₂ h₃
  have hexp0 : exp ≠ 0 := by
    rintro h0
    rw [h0] at h₁
    omega
  have hlo : 10 ^ (exp - 1) ≤ m.natAbs := h₂.resolve_left hexp0
  refine ⟨⟨?_, ?_, le_refl _, by simp [mantHi]⟩, ?_⟩
  · have : 10 ^ 8 ≤ m.natAbs * 10 ^ (9 - exp) :=
      calc 10 ^ 8 = 10 ^ (exp - 1) * 10 ^ (9 - exp) := by rw [← pow_add]; congr 1; omega
        _ ≤ m.natAbs * 10 ^ (9 - exp) := Nat.mul_le_mul_right _ hlo
    exact_mod_cast this
  · have : m.natAbs * 10 ^ (9 - exp) < 10 ^ 9 :=
      calc m.natAbs * 10 ^ (9 - exp) < 10 ^ exp * 10 ^ (9 - exp) := Nat.mul_lt_mul_of_pos_right h₁ (by positivity)
        _ = 10 ^ 9 := by rw [← pow_add]; congr 1; omega
    exact_mod_cast this
  · have hsign : (if decide (m < 0) then (-1 : Int) else 1) * m.natAbs = m := by
      by_cases h : m < 0
      · simp only [h, decide_true, if_true]
        omega
      · simp only [h, decide_false, Bool.false_eq_true, if_false]
        omega
    have hpow : (10 : Int) ^ (9 - exp) * 10 ^ 9 * 10 ^ (59 + exp) = 10 ^ 77 := by
      rw [← pow_add, ← pow_add]
      congr 1
      omega
    calc scaledWords (decide (m < 0)) (59 + exp) (m.natAbs * 10 ^ (9 - exp) : Nat) 0
        = ((if decide (m < 0) then (-1 : Int) else 1) * m.natAbs) * (10 ^ (9 - exp) * 10 ^ 9 * 10 ^ (59 + exp)) := by
          unfold scaledWords
          push_cast
          ring
      _ = m * 10 ^ 77 := by rw [hsign, hpow]

/-! ## Nodes -/

/-- The key of a node is in range, and an integer marked as converted has been. -/
structure LvTreeNode.Valid (n : LvTreeNode) : Prop where
  int : n.int = true → n.canonical = true
  num : n.canonical = true → n.getKey.NumValid
  conv : n.int = true → n.keyIconv = true → lvAvlTreeNodeFltConv n = n

theorem LvTreeNode.SameKey.valid {m : LvTreeNode} (h : m.SameKey n) (hn : n.Valid) : m.Valid where
  int := by
    rw [h.int, h.canonical]
    exact hn.int
  num := by
    have hkey : m.getKey = n.getKey := by
      simp only [LvTreeNode.getKey, h.canonical, h.int, h.keySgn, h.keyE, h.keyM0, h.keyM1, h.keyStr]
    rw [h.canonical, hkey]
    exact hn.num
  conv hi hc := by
    rw [h.int] at hi
    rw [h.keyIconv] at hc
    have hn := hn.conv hi hc
    obtain ⟨_, _, sgn, e, iconv, m0, m1, _⟩ := h
    cases m
    cases n
    simp only [lvAvlTreeNodeFltConv] at hn sgn e iconv m0 m1 ⊢
    split at hn <;> simp_all

/-- A comparison tells the side of a node on which the key `k` is, and keeps the key and the links of the node. -/
structure Compares (k : Subsc) (cmp : LvTreeNode → Int × LvTreeNode) : Prop where
  side {n : LvTreeNode} (hn : n.Valid) : sideOf (cmp n).1 = k.side n.subsc
  valid {n : LvTreeNode} (hn : n.Valid) : (cmp n).2.Valid
  subsc (n : LvTreeNode) : (cmp n).2.subsc = n.subsc
  left (n : LvTreeNode) : (cmp n).2.avlLeft = n.avlLeft
  right (n : LvTreeNode) : (cmp n).2.avlRight = n.avlRight
  parent (n : LvTreeNode) : (cmp n).2.avlParent = n.avlParent
  balance (n : LvTreeNode) : (cmp n).2.balance = n.balance
  dir (n : LvTreeNode) : (cmp n).2.descentDir = n.descentDir

/-- A comparison that leaves the node as it is. -/
theorem Compares.of_fst {cmp : LvTreeNode → Int × LvTreeNode} (h : ∀ n, (cmp n).2 = n)
    (hs : ∀ {n}, LvTreeNode.Valid n → sideOf (cmp n).1 = k.side n.subsc) : Compares k cmp where
  side := hs
  valid {n} hn := by rw [h n]; exact hn
  subsc n := by rw [h n]
  left n := by rw [h n]
  right n := by rw [h n]
  parent n := by rw [h n]
  balance n := by rw [h n]
  dir n := by rw [h n]

theorem subsc_num (h : n.canonical = true) : n.subsc = .num n.getKey.numVal := by
  rw [LvTreeNode.subsc, if_pos h]

theorem subsc_str (h : n.canonical = false) : n.subsc = .str n.keyStr := by
  rw [LvTreeNode.subsc, if_neg (by simp [h])]

theorem scaled_int (hc : n.canonical = true) (hi : n.int = true) : n.getKey.scaled = n.keyM0 * 10 ^ 77 := by
  simp [LvTreeNode.getKey, hc, hi, Mval.scaled]

theorem scaled_words (hc : n.canonical = true) (hi : n.int = false) : n.getKey.scaled = scaledWords n.keySgn n.keyE n.keyM1 n.keyM0 := by
  simp [LvTreeNode.getKey, hc, hi, Mval.scaled]

theorem LvTreeNode.Valid.words (h : n.Valid) (hc : n.canonical = true) (hi : n.int = false) : MantWords n.keyM1 n.keyM0 ∧ 0 < n.keyE := by
  have := h.num hc
  simp only [LvTreeNode.getKey, hc, hi, Mval.NumValid, if_true, Bool.false_eq_true, if_false, expLo] at this
  obtain ⟨h₁, h₂, h₃, h₄, h₅, -⟩ := this
  exact ⟨⟨h₁, h₂, h₃, h₄⟩, by omega⟩

theorem LvTreeNode.Valid.int_lt (h : n.Valid) (hi : n.int = true) : n.keyM0.natAbs < mantHi := by
  have := h.num (h.int hi)
  simpa [LvTreeNode.getKey, h.int hi, hi, Mval.NumValid] using this

/-- `LV_AVL_TREE_INTKEY_CMP`. -/
theorem compares_int {v : Mval} (hi : v.mvtype.int = true) (hv : v.NumValid) : Compares (.num v.numVal) (lvAvlTreeIntkeyCmp v.m1) := by
  have hm : v.m1.natAbs < mantHi := by simpa [Mval.NumValid, hi] using hv
  have hsc : v.scaled = v.m1 * 10 ^ 77 := by simp [Mval.scaled, hi]
  refine .of_fst (fun n => ?_) fun {n} hn => ?_
  · unfold lvAvlTreeIntkeyCmp
    split <;> [rfl; split <;> rfl]
  · unfold lvAvlTreeIntkeyCmp
    cases hni : n.int with
    | true =>
      rw [subsc_num (hn.int hni), side_num, hsc, scaled_int (hn.int hni) hni, if_pos rfl]
      exact sideOf_eq_of_sign (by omega) (by omega)
    | false =>
      rw [if_neg (by simp)]
      cases hnc : n.canonical with
      | true =>
        obtain ⟨hw, he⟩ := hn.words hnc hni
        rw [subsc_num hnc, side_num, hsc, scaled_words hnc hni, if_pos rfl]
        by_cases hz : v.m1 = 0
        · rw [hz, promote, zero_mul]
          exact fltKeyCmp_zero_side hw he
        · obtain ⟨hmw, hms⟩ := promoted hz hm
          simp only [promote, hz, if_false]
          rw [fltKeyCmp_side hmw hw, ← hms]
          rfl
      | false =>
        rw [subsc_str hnc]
        rfl

/-- The conversion of an integer key keeps its value. -/
theorem fltConv_subsc (n : LvTreeNode) (hi : n.int = true) : (lvAvlTreeNodeFltConv n).subsc = n.subsc := by
  unfold lvAvlTreeNodeFltConv
  split <;> simp [LvTreeNode.subsc, LvTreeNode.getKey, hi]

theorem fltConv_idem (n : LvTreeNode) : lvAvlTreeNodeFltConv (lvAvlTreeNodeFltConv n) = lvAvlTreeNodeFltConv n := by
  simp only [lvAvlTreeNodeFltConv]
  split <;> simp [*]

theorem fltConv_valid (hi : n.int = true) (hn : n.Valid) : (lvAvlTreeNodeFltConv n).Valid where
  int _ := by
    have := hn.int hi
    unfold lvAvlTreeNodeFltConv
    split <;> exact this
  num _ := by
    have := hn.num (hn.int hi)
    unfold lvAvlTreeNodeFltConv
    split <;> simpa [LvTreeNode.getKey, hi, hn.int hi] using this
  conv _ _ := fltConv_idem n

/-- A node after `LV_AVL_TREE_NUMKEY_CMP` has made sure that an integer key is converted. -/
def converted (n : LvTreeNode) : LvTreeNode := if n.int && !n.keyIconv then lvAvlTreeNodeFltConv n else n

theorem LvTreeNode.Valid.converted_eq (hn : n.Valid) (hi : n.int = true) : converted n = lvAvlTreeNodeFltConv n := by
  rw [converted, hi]
  cases hc : n.keyIconv
  · rfl
  · exact (hn.conv hi hc).symm

/-- `LV_AVL_TREE_NUMKEY_CMP`. -/
theorem compares_num {v : Mval} (hi : v.mvtype.int = false) (hv : v.NumValid) : Compares (.num v.numVal) (lvAvlTreeNumkeyCmp v) := by
  obtain ⟨h₁, h₂, h₃, h₄, h₅, -⟩ : (mantLo : Int) ≤ v.m1 ∧ v.m1 < mantHi ∧ 0 ≤ v.m0 ∧ v.m0 < mantHi ∧ expLo ≤ v.e ∧ v.e < expHi := by
    simpa [Mval.NumValid, hi] using hv
  have hw : MantWords v.m1 v.m0 := ⟨h₁, h₂, h₃, h₄⟩
  have he : 0 < v.e := by
    simp only [expLo] at h₅
    omega
  have hsc : v.scaled = scaledWords v.sgn v.e v.m1 v.m0 := by simp [Mval.scaled, hi]
  have hsnd : ∀ n, (lvAvlTreeNumkeyCmp v n).2 = if n.canonical then converted n else n := by
    intro n
    unfold lvAvlTreeNumkeyCmp converted
    split <;> rfl
  -- the node is as it was, or its integer key is converted
  have hcases : ∀ n, (lvAvlTreeNumkeyCmp v n).2 = n ∨ (n.int = true ∧ (lvAvlTreeNumkeyCmp v n).2 = lvAvlTreeNodeFltConv n) := by
    intro n
    rw [hsnd, converted]
    cases n.canonical <;> cases n.int <;> cases n.keyIconv <;> simp
  have hfield : ∀ {β : Type} (f : LvTreeNode → β), (∀ n, f (lvAvlTreeNodeFltConv n) = f n) → ∀ n, f (lvAvlTreeNumkeyCmp v n).2 = f n := by
    intro β f hf n
    rcases hcases n with h | ⟨-, h⟩
    · rw [h]
    · rw [h, hf]
  refine ⟨fun {n} hn => ?_, fun {n} hn => ?_, fun n => ?_, hfield _ ?_, hfield _ ?_, hfield _ ?_, hfield _ ?_, hfield _ ?_⟩
  · cases hnc : n.canonical with
    | false =>
      simp only [lvAvlTreeNumkeyCmp, hnc, Bool.false_eq_true, if_false, subsc_str hnc]
      rfl
    | true =>
      have hfst : (lvAvlTreeNumkeyCmp v n).1 = fltKeyCmp v (converted n).keySgn (converted n).keyE (converted n).keyM1
          (if (converted n).int then 0 else (converted n).keyM0) := by
        simp only [lvAvlTreeNumkeyCmp, hnc, if_true]
        rfl
      rw [hfst, subsc_num hnc, side_num, hsc]
      cases hni : n.int with
      | false =>
        have hconv : converted n = n := by simp [converted, hni]
        rw [hconv, hni, scaled_words hnc hni]
        exact fltKeyCmp_side hw (hn.words hnc hni).1
      | true =>
        rw [hn.converted_eq hni, scaled_int hnc hni]
        by_cases hz : n.keyM0 = 0
        · simp only [lvAvlTreeNodeFltConv, hz, ne_eq, not_true_eq_false, if_false, zero_mul, hni, if_true]
          exact fltKeyCmp_side_zero _ _ _ hw he
        · obtain ⟨hmw, hms⟩ := promoted hz (hn.int_lt hni)
          simp only [lvAvlTreeNodeFltConv, hz, ne_eq, not_false_eq_true, if_true, hni]
          rw [fltKeyCmp_side hw hmw, ← hms, Nat.add_comm 59]
          rfl
  · rcases hcases n with h | ⟨hni, h⟩
    · rw [h]
      exact hn
    · rw [h]
      exact fltConv_valid hni hn
  · rcases hcases n with h | ⟨hni, h⟩
    · rw [h]
    · rw [h, fltConv_subsc n hni]
  all_goals
    intro n
    unfold lvAvlTreeNodeFltConv
    split <;> rfl

theorem memvcmp_side (s t : List UInt8) : sideOf (memvcmp s t) = Subsc.side (.str s) (.str t) := by
  induction s generalizing t with
  | nil => cases t <;> simp [memvcmp, sideOf, Subsc.side]
  | cons a s ih =>
    cases t with
    | nil => simp [memvcmp, sideOf, Subsc.side]
    | cons b t =>
      rw [memvcmp]
      rcases lt_trichotomy a b with h | rfl | h
      · simp [sideOf, Subsc.side, h, h.ne, List.cons_lt_cons_iff]
      · simpa [Subsc.side, List.cons_lt_cons_iff] using ih t
      · simp [sideOf, Subsc.side, h, h.ne', not_lt_of_gt h, List.cons_lt_cons_iff]

/-- `LV_AVL_TREE_STRKEY_CMP`. -/
theorem compares_str (s : List UInt8) : Compares (.str s) (lvAvlTreeStrkeyCmp s) := by
  refine .of_fst (fun n => ?_) fun {n} _ => ?_
  · unfold lvAvlTreeStrkeyCmp
    split <;> rfl
  · unfold lvAvlTreeStrkeyCmp
    cases hc : n.canonical with
    | true =>
      rw [subsc_num hc]
      rfl
    | false =>
      rw [subsc_str hc]
      exact memvcmp_side s n.keyStr

/-- The comparison that the lookup of a key uses. -/
def TreeKey.cmp (k : TreeKey) : LvTreeNode → Int × LvTreeNode :=
  if k.canonical then if k.key.mvtype.int then lvAvlTreeIntkeyCmp k.key.m1 else lvAvlTreeNumkeyCmp k.key
  else lvAvlTreeStrkeyCmp k.key.str

theorem lvAvlTreeLookup_eq (k : TreeKey) : lvAvlTreeLookup k = lvAvlTreeLookupBy k.cmp := by
  unfold lvAvlTreeLookup TreeKey.cmp
  split <;> [split <;> rfl; rfl]

theorem TreeKey.compares (k : TreeKey) : Compares k.subsc k.cmp := by
  unfold TreeKey.subsc TreeKey.cmp
  cases hc : k.canonical with
  | true =>
    cases hi : k.key.mvtype.int with
    | true => exact compares_int hi (k.valid hc)
    | false => exact compares_num hi (k.valid hc)
  | false => exact compares_str _

/-- A node made for a key has the key. -/
theorem initNode_key (k : TreeKey) (parent : Option Nat) (slot : LvTreeNode) :
    (initNode k parent slot).Valid ∧ (initNode k parent slot).subsc = k.subsc := by
  unfold initNode TreeKey.subsc
  cases hc : k.canonical with
  | true =>
    have hv := k.valid hc
    cases hi : k.key.mvtype.int with
    | true =>
      refine ⟨⟨fun _ => rfl, fun _ => ?_, by simp⟩, ?_⟩
      · simpa [LvTreeNode.getKey, Mval.NumValid, hi] using hv
      · simp [LvTreeNode.subsc, LvTreeNode.getKey, Mval.numVal, hi]
    | false =>
      refine ⟨⟨fun _ => rfl, fun _ => ?_, by simp⟩, ?_⟩
      · simpa [LvTreeNode.getKey, Mval.NumValid, hi] using hv
      · simp [LvTreeNode.subsc, LvTreeNode.getKey, Mval.numVal, hi]
  | false => exact ⟨⟨by simp, by simp, by simp⟩, by simp [LvTreeNode.subsc]⟩

end Gtm
