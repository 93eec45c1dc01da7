import Gtm.Lemmas.AvlKeys
import Gtm.Lv.NumKey
import Gtm.Theorems.NumberOrder

/-!
# One order of the numeric keys

The comparisons of numeric keys stay within an `int` and give the sign of the difference of the values, whether a key is an `MV_INT`
or not and whether the node has it in converted form, so that they are one strict order, that of `numcmp`.
-/

namespace Gtm

/-- A numeric key of a lookup. -/
abbrev NumTreeKey := { k : TreeKey // k.canonical = true ∧ k.key.mvtype.nm = true }

/-- A node with a numeric key. -/
abbrev LvNumNode := { n : LvTreeNode // n.Valid ∧ n.canonical = true }

theorem LvNumNode.getKey_nm (n : LvNumNode) : n.1.getKey.mvtype.nm = true := by
  unfold LvTreeNode.getKey
  rw [if_pos n.2.2]
  split <;> rfl

/-- The key of a node (`LV_NUM_NODE_GET_KEY`). -/
def LvNumNode.treeKey (n : LvNumNode) : NumTreeKey := ⟨⟨n.1.getKey, true, fun _ => n.2.1.num n.2.2⟩, rfl, n.getKey_nm⟩

/-- The comparison puts the key of the first node before that of the second. -/
def LvNumNode.Before (n n' : LvNumNode) : Prop := ∃ c m, n.treeKey.1.numCmpIn n'.1 = some (c, m) ∧ c < 0

namespace NumberKeysAux

open EbMulAux NumberOrderAux

variable {a v : Mval} {n : LvTreeNode} {bSgn : Bool} {bE : Nat} {bM1 bM0 m : Int}

/-! ## Within an `int` -/

theorem fltM1In_eq (hm : m.natAbs < mantHi) (hne : m ≠ 0) : fltM1In m = some (m.natAbs * tenPwr (9 - promoteExp 9 m.natAbs 0) : Nat) := by
  obtain ⟨⟨-, hhi, -, -⟩, -⟩ := promoted hne hm
  have habs : (if 0 < m then some m else int4 (-m)) = some (m.natAbs : Int) := by
    simp only [mantHi] at hm
    split
    · rw [show (m.natAbs : Int) = m by omega]
    · rw [int4_eq (by omega) (by omega), show (m.natAbs : Int) = -m by omega]
  have hprod : ((m.natAbs * tenPwr (9 - promoteExp 9 m.natAbs 0) : Nat) : Int) < 2147483648 := by
    simp only [mantHi] at hhi
    omega
  rw [fltM1In, habs]
  rw [Option.bind_some, ← Nat.cast_mul]
  exact int4_eq (by omega) hprod

theorem promoteExp_le (hm : m.natAbs < mantHi) : promoteExp 9 m.natAbs 0 ≤ 9 :=
  (promoteExp_spec (.inl rfl) (by simpa [mantHi] using hm)).2.2

theorem promoteIn_eq (hm : v.m1.natAbs < mantHi) : promoteIn v = some (promote v) := by
  have hexp := promoteExp_le hm
  unfold promoteIn promote
  split
  · rfl
  · next hne =>
    rw [fltM1In_eq hm hne]
    exact if_pos (by simp only [mvXbias]; omega)

theorem fltConvIn_eq (hm : n.keyM0.natAbs < mantHi) : lvAvlTreeNodeFltConvIn n = some (lvAvlTreeNodeFltConv n) := by
  have hexp := promoteExp_le hm
  unfold lvAvlTreeNodeFltConvIn lvAvlTreeNodeFltConv
  split
  · next hne =>
    rw [fltM1In_eq hm hne]
    exact if_pos (by simp only [mvXbias]; omega)
  · rfl

/-- The comparison looks at the mantissas only behind equal exponents. -/
theorem fltKeyCmpIn_eq (ha : a.e < 2 ^ 7) (hb : bE < 2 ^ 7) (hwords : a.e = bE → MantWords a.m1 a.m0 ∧ MantWords bM1 bM0) :
    fltKeyCmpIn a bSgn bE bM1 bM0 = some (fltKeyCmp a bSgn bE bM1 bM0) := by
  have hsgn : (if a.sgn then (-1 : Int) else 1) = -1 ∨ (if a.sgn then (-1 : Int) else 1) = 1 := by
    cases a.sgn
    · exact .inr rfl
    · exact .inl rfl
  unfold fltKeyCmpIn fltKeyCmp
  generalize (if a.sgn then (-1 : Int) else 1) = s at *
  have hmul : ∀ {x : Int}, -2147483648 < x → x < 2147483648 → int4 (x * s) = some (x * s) := by
    intro x hlo hhi
    rcases hsgn with rfl | rfl
    · exact int4_eq (by omega) (by omega)
    · exact int4_eq (by omega) (by omega)
  by_cases hs : s ≠ if bSgn then -1 else 1
  · rw [if_pos hs, if_pos hs]
  · rw [if_neg hs, if_neg hs, int4_bind (by omega) (by omega)]
    by_cases he : (a.e : Int) - bE ≠ 0
    · rw [if_pos he, if_pos he]
      exact hmul (by omega) (by omega)
    · obtain ⟨⟨ha1, ha2, ha3, ha4⟩, hb1, hb2, hb3, hb4⟩ := hwords (by omega)
      simp only [mantLo, mantHi] at ha1 ha2 ha4 hb1 hb2 hb4
      rw [if_neg he, if_neg he, int4_bind (by omega) (by omega)]
      by_cases h1 : a.m1 - bM1 ≠ 0
      · rw [if_pos h1, if_pos h1]
        exact hmul (by omega) (by omega)
      · rw [if_neg h1, if_neg h1, if_neg (by omega), if_neg (by omega), int4_bind (by omega) (by omega)]
        by_cases h0 : a.m0 - bM0 ≠ 0
        · rw [if_pos h0, if_pos h0]
          exact hmul (by omega) (by omega)
        · rw [if_neg h0, if_neg h0]

theorem words_of_num (hi : v.mvtype.int = false) (hv : v.NumValid) : MantWords v.m1 v.m0 ∧ expLo ≤ v.e ∧ v.e < expHi := by
  obtain ⟨h₁, h₂, h₃, h₄, h₅, h₆⟩ : (mantLo : Int) ≤ v.m1 ∧ v.m1 < mantHi ∧ 0 ≤ v.m0 ∧ v.m0 < mantHi ∧ expLo ≤ v.e ∧ v.e < expHi := by
    simpa [Mval.NumValid, hi] using hv
  exact ⟨⟨h₁, h₂, h₃, h₄⟩, h₅, h₆⟩

/-- The words of a key that is no `MV_INT`. -/
theorem node_words (hn : n.Valid) (hc : n.canonical = true) (hi : n.int = false) :
    MantWords n.keyM1 n.keyM0 ∧ expLo ≤ n.keyE ∧ n.keyE < expHi := by
  have hkey := hn.num hc
  have hget : n.getKey = { mvtype := { nm := true }, sgn := n.keySgn, e := n.keyE, m0 := n.keyM0, m1 := n.keyM1 } := by
    simp [LvTreeNode.getKey, hc, hi]
  rw [hget] at hkey
  exact words_of_num rfl hkey

theorem intkeyCmpIn_eq (hm : m.natAbs < mantHi) (hn : n.Valid) (hc : n.canonical = true) :
    lvAvlTreeIntkeyCmpIn m n = some (lvAvlTreeIntkeyCmp m n) := by
  unfold lvAvlTreeIntkeyCmpIn lvAvlTreeIntkeyCmp
  cases hi : n.int with
  | true =>
    have hlt := hn.int_lt hi
    simp only [mantHi] at hm hlt
    rw [if_pos rfl, int4_bind (by omega) (by omega)]
    rfl
  | false =>
    obtain ⟨hw, hlo, hhi⟩ := node_words hn hc hi
    simp only [expLo, expHi] at hlo hhi
    rw [if_neg Bool.false_ne_true, if_pos hc, if_pos hc, promoteIn_eq hm]
    show (do return (← fltKeyCmpIn _ n.keySgn n.keyE n.keyM1 n.keyM0, n)) = _
    have hcmp : ∀ {x : Mval}, x.e < 2 ^ 7 → (x.e = n.keyE → MantWords x.m1 x.m0) →
        (do return (← fltKeyCmpIn x n.keySgn n.keyE n.keyM1 n.keyM0, n)) = some (fltKeyCmp x n.keySgn n.keyE n.keyM1 n.keyM0, n) := by
      intro x he hx
      rw [fltKeyCmpIn_eq he (by omega) fun h => ⟨hx h, hw⟩]
      rfl
    by_cases hz : m = 0
    · rw [hz, promote]
      refine hcmp (by decide) fun h => ?_
      rw [← h] at hlo
      exact absurd hlo (by decide)
    · have hexp := promoteExp_le hm
      refine hcmp ?_ fun _ => ?_
      · simp only [promote, hz, if_false, mvXbias]
        omega
      · simp only [promote, hz, if_false]
        exact (promoted hz hm).1

/-- A converted integer key: zero has the exponent zero, any other one has a mantissa. -/
theorem fltConv_words (hm : n.keyM0.natAbs < mantHi) : (lvAvlTreeNodeFltConv n).keyE < 2 ^ 7 ∧
    ((lvAvlTreeNodeFltConv n).keyE = 0 ∨ MantWords (lvAvlTreeNodeFltConv n).keyM1 0) := by
  have hexp := promoteExp_le hm
  unfold lvAvlTreeNodeFltConv
  split
  · next hne =>
    refine ⟨?_, .inr (promoted hne hm).1⟩
    simp only [mvXbias]
    omega
  · exact ⟨Nat.two_pow_pos 7, .inl rfl⟩

theorem numkeyCmpIn_eq (hi : v.mvtype.int = false) (hv : v.NumValid) (hn : n.Valid) (hc : n.canonical = true) :
    lvAvlTreeNumkeyCmpIn v n = some (lvAvlTreeNumkeyCmp v n) := by
  obtain ⟨hw, hlo, hhi⟩ := words_of_num hi hv
  simp only [expLo, expHi] at hlo hhi
  have hconv : (if n.int && !n.keyIconv then lvAvlTreeNodeFltConvIn n else some n) = some (converted n) := by
    unfold converted
    split
    · next h =>
      exact fltConvIn_eq (hn.int_lt (Bool.and_eq_true_iff.1 h).1)
    · rfl
  have hcmp : fltKeyCmpIn v (converted n).keySgn (converted n).keyE (converted n).keyM1
      (if (converted n).int then 0 else (converted n).keyM0) = some (fltKeyCmp v (converted n).keySgn (converted n).keyE
        (converted n).keyM1 (if (converted n).int then 0 else (converted n).keyM0)) := by
    cases hni : n.int with
    | false =>
      obtain ⟨hnw, -, hnhi⟩ := node_words hn hc hni
      simp only [expHi] at hnhi
      rw [show converted n = n by simp [converted, hni], hni]
      exact fltKeyCmpIn_eq (by omega) (by omega) fun _ => ⟨hw, hnw⟩
    | true =>
      obtain ⟨he, hwords⟩ := fltConv_words (hn.int_lt hni)
      have hint : (lvAvlTreeNodeFltConv n).int = true := by
        unfold lvAvlTreeNodeFltConv
        split <;> exact hni
      rw [hn.converted_eq hni, hint]
      exact fltKeyCmpIn_eq (by omega) he fun h => ⟨hw, hwords.resolve_left (by omega)⟩
  unfold lvAvlTreeNumkeyCmpIn lvAvlTreeNumkeyCmp
  rw [if_pos hc, if_pos hc, hconv]
  show (do return (← fltKeyCmpIn v (converted n).keySgn _ _ _, converted n)) = _
  rw [hcmp]
  rfl

theorem numCmpIn_eq (k : NumTreeKey) (n : LvNumNode) : k.1.numCmpIn n.1 = some (k.1.cmp n.1) := by
  have hvalid := k.1.valid k.2.1
  unfold TreeKey.numCmpIn TreeKey.cmp
  rw [if_pos k.2.1]
  cases hi : k.1.key.mvtype.int with
  | true => exact intkeyCmpIn_eq (by simpa [Mval.NumValid, hi] using hvalid) n.2.1 n.2.2
  | false => exact numkeyCmpIn_eq hi hvalid n.2.1 n.2.2

/-! ## The sign -/

/-- The side of a comparison of two numbers. -/
theorem cmp_iff_of_side {c : Int} {p q : ℚ} (h : sideOf c = Subsc.side (.num p) (.num q)) : (c < 0 ↔ p < q) ∧ (c = 0 ↔ p = q) := by
  simp only [sideOf, Subsc.side] at h
  rcases lt_trichotomy p q with hpq | rfl | hpq
  · rw [if_neg hpq.ne] at h
    split at h
    · cases h
    · split at h
      · exact ⟨by simp [*], by simp [*, hpq.ne]⟩
      · cases h
  · rw [if_pos rfl] at h
    split at h
    · exact ⟨by simp [*], by simp [*]⟩
    · split at h <;> cases h
  · rw [if_neg hpq.ne', if_neg (not_lt_of_gt hpq)] at h
    split at h
    · cases h
    · split at h
      · cases h
      · exact ⟨by simp [*, hpq.le], by simp [*, hpq.ne']⟩

/-- The key of a node does not change when the node is converted. -/
theorem cmp_getKey (k : TreeKey) (n : LvTreeNode) : (k.cmp n).2.getKey = n.getKey ∧ (k.cmp n).2.canonical = n.canonical := by
  have hconv : n.int = true → (lvAvlTreeNodeFltConv n).getKey = n.getKey ∧ (lvAvlTreeNodeFltConv n).canonical = n.canonical := by
    intro hi
    unfold lvAvlTreeNodeFltConv
    split <;> simp [LvTreeNode.getKey, hi]
  unfold TreeKey.cmp lvAvlTreeIntkeyCmp lvAvlTreeNumkeyCmp lvAvlTreeStrkeyCmp
  split
  · split <;> dsimp only
    · split
      · exact ⟨rfl, rfl⟩
      · split <;> exact ⟨rfl, rfl⟩
    · split
      · split
        · next h => exact hconv (Bool.and_eq_true_iff.1 h).1
        · exact ⟨rfl, rfl⟩
      · exact ⟨rfl, rfl⟩
  · dsimp only
    split <;> exact ⟨rfl, rfl⟩

theorem cmp_iff (k : NumTreeKey) (n : LvNumNode) : ((k.1.cmp n.1).1 < 0 ↔ k.1.key.numVal < n.1.getKey.numVal) ∧
    ((k.1.cmp n.1).1 = 0 ↔ k.1.key.numVal = n.1.getKey.numVal) := by
  refine cmp_iff_of_side ?_
  rw [k.1.compares.side n.2.1, subsc_num n.2.2, TreeKey.subsc, if_pos k.2.1]

theorem cmp_sign (k : NumTreeKey) (n : LvNumNode) :
    (SignType.sign (k.1.cmp n.1).1 : ℤ) = (SignType.sign (k.1.key.numVal - n.1.getKey.numVal) : ℤ) := by
  obtain ⟨hlt, heq⟩ := cmp_iff k n
  rcases lt_trichotomy k.1.key.numVal n.1.getKey.numVal with h | h | h
  · rw [sign_of_lt h, sign_neg (hlt.2 h)]
    rfl
  · rw [heq.2 h, h, sub_self, sign_zero, sign_zero]
  · have hneg := mt hlt.1 (not_lt_of_gt h)
    have hzero := mt heq.1 h.ne'
    rw [sign_of_gt h, sign_pos (by omega)]
    rfl

theorem before_iff (n n' : LvNumNode) : n.Before n' ↔ n.1.getKey.numVal < n'.1.getKey.numVal := by
  unfold LvNumNode.Before
  rw [numCmpIn_eq]
  refine Iff.trans ?_ (cmp_iff n.treeKey n').1
  constructor
  · rintro ⟨c, m, h, hc⟩
    rw [congrArg Prod.fst (Option.some.inj h)]
    exact hc
  · intro h
    exact ⟨_, _, rfl, h⟩

end NumberKeysAux

open NumberOrderAux NumberKeysAux

/-- The comparison of a numeric key with the numeric key of a node fits an `int`, has the sign of the difference and agrees with
`numcmp`; what it leaves in the node is the same key. So the nodes of numbers are in one strict order, that of their values. -/
theorem lvNumKeyCmp_orders :
    (∀ (k : NumTreeKey) (n : LvNumNode), ∃ (c : Int) (m : LvNumNode), k.1.numCmpIn n.1 = some (c, m.1) ∧
      m.1.getKey = n.1.getKey ∧ (SignType.sign c : ℤ) = (SignType.sign (k.1.key.numVal - n.1.getKey.numVal) : ℤ) ∧
      numcmp k.1.key n.1.getKey = .ok (SignType.sign c : ℤ)) ∧
    (∀ n : LvNumNode, ¬ n.Before n) ∧
    (∀ n n' n'' : LvNumNode, n.Before n' → n'.Before n'' → n.Before n'') ∧
    (∀ n n' : LvNumNode, n.Before n' ∨ n.1.getKey.numVal = n'.1.getKey.numVal ∨ n'.Before n) := by
  refine ⟨fun k n => ?_, fun n => ?_, fun n n' n'' => ?_, fun n n' => ?_⟩
  · obtain ⟨hkey, hc⟩ := cmp_getKey k.1 n.1
    refine ⟨(k.1.cmp n.1).1, ⟨(k.1.cmp n.1).2, k.1.compares.valid n.2.1, hc.trans n.2.2⟩, numCmpIn_eq k n, hkey, cmp_sign k n, ?_⟩
    rw [cmp_sign k n]
    exact numcmp_sign ⟨k.2.2, k.1.valid k.2.1⟩ ⟨n.getKey_nm, n.2.1.num n.2.2⟩
  · rw [before_iff]
    exact lt_irrefl _
  · rw [before_iff, before_iff, before_iff]
    exact lt_trans
  · rw [before_iff, before_iff]
    exact lt_trichotomy _ _

end Gtm
