import Gtm.Lemmas.TreeWalk
import Gtm.Theorems.LocalVarTree

/-!
# Walks in collation order

The tree keeps the null subscript after the numbers, and with standard null collation it comes before them. The walk of `op_fnquery`
over a tree comes to every node once in collation order in both cases, and the step from a key comes to the first node after it.
-/

namespace Gtm

open BalTree BinTree

/-- The nodes that a walk comes to in `n` steps at most. -/
def walkFrom (next : Nat → Option Nat) : Nat → Option Nat → List Nat
  | 0, _ => []
  | _ + 1, none => []
  | n + 1, some p => p :: walkFrom next n (next p)

/-- The node is the first one after `k` of those in use, or there is none. -/
def IsFirstAfter (lt : Subsc → Subsc → Prop) (key : Nat → Subsc) (slots : Finset Nat) (k : Subsc) : Option Nat → Prop
  | some q => q ∈ slots ∧ lt k (key q) ∧ ∀ p ∈ slots, lt k (key p) → p = q ∨ lt (key q) (key p)
  | none => ∀ p ∈ slots, ¬lt k (key p)

/-- A key that is no number is a string, and a number has no empty text. -/
structure TreeKey.TextOk (k : TreeKey) : Prop where
  num (h : k.canonical = true) : (k.key.mvtype.str && k.key.str.isEmpty) = false
  str (h : k.canonical = false) : k.key.mvtype.str = true

namespace TreeCollationAux

open LocalVarTreeAux

theorem walkFrom_eq {next : Nat → Option Nat} {L : List Nat} (h : ∀ A p B, L = A ++ p :: B → next p = B.head?) {n : Nat}
    (hn : L.length ≤ n) : walkFrom next n L.head? = L := by
  induction L generalizing n with
  | nil => cases n <;> rfl
  | cons p L ih =>
    obtain ⟨n, rfl⟩ := Nat.exists_eq_succ_of_ne_zero (Nat.ne_zero_of_lt (Nat.lt_of_lt_of_le (Nat.succ_pos _) hn))
    rw [List.head?_cons, walkFrom, h [] p L rfl, ih (fun A q B hq => h (p :: A) q B (by rw [hq]; rfl)) (Nat.le_of_succ_le_succ hn)]

/-! ## The null subscript -/

section Null

variable {s : LvTreeState} {ns : LvNodes} {t : BinTree Nat} {L : List Nat}

theorem isNullSubs_iff (n : LvTreeNode) : n.isNullSubs = true ↔ n.subsc = .str [] := by
  cases hc : n.canonical <;> simp [LvTreeNode.isNullSubs, LvTreeNode.subsc, hc]

/-- The nodes with subscripts other than the null subscript. -/
def notNull (ns : LvNodes) (L : List Nat) : List Nat := L.filter fun p => !(ns p).isNullSubs

/-- The nodes in collation order. -/
def collated (stdNull : Bool) (ns : LvNodes) (L : List Nat) : List Nat :=
  if stdNull then (L.filter fun p => (ns p).isNullSubs) ++ notNull ns L else L

theorem lt_std_of_lt {x y : Subsc} (hx : x ≠ .str []) (hy : y ≠ .str []) : x.Lt false y ↔ x.Lt true y := by
  cases x <;> cases y <;> simp_all [Subsc.Lt]

theorem null_lt_std {x : Subsc} (hx : x ≠ .str []) : Subsc.Lt true (.str []) x := by
  cases x with
  | num q => simp [Subsc.Lt]
  | str t =>
    cases t with
    | nil => exact absurd rfl hx
    | cons a t => exact List.Lex.nil

theorem not_lt_null_std (x : Subsc) : ¬x.Lt true (.str []) := by
  cases x with
  | num q => simp [Subsc.Lt]
  | str t => exact fun h => by cases h

/-- Behind the node of the null subscript there is no other one. -/
theorem notNull_of_null {q : Nat} (hs : KeysSorted ns (q :: L)) (hq : (ns q).isNullSubs = true) : notNull ns L = L := by
  rw [notNull, List.filter_eq_self]
  intro p hp
  have hlt := (List.pairwise_cons.1 hs).1 p hp
  rw [(isNullSubs_iff _).1 hq] at hlt
  cases hn : (ns p).isNullSubs with
  | false => rfl
  | true =>
    rw [(isNullSubs_iff _).1 hn] at hlt
    exact absurd hlt (Subsc.Lt.irrefl _)

/-- The hop over the null subscript. -/
theorem hopNull_eq {A B : List Nat} (hs : Searchable s t) (ht : t.toList = A ++ B) : hopNull B.head? s = (notNull s.nodes B).head? := by
  cases B with
  | nil => rfl
  | cons q B =>
    rw [List.head?_cons, hopNull, notNull, List.filter_cons]
    cases hq : (s.nodes q).isNullSubs with
    | false => simp
    | true =>
      have hsorted : KeysSorted s.nodes (q :: B) := by
        have hall := hs.sorted
        rw [KeysSorted, ht, List.pairwise_append] at hall
        exact hall.2.1
      have hB := notNull_of_null hsorted hq
      rw [notNull] at hB
      simp only [if_true, Bool.not_true, Bool.false_eq_true, if_false, hB]
      exact (lvAvlTreeStep_eq hs.holds hs.sorted.nodup hs.height.ge ht).1

/-- In a sorted list a key tells the node. -/
theorem key_inj {p q : Nat} (hs : KeysSorted ns L) (hp : p ∈ L) (hq : q ∈ L) (h : (ns p).subsc = (ns q).subsc) : p = q := by
  by_contra hne
  rcases List.pairwise_iff_getElem.1 hs with hall
  obtain ⟨i, hi, rfl⟩ := List.getElem_of_mem hp
  obtain ⟨j, hj, rfl⟩ := List.getElem_of_mem hq
  rcases Nat.lt_trichotomy i j with hij | rfl | hij
  · exact Subsc.Lt.irrefl _ (h ▸ hall i j hi hj hij)
  · exact hne rfl
  · exact Subsc.Lt.irrefl _ (h ▸ hall j i hj hi hij)

theorem collated_null {n : Nat} (hs : KeysSorted ns L) (hn : n ∈ L) (h : (ns n).subsc = .str []) : (collated true ns L).head? = some n := by
  have hmem : n ∈ L.filter fun p => (ns p).isNullSubs := List.mem_filter.2 ⟨hn, (isNullSubs_iff _).2 h⟩
  rw [collated]
  cases hZ : L.filter fun p => (ns p).isNullSubs with
  | nil =>
    rw [hZ] at hmem
    exact absurd hmem (by simp)
  | cons z Z =>
    have hz : z ∈ L.filter fun p => (ns p).isNullSubs := by simp [hZ]
    obtain ⟨hzL, hznull⟩ := List.mem_filter.1 hz
    rw [key_inj hs hn hzL (h.trans ((isNullSubs_iff _).1 hznull).symm)]
    rfl

theorem collated_of_missing (h : ∀ p ∈ L, (ns p).subsc ≠ .str []) : collated true ns L = L := by
  have hnot : ∀ p ∈ L, (ns p).isNullSubs = false := fun p hp => by simpa [← isNullSubs_iff] using h p hp
  rw [collated, if_pos rfl, notNull, List.filter_eq_nil_iff.2 fun p hp => by simp [hnot p hp], List.nil_append,
    List.filter_eq_self.2 fun p hp => by simp [hnot p hp]]

theorem isNullSubs_congr {ns' : LvNodes} {p : Nat} (h : (ns' p).subsc = (ns p).subsc) : (ns' p).isNullSubs = (ns p).isNullSubs := by
  rw [Bool.eq_iff_iff, isNullSubs_iff, isNullSubs_iff, h]

theorem collated_congr {stdNull : Bool} {ns' : LvNodes} (h : ∀ p, (ns' p).subsc = (ns p).subsc) :
    collated stdNull ns' L = collated stdNull ns L := by
  simp only [collated, notNull, isNullSubs_congr (h _)]

theorem collated_perm (stdNull : Bool) (ns : LvNodes) (L : List Nat) : (collated stdNull ns L).Perm L := by
  unfold collated
  split
  · exact List.filter_append_perm _ L
  · exact .refl _

theorem notNull_sorted (hs : KeysSorted ns L) : (notNull ns L).Pairwise fun p q => (ns p).subsc.Lt true (ns q).subsc := by
  refine List.Pairwise.imp_of_mem (fun {p q} hp hq hlt => ?_) (hs.filter _)
  have hp' : (ns p).subsc ≠ .str [] := by simpa [← isNullSubs_iff] using (List.mem_filter.1 hp).2
  have hq' : (ns q).subsc ≠ .str [] := by simpa [← isNullSubs_iff] using (List.mem_filter.1 hq).2
  exact (lt_std_of_lt hp' hq').1 hlt

theorem mem_notNull {p : Nat} : p ∈ notNull ns L ↔ p ∈ L ∧ (ns p).subsc ≠ .str [] := by
  rw [notNull, ne_eq, ← isNullSubs_iff]
  simp

theorem collated_sorted (stdNull : Bool) (hs : KeysSorted ns L) :
    (collated stdNull ns L).Pairwise fun p q => (ns p).subsc.Lt stdNull (ns q).subsc := by
  unfold collated
  cases stdNull with
  | false => exact hs
  | true =>
    rw [if_pos rfl, List.pairwise_append]
    refine ⟨?_, notNull_sorted hs, ?_⟩
    · refine List.Pairwise.imp_of_mem (fun {p q} hp hq hlt => ?_) (hs.filter _)
      have hp' := (isNullSubs_iff _).1 (List.mem_filter.1 hp).2
      have hq' := (isNullSubs_iff _).1 (List.mem_filter.1 hq).2
      rw [hp', hq'] at hlt
      exact absurd hlt (Subsc.Lt.irrefl _)
    · intro p hp q hq
      rw [(isNullSubs_iff _).1 (List.mem_filter.1 hp).2]
      exact null_lt_std (mem_notNull.1 hq).2

/-- The step from a node. -/
theorem nodeCollatedNext_eq (stdNull : Bool) (hs : Searchable s t) {A B : List Nat} {p : Nat}
    (hC : collated stdNull s.nodes t.toList = A ++ p :: B) : lvAvlTreeNodeCollatedNext stdNull p s = B.head? := by
  have hn := hs.sorted.nodup
  have hsorted := collated_sorted stdNull hs.sorted
  rw [hC] at hsorted
  cases stdNull with
  | false => exact (lvAvlTreeStep_eq hs.holds hn hs.height.ge hC).1
  | true =>
    rw [lvAvlTreeNodeCollatedNext, if_pos rfl]
    have hC' : (t.toList.filter fun p => (s.nodes p).isNullSubs) ++ notNull s.nodes t.toList = A ++ p :: B := hC
    cases hp : (s.nodes p).isNullSubs with
    | true =>
      have hnull := (isNullSubs_iff _).1 hp
      have hA : A = [] := by
        refine List.eq_nil_iff_forall_not_mem.2 fun q hq => ?_
        have hlt := (List.pairwise_append.1 hsorted).2.2 q hq p (by simp)
        rw [hnull] at hlt
        exact not_lt_null_std _ hlt
      subst hA
      rw [if_pos rfl, (lvAvlTreeFirst_eq hs.holds hs.height.ge).1, hopNull_eq hs (A := []) rfl]
      congr 1
      cases hZ : t.toList.filter fun p => (s.nodes p).isNullSubs with
      | nil =>
        rw [hZ, List.nil_append] at hC'
        have hmem : p ∈ notNull s.nodes t.toList := by simp [hC']
        have hnot := (List.mem_filter.1 hmem).2
        simp [hp] at hnot
      | cons z Z =>
        rw [hZ] at hC'
        obtain ⟨rfl, hB⟩ := List.cons.inj hC'
        cases Z with
        | nil => exact hB
        | cons z' Z =>
          have hmem : z' ∈ t.toList.filter fun p => (s.nodes p).isNullSubs := by simp [hZ]
          have hz' : (s.nodes z').isNullSubs = true := (List.mem_filter.1 hmem).2
          have hlt := (List.pairwise_cons.1 hsorted).1 z' (hB ▸ (by simp))
          rw [(isNullSubs_iff _).1 hz'] at hlt
          exact absurd hlt (not_lt_null_std _)
    | false =>
      rw [if_neg (by simp)]
      have hmem : p ∈ t.toList := (collated_perm true s.nodes t.toList).mem_iff.1 (by rw [hC]; simp)
      obtain ⟨L₁, L₂, hL⟩ := List.append_of_mem hmem
      rw [(lvAvlTreeStep_eq hs.holds hn hs.height.ge hL).1, hopNull_eq hs (A := L₁ ++ [p]) (by rw [hL]; simp)]
      congr 1
      have hsplit : notNull s.nodes t.toList = notNull s.nodes L₁ ++ p :: notNull s.nodes L₂ := by
        rw [hL, notNull, notNull, notNull, List.filter_append, List.filter_cons, if_pos (by simp [hp])]
      rw [hsplit, ← List.append_assoc] at hC'
      have hnodup : (A ++ p :: B).Nodup := hC ▸ (collated_perm true s.nodes t.toList).nodup_iff.2 hn
      have hpA : p ∉ A := fun hm => (List.nodup_append.1 hnodup).2.2 p hm p (by simp) rfl
      have hpB : p ∉ B := (List.nodup_cons.1 (List.nodup_append.1 hnodup).2.1).1
      exact ((List.append_cons_inj_of_notMem hpA hpB).1 hC'.symm).2.2.symm

/-- Where the walk starts. -/
theorem collatedFirst_spec (stdNull : Bool) (hs : Searchable s t) (hc : ClueOk s t) :
    Looked s (collatedFirst stdNull s).1 ∧ (collatedFirst stdNull s).2 = (collated stdNull s.nodes t.toList).head? := by
  cases stdNull with
  | false => exact ⟨.refl s, (lvAvlTreeFirst_eq hs.holds hs.height.ge).1⟩
  | true =>
    have hl : LookupSpec (.str []) t s (lvAvlTreeLookupStr literalNull.key s) := lookup_spec hs hc literalNull
    obtain ⟨⟨s', res⟩, hres⟩ : ∃ r, lvAvlTreeLookupStr literalNull.key s = r := ⟨_, rfl⟩
    rw [hres] at hl
    have hs' := hl.looked.searchable hs
    have hkey := hl.looked.subsc
    rw [collatedFirst, hres]
    have hfirst := (lvAvlTreeFirst_eq hs'.holds hs'.height.ge).1
    cases hl.result with
    | @found c l n b r ht hd hk =>
      have hn : n ∈ t.toList := by
        rw [ht, toList_plug_node]
        simp
      exact ⟨hl.looked, (collated_null hs.sorted hn ((hkey n).symm.trans hk)).symm⟩
    | @missed f c ht hd hb =>
      refine ⟨hl.looked, ?_⟩
      have hmiss : ∀ p ∈ t.toList, (s.nodes p).subsc ≠ .str [] := by
        subst ht
        obtain ⟨hbef, haft⟩ := hb.bounds hs'.sorted
        intro p hp hnull
        rw [toList_plug, toList, List.append_nil, List.mem_append] at hp
        rw [← hkey p] at hnull
        rcases hp with hp | hp
        · exact Subsc.Lt.irrefl _ (hnull ▸ hbef p hp)
        · exact Subsc.Lt.irrefl _ (hnull ▸ haft p hp)
      rw [collated_of_missing hmiss]
      exact hfirst
    | empty ht =>
      subst ht
      exact ⟨hl.looked, hfirst⟩

/-- The first of the nodes after a key, told by the list of them. -/
theorem isFirstAfter_head {lt : Subsc → Subsc → Prop} {key : Nat → Subsc} {slots : Finset Nat} {k : Subsc} {N : List Nat}
    (hsorted : N.Pairwise fun p q => lt (key p) (key q)) (hmem : ∀ p, p ∈ N ↔ p ∈ slots ∧ lt k (key p)) :
    IsFirstAfter lt key slots k N.head? := by
  cases N with
  | nil => exact fun p hp hlt => by simpa using (hmem p).2 ⟨hp, hlt⟩
  | cons q N =>
    obtain ⟨hq, hlt⟩ := (hmem q).1 (by simp)
    refine ⟨hq, hlt, fun p hp hkp => ?_⟩
    rcases List.mem_cons.1 ((hmem p).2 ⟨hp, hkp⟩) with rfl | hm
    · exact .inl rfl
    · exact .inr ((List.pairwise_cons.1 hsorted).1 p hm)

/-! ## From a key -/

theorem textOk_isNull {k : TreeKey} (hk : k.TextOk) : (k.key.mvtype.str && k.key.str.isEmpty) = true ↔ k.subsc = .str [] := by
  cases hc : k.canonical with
  | true => simp [TreeKey.subsc, hc, hk.num hc]
  | false => simp [TreeKey.subsc, hc, hk.str hc]

theorem mem_after {k : Subsc} {A M B : List Nat} (h : SplitAt ns k L A M B) (p : Nat) : p ∈ B ↔ p ∈ L ∧ k.Lt false (ns p).subsc := by
  constructor
  · intro hp
    exact ⟨by simp [h.list, hp], h.after p hp⟩
  · rintro ⟨hp, hlt⟩
    rw [h.list, List.mem_append, List.mem_append] at hp
    rcases hp with (hp | hp) | hp
    · exact absurd (Subsc.Lt.trans hlt (h.before p hp)) (Subsc.Lt.irrefl _)
    · exact absurd (h.at_ p hp ▸ hlt) (Subsc.Lt.irrefl _)
    · exact hp

/-- The step from a key. -/
theorem keyCollatedNext_spec (stdNull : Bool) (hs : Searchable s t) (hc : ClueOk s t) {k : TreeKey} (hk : k.TextOk) {slots : Finset Nat}
    (hslots : ∀ p, p ∈ t.toList ↔ p ∈ slots) :
    IsFirstAfter (Subsc.Lt stdNull) (fun p => (s.nodes p).subsc) slots k.subsc (lvAvlTreeKeyCollatedNext stdNull k s).2 := by
  obtain ⟨A, M, B, hsplit, hnext, -, hlooked, -⟩ := lvAvlTreeKeyStep_spec hs hc k
  have hmem := mem_after hsplit
  have hlist : t.toList = (A ++ M) ++ B := hsplit.list
  cases stdNull with
  | false =>
    have hB : KeysSorted s.nodes B := hs.sorted.sublist (hlist ▸ List.sublist_append_right _ _)
    rw [lvAvlTreeKeyCollatedNext, if_neg (by simp), hnext]
    exact isFirstAfter_head hB fun p => by rw [hmem, hslots]
  | true =>
    rw [lvAvlTreeKeyCollatedNext]
    by_cases hnull : k.subsc = .str []
    · -- after the null subscript the numbers come first
      simp only [if_pos ((textOk_isNull hk).2 hnull), hnull]
      rw [(lvAvlTreeFirst_eq hs.holds hs.height.ge).1, hopNull_eq hs (A := []) rfl]
      refine isFirstAfter_head (notNull_sorted hs.sorted) fun p => ?_
      rw [mem_notNull, hslots]
      refine and_congr_right fun _ => ⟨null_lt_std, ?_⟩
      rintro hlt heq
      exact not_lt_null_std _ (heq ▸ hlt)
    · rw [if_neg fun h => hnull ((textOk_isNull hk).1 h)]
      have hs' := hlooked.searchable hs
      have hB : KeysSorted s.nodes B := hs.sorted.sublist (hlist ▸ List.sublist_append_right _ _)
      have hnodes : notNull (lvAvlTreeKeyNext k s).1.nodes B = notNull s.nodes B :=
        List.filter_congr fun p _ => by rw [isNullSubs_congr (hlooked.subsc p)]
      simp only [hnext, hopNull_eq hs' hlist, hnodes]
      refine isFirstAfter_head (notNull_sorted hB) fun p => ?_
      rw [mem_notNull, hmem, hslots, and_assoc]
      refine and_congr_right fun _ => ⟨fun ⟨hlt, hp⟩ => (lt_std_of_lt hnull hp).1 hlt, fun hlt => ?_⟩
      have hp : (s.nodes p).subsc ≠ .str [] := fun heq => not_lt_null_std _ (heq ▸ hlt)
      exact ⟨(lt_std_of_lt hnull hp).2 hlt, hp⟩

end Null

end TreeCollationAux

open TreeCollationAux LocalVarTreeAux

/-- In every run, with both null collations, the walk of `$QUERY` over the nodes of a tree comes to every node once, in collation order,
and then ends, and the step from a key, in the tree or not, comes to the first node after it. -/
theorem lvTree_collatedWalk {m : LvMachine} (h : LvReachable m) (stdNull : Bool) :
    (∃ L : List Nat, (∀ p, p ∈ L ↔ p ∈ m.slots) ∧ (L.map fun p => (m.state.nodes p).subsc).Pairwise (Subsc.Lt stdNull) ∧
      (L.map fun p => (m.state.nodes p).subsc).toFinset = m.keys ∧
      ∀ n ≥ L.length, walkFrom (fun p => lvAvlTreeNodeCollatedNext stdNull p (collatedFirst stdNull m.state).1) n
        (collatedFirst stdNull m.state).2 = L) ∧
    ∀ k : TreeKey, k.TextOk →
      IsFirstAfter (Subsc.Lt stdNull) (fun p => (m.state.nodes p).subsc) m.slots k.subsc
        (lvAvlTreeKeyCollatedNext stdNull k m.state).2 := by
  obtain ⟨t, ht⟩ := inv_reachable h
  refine ⟨⟨collated stdNull m.state.nodes t.toList, fun p => ?_, ?_, ?_, fun n hn => ?_⟩, fun k hk => ?_⟩
  · rw [(collated_perm _ _ _).mem_iff, ht.slots]
  · exact List.pairwise_map.2 (collated_sorted stdNull ht.search.sorted)
  · ext x
    simp only [ht.keys x, List.mem_toFinset, List.mem_map, (collated_perm _ _ _).mem_iff]
  · obtain ⟨hlooked, hfirst⟩ := collatedFirst_spec stdNull ht.search ht.clue
    rw [hfirst]
    refine walkFrom_eq (fun A p B hL => nodeCollatedNext_eq stdNull (hlooked.searchable ht.search) (A := A) ?_) hn
    rw [← hL]
    exact collated_congr hlooked.subsc
  · exact keyCollatedNext_spec stdNull ht.search ht.clue hk ht.slots

theorem lvTree_collatedWalk_two : ∃ m, LvReachable m ∧ m.keys = {.num 7, .num 5} ∧ ∀ stdNull,
    (∃ L : List Nat, (∀ p, p ∈ L ↔ p ∈ m.slots) ∧ (L.map fun p => (m.state.nodes p).subsc).Pairwise (Subsc.Lt stdNull) ∧
      (L.map fun p => (m.state.nodes p).subsc).toFinset = m.keys ∧
      ∀ n ≥ L.length, walkFrom (fun p => lvAvlTreeNodeCollatedNext stdNull p (collatedFirst stdNull m.state).1) n
        (collatedFirst stdNull m.state).2 = L) ∧
    IsFirstAfter (Subsc.Lt stdNull) (fun p => (m.state.nodes p).subsc) m.slots (.str [])
      (lvAvlTreeKeyCollatedNext stdNull literalNull m.state).2 := by
  obtain ⟨m, h, hkeys⟩ := lvReachable_two
  refine ⟨m, h, hkeys, fun stdNull => ?_⟩
  obtain ⟨hwalk, hkey⟩ := lvTree_collatedWalk h stdNull
  exact ⟨hwalk, hkey literalNull ⟨nofun, fun _ => rfl⟩⟩

end Gtm
