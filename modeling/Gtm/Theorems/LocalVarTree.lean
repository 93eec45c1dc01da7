import Gtm.Lemmas.AvlLookup

/-!
# The trees of local variables

In every run of lookups, insertions and deletions on one tree, the tree is an AVL tree that holds just the keys that were inserted and
not deleted, in the order of subscripts, and every lookup gives the same from the clue as from the top.
-/

namespace Gtm

open BalTree BinTree

/-! ## Runs -/

/-- A tree in a run: what the last lookup has returned, as long as nothing was changed since, the slots in use, and the keys that the
tree is to hold. -/
structure LvMachine where
  state : LvTreeState
  last : Option (TreeKey × LvLookup)
  slots : Finset Nat
  keys : Finset Subsc

/-- One operation. A node is inserted where the lookup just before has missed the key, in a slot that is not in use, whatever it holds.
A node is deleted that the lookup just before has found. -/
inductive LvStep : LvMachine → LvMachine → Prop
  | lookup (m : LvMachine) (k : TreeKey) :
    LvStep m { m with state := (lvAvlTreeLookup k m.state).1, last := some (k, (lvAvlTreeLookup k m.state).2) }
  | insert {m : LvMachine} {k : TreeKey} {parent : Option Nat} {node : Nat} (slot : LvTreeNode)
    (hlast : m.last = some (k, .missed parent)) (hfree : node ∉ m.slots) :
    LvStep m
      { state := lvAvlTreeNodeInsert k parent node { m.state with nodes := Function.update m.state.nodes node slot }
        last := none
        slots := insert node m.slots
        keys := insert k.subsc m.keys }
  | delete {m : LvMachine} {k : TreeKey} {node : Nat} (hlast : m.last = some (k, .found node)) :
    LvStep m
      { state := lvAvlTreeNodeDelete node m.state, last := none, slots := m.slots.erase node, keys := m.keys.erase k.subsc }

/-- A new tree (`LV_TREE_CREATE`), whatever the slots hold. -/
def LvMachine.create (nodes : LvNodes) (mn mx : Option Nat) : LvMachine where
  state := { lvt := { avlHeight := 0, avlRoot := none, lastNodeLookedUp := none, lastNodeMin := mn, lastNodeMax := mx }, nodes }
  last := none
  slots := ∅
  keys := ∅

/-- The trees that runs lead to. -/
inductive LvReachable : LvMachine → Prop
  | create (nodes : LvNodes) (mn mx : Option Nat) : LvReachable (LvMachine.create nodes mn mx)
  | step {m m' : LvMachine} (h : LvReachable m) (hs : LvStep m m') : LvReachable m'

namespace LocalVarTreeAux

/-! ## The invariant -/

/-- What holds of a tree in every run. -/
structure LvInv (m : LvMachine) (t : BinTree Nat) : Prop where
  search : Searchable m.state t
  avl : t.Avl
  clue : ClueOk m.state t
  slots (p : Nat) : p ∈ t.toList ↔ p ∈ m.slots
  keys (x : Subsc) : x ∈ m.keys ↔ ∃ p ∈ t.toList, (m.state.nodes p).subsc = x
  last {k : TreeKey} {res : LvLookup} (h : m.last = some (k, res)) :
    LookedUp k.subsc t m.state res ∧ ∀ p, res = .missed (some p) → m.state.lvt.lastNodeLookedUp = some p

theorem inv_create (nodes : LvNodes) (mn mx : Option Nat) : LvInv (LvMachine.create nodes mn mx) nil where
  search := ⟨rfl, by simp [toList], List.Pairwise.nil, rfl⟩
  avl := trivial
  clue := by rintro n ⟨⟩
  slots p := by simp [toList, LvMachine.create]
  keys x := by simp [toList, LvMachine.create]
  last := by rintro k res ⟨⟩

variable {s : LvTreeState} {t : BinTree Nat} {m : LvMachine} {n : Nat}

/-- Every lookup does what `LookupSpec` says. -/
theorem lookup_spec (hs : Searchable s t) (hc : ClueOk s t) (k : TreeKey) : LookupSpec k.subsc t s (lvAvlTreeLookup k s) := by
  rw [lvAvlTreeLookup_eq]
  exact lvAvlTreeLookupBy_spec k.compares hs hc

theorem inv_lookup (h : LvInv m t) (k : TreeKey) :
    LvInv { m with state := (lvAvlTreeLookup k m.state).1, last := some (k, (lvAvlTreeLookup k m.state).2) } t := by
  have hl := lookup_spec h.search h.clue k
  refine ⟨hl.looked.searchable h.search, h.avl, hl.clue, h.slots, fun x => ?_, ?_⟩
  · simp only [hl.looked.subsc]
    exact h.keys x
  · rintro k' res hlast
    obtain ⟨rfl, rfl⟩ := Prod.mk.inj (Option.some.inj hlast)
    exact ⟨hl.result, hl.missed⟩

/-- The tree and the clue do not depend on the slots that are not in use. -/
theorem LvInv.congr {m' : LvMachine} (h : LvInv m t) (hlvt : m'.state.lvt = m.state.lvt) (hlast : m'.last = m.last)
    (hslots : m'.slots = m.slots) (hkeys : m'.keys = m.keys) (hsame : ∀ p ∈ t.toList, m'.state.nodes p = m.state.nodes p) : LvInv m' t := by
  have hctx : ∀ {c : List (Frame Nat)} {u : BinTree Nat}, t = plug c u → ∀ f ∈ c, m'.state.nodes f.a = m.state.nodes f.a := by
    intro c u ht f hf
    refine hsame _ ?_
    rw [ht, (toList_plug_perm _ _).mem_iff]
    exact List.mem_append_right _ (List.mem_flatMap.2 ⟨f, hf, by simp⟩)
  have hdirs : ∀ {c : List (Frame Nat)} {u : BinTree Nat}, t = plug c u → Directs (dirOf m.state.nodes) c →
      Directs (dirOf m'.state.nodes) c := by
    intro c u ht hd f hf
    rw [dirOf, hctx ht f hf]
    exact hd f hf
  refine ⟨⟨?_, fun p hp => ?_, h.search.sorted.congr fun p hp => ?_, ?_⟩, h.avl, ?_, fun p => ?_, fun x => ?_, fun {k res} hl => ?_⟩
  · have hholds := h.search.holds
    rw [Holds] at hholds ⊢
    rw [hlvt]
    refine TreeRep.congr hholds fun p hp => ?_
    rw [SameShape, hsame p hp]
    exact ⟨⟨fun _ => rfl, rfl⟩, rfl⟩
  · rw [hsame p hp]
    exact h.search.valid p hp
  · rw [hsame p hp]
  · rw [hlvt]
    exact h.search.height
  · rintro q hq
    rw [hlvt] at hq ⊢
    obtain ⟨c, l, b, r, ht, hd, hb⟩ := h.clue q hq
    exact ⟨c, l, b, r, ht, hdirs ht hd, hb⟩
  · rw [hslots]
    exact h.slots p
  · rw [hkeys, h.keys x]
    exact exists_congr fun p => and_congr_right fun hp => by rw [hsame p hp]
  · rw [hlast] at hl
    obtain ⟨hres, hclue⟩ := h.last hl
    refine ⟨?_, hlvt ▸ hclue⟩
    cases hres with
    | @found c l n' b r ht hd hk =>
      refine .found ht (hdirs ht hd) ?_
      have hmem : n' ∈ t.toList := by
        rw [ht, (toList_plug_perm _ _).mem_iff]
        simp [toList]
      rw [hsame n' hmem]
      exact hk
    | missed ht hd hb =>
      refine .missed ht (hdirs ht hd) fun f hf => ?_
      rw [keySide, hctx ht f hf]
      exact hb f hf
    | empty ht => exact .empty ht

/-! ## Insertion -/

theorem split_unique {A B C D : List Nat} (h : A ++ n :: B = C ++ n :: D) (hn : (A ++ n :: B).Nodup) : A = C ∧ B = D := by
  have hA : n ∉ A := fun hA => (List.nodup_append.1 hn).2.2 n hA n (by simp) rfl
  have hC : n ∉ C := by
    rw [h] at hn
    exact fun hC => (List.nodup_append.1 hn).2.2 n hC n (by simp) rfl
  rcases List.append_eq_append_iff.1 h with ⟨E, hE, hE'⟩ | ⟨E, hE, hE'⟩
  · cases E with
    | nil => simp_all
    | cons e E =>
      obtain ⟨rfl, -⟩ := List.cons.inj hE'
      exact absurd (by simp [hE]) hC
  · cases E with
    | nil => simp_all
    | cons e E =>
      obtain ⟨rfl, -⟩ := List.cons.inj hE'
      exact absurd (by simp [hE]) hA

theorem toList_plug_node (c : List (Frame Nat)) (l r : BinTree Nat) (n : Nat) (b : Option Side) :
    (plug c (node l n b r)).toList = (before c ++ l.toList) ++ n :: (r.toList ++ after c) := by
  simp [toList_plug, toList]

/-- A node of a tree without a subtree on a side, seen from its place. -/
theorem child_none_place {c d : List (Frame Nat)} {b b' : Option Side} (side : Side) {u v w : BinTree Nat}
    (hs : Holds s (plug c (mk side nil n b u))) (ht : plug c (mk side nil n b u) = plug d (mk side w n b' v)) : w = nil := by
  obtain ⟨x, -, h₁⟩ := (rep_plug _ _).1 hs
  rw [ht] at hs
  obtain ⟨y, -, h₂⟩ := (rep_plug _ _).1 hs
  have hnone : (s.nodes n).child side = none := ((rep_mk _ _ _ _ _).1 h₁).2.2.2.1
  have hw := ((rep_mk _ _ _ _ _).1 h₂).2.2.2.1
  rw [hnone] at hw
  exact hw.eq_nil

/-- The bounds for a new node are the nodes next to its place. -/
theorem clue_bounds {c : List (Frame Nat)} (hs : Searchable s (plug c nil)) (hc : ClueOk s (plug c nil))
    (hlast : ∀ p, parentOf none c = some p → s.lvt.lastNodeLookedUp = some p) :
    boundAt .right c s.lvt.lastNodeMin = (before c).getLast? ∧ boundAt .left c s.lvt.lastNodeMax = (after c).head? := by
  cases c with
  | nil => exact ⟨rfl, rfl⟩
  | cons f c =>
    obtain ⟨d, l, b, r, ht, -, hmx, hmn⟩ := hc f.a (hlast f.a rfl)
    have hnodup := hs.sorted.nodup
    have hholds := hs.holds
    obtain ⟨side, a, bal, u⟩ := f
    have hlist := congrArg toList ht
    rw [plug_cons] at ht hlist hnodup hholds
    cases side with
    | left =>
      obtain rfl := child_none_place .left hholds ht
      simp only [mk, toList_plug_node] at hlist hnodup
      obtain ⟨hb, -⟩ := split_unique hlist hnodup
      refine ⟨?_, by simp [boundAt, after]⟩
      rw [boundAt, if_neg (by simp), hmn rfl]
      simp only [before]
      simp only [toList, List.append_nil] at hb
      rw [hb]
    | right =>
      obtain rfl := child_none_place .right hholds ht
      simp only [mk, toList_plug_node] at hlist hnodup
      obtain ⟨-, ha⟩ := split_unique hlist hnodup
      refine ⟨by simp [boundAt, before], ?_⟩
      rw [boundAt, if_neg (by simp), hmx rfl]
      simp only [after]
      simp only [toList, List.nil_append] at ha
      rw [ha]

theorem inv_insert (h : LvInv m t) {k : TreeKey} {parent : Option Nat}
    (hlast : m.last = some (k, .missed parent)) (hfree : n ∉ m.slots) :
    ∃ t', LvInv
      { state := lvAvlTreeNodeInsert k parent n m.state
        last := none
        slots := insert n m.slots
        keys := insert k.subsc m.keys } t' := by
  have hnew : n ∉ t.toList := fun hn => hfree ((h.slots n).1 hn)
  obtain ⟨hres, hclue⟩ := h.last hlast
  -- the place where the key is missing
  obtain ⟨c, rfl, rfl, hd, hb⟩ : ∃ c, parent = parentOf none c ∧ t = plug c nil ∧ Directs (dirOf m.state.nodes) c ∧
      Between m.state.nodes k.subsc c := by
    cases hres with
    | @missed f c ht hd hb => exact ⟨f :: c, rfl, ht, hd, hb⟩
    | empty ht => exact ⟨[], rfl, ht, by simp [Directs], by simp [Between]⟩
  obtain ⟨t', hi⟩ := lvAvlTreeNodeInsert_spec k h.search.holds h.search.sorted.nodup h.avl h.search.height hd hnew
  obtain ⟨hv, hk⟩ := initNode_key k (parentOf none c) (m.state.nodes n)
  have hkn : ((lvAvlTreeNodeInsert k (parentOf none c) n m.state).nodes n).subsc = k.subsc := hi.key.subsc.trans hk
  have hold : ∀ p, p ≠ n → ((lvAvlTreeNodeInsert k (parentOf none c) n m.state).nodes p).subsc = (m.state.nodes p).subsc :=
    fun p hp => (hi.kept.key hp).subsc
  have hmem : ∀ p, p ∈ t'.toList ↔ p = n ∨ p ∈ (plug c nil).toList := by
    intro p
    rw [hi.list, toList_plug]
    simp only [List.mem_append, List.mem_cons, toList, List.append_nil]
    tauto
  have hne : ∀ p ∈ (plug c nil).toList, p ≠ n := fun p hp hpn => hnew (hpn ▸ hp)
  have hsorted : KeysSorted (lvAvlTreeNodeInsert k (parentOf none c) n m.state).nodes t'.toList := by
    obtain ⟨hbef, haft⟩ := hb.bounds h.search.sorted
    have hs := h.search.sorted
    rw [toList_plug, toList, List.append_nil] at hs hne
    have hcongr := hs.congr fun p hp => hold p (hne p hp)
    simp only [List.mem_append] at hne
    rw [hi.list, KeysSorted, List.pairwise_append, List.pairwise_cons]
    obtain ⟨h₁, h₂, h₃⟩ := List.pairwise_append.1 hcongr
    refine ⟨h₁, ⟨fun p hp => ?_, h₂⟩, fun p hp q hq => ?_⟩
    · rw [hkn, hold p (hne p (.inr hp))]
      exact haft p hp
    · rcases List.mem_cons.1 hq with rfl | hq
      · rw [hkn, hold p (hne p (.inl hp))]
        exact hbef p hp
      · exact h₃ p hp q hq
  refine ⟨t', ⟨hi.holds, fun p hp => ?_, hsorted, hi.height⟩, hi.avl, ?_, fun p => ?_, fun x => ?_, by rintro k' res ⟨⟩⟩
  · rcases (hmem p).1 hp with rfl | hp
    · exact hi.key.valid hv
    · exact (hi.kept.key (hne p hp)).valid (h.search.valid p hp)
  · rintro q hq
    obtain rfl : n = q := Option.some.inj (hi.clue.symm.trans hq)
    obtain ⟨d, l, b, r, ht, hdd⟩ := hi.points.place
    obtain ⟨hmn, hmx⟩ := clue_bounds h.search h.clue fun p hp => hclue p (by rw [hp])
    have hlist := hi.list
    have hnodup := hsorted.nodup
    rw [ht, toList_plug_node] at hlist hnodup
    obtain ⟨hbef, haft⟩ := split_unique hlist hnodup
    refine ⟨d, l, b, r, ht, hdd, ?_, ?_⟩
    · rintro rfl
      rw [hi.max, hmx, ← haft]
      rfl
    · rintro rfl
      rw [hi.min, hmn, ← hbef]
      simp [toList]
  · rw [hmem, h.slots, Finset.mem_insert]
  · rw [Finset.mem_insert, h.keys]
    constructor
    · rintro (rfl | ⟨p, hp, rfl⟩)
      · exact ⟨n, (hmem n).2 (.inl rfl), hkn⟩
      · exact ⟨p, (hmem p).2 (.inr hp), hold p (hne p hp)⟩
    · rintro ⟨p, hp, rfl⟩
      rcases (hmem p).1 hp with rfl | hp
      · exact .inl hkn
      · exact .inr ⟨p, hp, (hold p (hne p hp)).symm⟩

/-! ## Deletion -/

theorem inv_delete (h : LvInv m t) {k : TreeKey} (hlast : m.last = some (k, .found n)) :
    ∃ t', LvInv { state := lvAvlTreeNodeDelete n m.state, last := none, slots := m.slots.erase n, keys := m.keys.erase k.subsc } t' := by
  obtain ⟨hres, -⟩ := h.last hlast
  cases hres with
  | @found c l _ b r ht hd hk =>
    subst ht
    have hsorted := h.search.sorted
    have hnodup := hsorted.nodup
    obtain ⟨t', hh, ha, hht, hl, hkey, -⟩ := lvAvlTreeNodeDelete_spec h.search.holds hnodup h.avl h.search.height hd
    have hsub : ∀ p, ((lvAvlTreeNodeDelete n m.state).nodes p).subsc = (m.state.nodes p).subsc := fun p => (hkey p).subsc
    rw [toList_plug_node] at hsorted hnodup
    have hmem : ∀ p, p ∈ t'.toList ↔ p ≠ n ∧ p ∈ (plug c (node l n b r)).toList := by
      intro p
      have hnot := (List.nodup_cons.1 (List.perm_middle.nodup hnodup)).1
      rw [hl, toList_plug_node]
      simp only [List.mem_append, List.mem_cons] at hnot ⊢
      constructor
      · intro hp
        refine ⟨?_, by tauto⟩
        rintro rfl
        exact hnot hp
      · tauto
    have hinj : ∀ p ∈ (plug c (node l n b r)).toList, (m.state.nodes p).subsc = k.subsc → p = n := by
      intro p hp hpk
      by_contra hpn
      rw [toList_plug_node, List.mem_append, List.mem_cons] at hp
      rw [KeysSorted, List.pairwise_append, List.pairwise_cons] at hsorted
      obtain ⟨-, ⟨haft, -⟩, hbef⟩ := hsorted
      rcases hp with hp | hp | hp
      · have := hbef p hp n (by simp)
        rw [hpk, hk] at this
        exact Subsc.Lt.irrefl _ this
      · exact hpn hp
      · have := haft p hp
        rw [hpk, hk] at this
        exact Subsc.Lt.irrefl _ this
    refine ⟨t', ⟨hh, fun p hp => ?_, ?_, hht⟩, ha, ?_, fun p => ?_, fun x => ?_, by rintro k' res ⟨⟩⟩
    · exact (hkey p).valid (h.search.valid p ((hmem p).1 hp).2)
    · refine KeysSorted.congr ?_ fun p _ => hsub p
      rw [hl]
      exact List.Pairwise.sublist (List.Sublist.append (List.Sublist.refl _) (List.sublist_cons_self _ _)) hsorted
    · rintro q hq
      cases hq
    · rw [hmem, h.slots, Finset.mem_erase]
    · rw [Finset.mem_erase, h.keys]
      constructor
      · rintro ⟨hx, p, hp, rfl⟩
        refine ⟨p, (hmem p).2 ⟨?_, hp⟩, hsub p⟩
        rintro rfl
        exact hx hk
      · rintro ⟨p, hp, rfl⟩
        obtain ⟨hpn, hp⟩ := (hmem p).1 hp
        refine ⟨fun hpk => hpn (hinj p hp ?_), p, hp, (hsub p).symm⟩
        rw [← hsub]
        exact hpk

theorem inv_step {m' : LvMachine} (h : LvInv m t) (hs : LvStep m m') : ∃ t', LvInv m' t' := by
  cases hs with
  | lookup k => exact ⟨t, inv_lookup h k⟩
  | @insert k parent node slot hlast hfree =>
    have hnew : node ∉ t.toList := fun hn => hfree ((h.slots node).1 hn)
    have hreuse : LvInv { m with state := { m.state with nodes := Function.update m.state.nodes node slot } } t :=
      h.congr rfl rfl rfl rfl fun p hp => Function.update_of_ne (ne_of_mem_of_not_mem hp hnew) _ _
    exact inv_insert hreuse hlast hfree
  | delete hlast => exact inv_delete h hlast

theorem inv_reachable (h : LvReachable m) : ∃ t, LvInv m t := by
  induction h with
  | create nodes mn mx => exact ⟨nil, inv_create nodes mn mx⟩
  | step _ hs ih =>
    obtain ⟨t, ht⟩ := ih
    exact inv_step ht hs

/-- The result of a lookup, and the direction of the node that it may have left, are told by its outcome. -/
theorem outcome_inj {s' : LvTreeState} {res res' : LvLookup} (h : outcome s res = outcome s' res') :
    res = res' ∧ ∀ p, res = .missed (some p) → (s.nodes p).descentDir = (s'.nodes p).descentDir := by
  rcases res with n | _ | p <;> rcases res' with n' | _ | p' <;> simp only [outcome, Option.some.injEq, reduceCtorEq, Prod.mk.injEq,
    and_false, and_true] at h
  · exact ⟨by rw [h], by rintro p ⟨⟩⟩
  · exact ⟨rfl, by rintro p ⟨⟩⟩
  · obtain ⟨rfl, hd⟩ := h
    refine ⟨rfl, ?_⟩
    rintro q hq
    obtain rfl : p = q := by simpa using hq
    exact hd

/-- The outcome of a lookup does not depend on the clue. -/
theorem lookup_outcome (hs : Searchable s t) (hc : ClueOk s t) (k : TreeKey) :
    outcome (lvAvlTreeLookup k s).1 (lvAvlTreeLookup k s).2 = seek (keySide s.nodes k.subsc) t := by
  have hl := lookup_spec hs hc k
  rw [hl.result.outcome_eq (hl.looked.searchable hs).sorted]
  congr 1
  funext p
  rw [keySide, keySide, hl.looked.subsc]

end LocalVarTreeAux

open LocalVarTreeAux

/-- An integer as a key. -/
def TreeKey.ofInt (i : Int) (h : (i * 1000).natAbs < mantHi) : TreeKey :=
  ⟨{ mvtype := { nm := true, int := true }, m1 := i * 1000 }, true, fun _ => by simpa [Mval.NumValid] using h⟩

/-- A slot that was never in use. -/
def LvTreeNode.unused : LvTreeNode :=
  { canonical := false, int := false, keySgn := false, keyE := 0, keyIconv := false, keyM0 := 0, keyM1 := 0, keyStr := [],
    balance := none, descentDir := .left, avlLeft := none, avlRight := none, avlParent := none }

/-- A run that leads to a tree with two keys. -/
theorem lvReachable_two : ∃ m, LvReachable m ∧ m.keys = {.num 7, .num 5} := by
  have h₁ := (LvReachable.create (fun _ => .unused) none none).step (.lookup _ (.ofInt 5 (by decide)))
  have h₂ := h₁.step (@LvStep.insert _ _ _ 0 .unused rfl (Finset.notMem_empty 0))
  have h₃ := h₂.step (.lookup _ (.ofInt 7 (by decide)))
  have h₄ := h₃.step (@LvStep.insert _ _ _ 1 .unused rfl (by simp [LvMachine.create]))
  refine ⟨_, h₄, ?_⟩
  simp [TreeKey.subsc, TreeKey.ofInt, Mval.numVal, LvMachine.create]
  norm_num

/-- In every run the nodes hold an AVL tree, with its height, whose keys in order are those inserted and not deleted. -/
theorem lvTree_avl {m : LvMachine} (h : LvReachable m) :
    ∃ t : BinTree Nat, TreeRep m.state.nodes none m.state.lvt.avlRoot t ∧ t.Avl ∧ m.state.lvt.avlHeight = t.height ∧
      (t.toList.map fun p => (m.state.nodes p).subsc).Pairwise (Subsc.Lt false) ∧
      (t.toList.map fun p => (m.state.nodes p).subsc).toFinset = m.keys := by
  obtain ⟨t, ht⟩ := inv_reachable h
  refine ⟨t, ht.search.holds, ht.avl, ht.search.height, List.pairwise_map.2 ht.search.sorted, ?_⟩
  ext x
  rw [ht.keys x, List.mem_toFinset, List.mem_map]

theorem lvTree_avl_two : ∃ m, LvReachable m ∧ m.keys = {.num 7, .num 5} ∧
    ∃ t : BinTree Nat, TreeRep m.state.nodes none m.state.lvt.avlRoot t ∧ t.Avl ∧ m.state.lvt.avlHeight = t.height ∧
      (t.toList.map fun p => (m.state.nodes p).subsc).Pairwise (Subsc.Lt false) ∧
      (t.toList.map fun p => (m.state.nodes p).subsc).toFinset = m.keys :=
  lvReachable_two.imp fun _ h => ⟨h.1, h.2, lvTree_avl h.1⟩

/-- In every run, a lookup returns what it would return without the clue, and leaves the same direction at the node below which a
missing key would be. -/
theorem lvTree_lookup_clue {m : LvMachine} (h : LvReachable m) (k : TreeKey) :
    let top : LvTreeState := { m.state with lvt := { m.state.lvt with lastNodeLookedUp := none } }
    (lvAvlTreeLookup k m.state).2 = (lvAvlTreeLookup k top).2 ∧
      ∀ p, (lvAvlTreeLookup k m.state).2 = .missed (some p) →
        ((lvAvlTreeLookup k m.state).1.nodes p).descentDir = ((lvAvlTreeLookup k top).1.nodes p).descentDir := by
  intro top
  obtain ⟨t, ht⟩ := inv_reachable h
  have htop : Searchable top t := ⟨ht.search.holds, ht.search.valid, ht.search.sorted, ht.search.height⟩
  have hnone : ClueOk top t := by rintro n ⟨⟩
  exact outcome_inj ((lookup_outcome ht.search ht.clue k).trans (lookup_outcome htop hnone k).symm)

theorem lvTree_lookup_clue_two : ∃ m, LvReachable m ∧ m.keys = {.num 7, .num 5} ∧ ∀ k : TreeKey,
    let top : LvTreeState := { m.state with lvt := { m.state.lvt with lastNodeLookedUp := none } }
    (lvAvlTreeLookup k m.state).2 = (lvAvlTreeLookup k top).2 ∧
      ∀ p, (lvAvlTreeLookup k m.state).2 = .missed (some p) →
        ((lvAvlTreeLookup k m.state).1.nodes p).descentDir = ((lvAvlTreeLookup k top).1.nodes p).descentDir :=
  lvReachable_two.imp fun _ h => ⟨h.1, h.2, lvTree_lookup_clue h.1⟩

end Gtm
