import Gtm.Lemmas.AvlKeys
import Gtm.Lemmas.AvlUpdate

/-!
# Lookups

A lookup ends at the node of the key, or at the node below which the key would be, and leaves the directions of all nodes above it
leading there. Both follow from the place of the clue as they follow from a traversal from the top, because the nodes in order tell
what lies beside the clue.
-/

namespace Gtm

open BalTree BinTree

/-! ## What a lookup keeps -/

/-- Only directions, conversions of keys and the clue are different. -/
structure Looked (s s' : LvTreeState) : Prop where
  shape (p : Nat) : SameShape s.nodes s'.nodes p
  parent (p : Nat) : (s'.nodes p).avlParent = (s.nodes p).avlParent
  subsc (p : Nat) : (s'.nodes p).subsc = (s.nodes p).subsc
  valid {p : Nat} (h : (s.nodes p).Valid) : (s'.nodes p).Valid
  root : s'.lvt.avlRoot = s.lvt.avlRoot
  height : s'.lvt.avlHeight = s.lvt.avlHeight

namespace Looked

theorem refl (s : LvTreeState) : Looked s s := ⟨fun _ => ⟨fun _ => rfl, rfl⟩, fun _ => rfl, fun _ => rfl, id, rfl, rfl⟩

theorem trans {s₁ s₂ s₃ : LvTreeState} (h : Looked s₁ s₂) (h' : Looked s₂ s₃) : Looked s₁ s₃ where
  shape p := ⟨fun s => ((h'.shape p).1 s).trans ((h.shape p).1 s), (h'.shape p).2.trans (h.shape p).2⟩
  parent p := (h'.parent p).trans (h.parent p)
  subsc p := (h'.subsc p).trans (h.subsc p)
  valid hv := h'.valid (h.valid hv)
  root := h'.root.trans h.root
  height := h'.height.trans h.height

theorem holds {s s' : LvTreeState} {t : BinTree Nat} (h : Looked s s') (ht : Holds s t) : Holds s' t := by
  unfold Holds
  rw [h.root]
  exact TreeRep.congr ht fun p _ => ⟨h.shape p, h.parent p⟩

theorem setDir (s : LvTreeState) (p : Nat) (side : Side) : Looked s { s with nodes := s.nodes.setDir p side } := by
  have h := steered_setDir s.nodes p side
  exact ⟨h.shape, h.parent, fun q => (h.key q).subsc, fun hv => (h.key _).valid hv, rfl, rfl⟩

end Looked

section Compare

variable {k : Subsc} {cmp : LvTreeNode → Int × LvTreeNode}

theorem looked_cmpAt (hk : Compares k cmp) (p : Nat) (s : LvTreeState) : Looked s (cmpAt cmp p s).2 := by
  have hother : ∀ {q}, q ≠ p → (cmpAt cmp p s).2.nodes q = s.nodes q := fun hq => Function.update_of_ne hq _ _
  have hat : (cmpAt cmp p s).2.nodes p = (cmp (s.nodes p)).2 := Function.update_self _ _ _
  refine ⟨fun q => ?_, fun q => ?_, fun q => ?_, fun {q} hv => ?_, rfl, rfl⟩ <;> by_cases hq : q = p
  · subst hq
    rw [SameShape, hat]
    refine ⟨fun side => ?_, hk.balance _⟩
    cases side
    · exact hk.left _
    · exact hk.right _
  · rw [SameShape, hother hq]
    exact ⟨fun _ => rfl, rfl⟩
  · subst hq
    rw [hat]
    exact hk.parent _
  · rw [hother hq]
  · subst hq
    rw [hat]
    exact hk.subsc _
  · rw [hother hq]
  · subst hq
    rw [hat]
    exact hk.valid hv
  · rw [hother hq]
    exact hv

theorem dirOf_cmpAt (hk : Compares k cmp) (p : Nat) (s : LvTreeState) (q : Nat) : dirOf (cmpAt cmp p s).2.nodes q = dirOf s.nodes q := by
  by_cases hq : q = p
  · subst hq
    have hat : (cmpAt cmp q s).2.nodes q = (cmp (s.nodes q)).2 := Function.update_self _ _ _
    rw [dirOf, hat]
    exact hk.dir _
  · have hother : (cmpAt cmp p s).2.nodes q = s.nodes q := Function.update_of_ne hq _ _
    rw [dirOf, hother]
    rfl

variable {s s' : LvTreeState} {ns : LvNodes} {c : List (Frame Nat)} {t r : BinTree Nat} {b : Option Side} {n : Nat} {side : Side}

theorem sideOf_cmpAt (hk : Compares k cmp) {p : Nat} (hv : (s.nodes p).Valid) : sideOf (cmpAt cmp p s).1 = k.side (s.nodes p).subsc :=
  hk.side hv

/-! ## KeysSorted trees -/

/-- The keys of the nodes of a list are in order. -/
def KeysSorted (ns : LvNodes) (l : List Nat) : Prop := l.Pairwise fun p q => (ns p).subsc.Lt false (ns q).subsc

theorem KeysSorted.nodup {l : List Nat} (h : KeysSorted ns l) : l.Nodup := by
  refine h.imp fun {p q} hlt hpq => ?_
  subst hpq
  exact Subsc.Lt.irrefl _ hlt

theorem KeysSorted.congr {ns' : LvNodes} {l : List Nat} (h : KeysSorted ns l) (hs : ∀ p ∈ l, (ns' p).subsc = (ns p).subsc) : KeysSorted ns' l := by
  refine List.Pairwise.imp_of_mem (fun {p q} hp hq hlt => ?_) h
  rw [hs p hp, hs q hq]
  exact hlt

/-- The side of a node on which the key is. -/
def keySide (ns : LvNodes) (k : Subsc) (p : Nat) : Option Side := k.side (ns p).subsc

/-- The key is on the side of every node on the way up that the way comes from. -/
def Between (ns : LvNodes) (k : Subsc) (c : List (Frame Nat)) : Prop := ∀ f ∈ c, keySide ns k f.a = some f.side

/-- The key is between the nodes before the place and those after it. -/
theorem Between.bounds (h : Between ns k c) (hs : KeysSorted ns (plug c t).toList) :
    (∀ p ∈ before c, (ns p).subsc.Lt false k) ∧ ∀ p ∈ after c, k.Lt false (ns p).subsc := by
  induction c generalizing t with
  | nil => simp [before, after]
  | cons f c ih =>
    obtain ⟨hb, ha⟩ := ih (fun g hg => h g (by simp [hg])) hs
    have hf := h f (by simp)
    rw [plug_cons, KeysSorted, toList_plug, List.append_assoc, List.pairwise_append, List.pairwise_append] at hs
    obtain ⟨-, ⟨hmk, -⟩, -⟩ := hs
    obtain ⟨side, a, b, u⟩ := f
    cases side with
    | left =>
      have hka : k.Lt false (ns a).subsc := Subsc.side_left.1 hf
      simp only [mk, toList, List.pairwise_append, List.pairwise_cons] at hmk
      refine ⟨hb, ?_⟩
      intro p hp
      simp only [after, List.cons_append, List.mem_cons, List.mem_append] at hp
      rcases hp with rfl | hp | hp
      · exact hka
      · exact hka.trans (hmk.2.1.1 p hp)
      · exact ha p hp
    | right =>
      have hka : (ns a).subsc.Lt false k := Subsc.side_right.1 hf
      simp only [mk, toList, List.pairwise_append, List.pairwise_cons] at hmk
      refine ⟨?_, ha⟩
      intro p hp
      simp only [before, List.mem_append, List.mem_singleton] at hp
      rcases hp with hp | hp | rfl
      · exact hb p hp
      · exact (hmk.2.2 p hp a (by simp)).trans hka
      · exact hka

theorem between_of_bounds (hb : ∀ p ∈ before c, (ns p).subsc.Lt false k) (ha : ∀ p ∈ after c, k.Lt false (ns p).subsc) : Between ns k c := by
  intro f hf
  have := mem_before_or_after hf
  cases hs : f.side with
  | left =>
    rw [hs] at this
    exact Subsc.side_left.2 (ha _ this)
  | right =>
    rw [hs] at this
    exact Subsc.side_right.2 (hb _ this)

/-- The key of a node is between the nodes before its place and those after it. -/
theorem between_self {l : BinTree Nat} (hs : KeysSorted ns (plug c (node l n b r)).toList) : Between ns (ns n).subsc c := by
  rw [KeysSorted, toList_plug, List.append_assoc, List.pairwise_append, List.pairwise_append] at hs
  obtain ⟨-, ⟨-, -, haft⟩, hbef⟩ := hs
  have hn : n ∈ (node l n b r).toList := by simp [toList]
  exact between_of_bounds (fun p hp => hbef p hp n (List.mem_append_left _ hn)) fun p hp => haft n hn p hp

/-! ## The result of a lookup -/

/-- What a lookup of the key `k` returns is right, and the directions lead to it. -/
inductive LookedUp (k : Subsc) (t : BinTree Nat) (s : LvTreeState) : LvLookup → Prop
  | found {c l n b r} (ht : t = plug c (node l n b r)) (hd : Directs (dirOf s.nodes) c) (hk : (s.nodes n).subsc = k) :
    LookedUp k t s (.found n)
  | missed {f c} (ht : t = plug (f :: c) nil) (hd : Directs (dirOf s.nodes) (f :: c)) (hb : Between s.nodes k (f :: c)) :
    LookedUp k t s (.missed (some f.a))
  | empty (ht : t = nil) : LookedUp k t s (.missed none)

/-- The result of a lookup as a node and the side of it on which the key would be. -/
def outcome (s : LvTreeState) : LvLookup → Option (Nat × Option Side)
  | .found n => some (n, none)
  | .missed none => none
  | .missed (some p) => some (p, some (dirOf s.nodes p))

/-- The result is that of the search in the tree. -/
theorem LookedUp.outcome_eq {res : LvLookup} (h : LookedUp k t s res) (hs : KeysSorted s.nodes t.toList) :
    outcome s res = seek (keySide s.nodes k) t := by
  cases h with
  | @found c l n b r ht hd hk =>
    subst ht hk
    have hself : keySide s.nodes (s.nodes n).subsc n = none := Subsc.side_none.2 rfl
    rw [seek_plug (between_self hs)]
    simp [outcome, seek, hself]
  | @missed f c ht hd hb =>
    subst ht
    rw [seek_plug hb]
    have hdir : dirOf s.nodes f.a = f.side := hd f (by simp)
    simp [outcome, seek, hdir]
  | empty ht =>
    subst ht
    rfl

/-- A tree that can be searched. -/
structure Searchable (s : LvTreeState) (t : BinTree Nat) : Prop where
  holds : Holds s t
  valid (p : Nat) (hp : p ∈ t.toList) : (s.nodes p).Valid
  sorted : KeysSorted s.nodes t.toList
  height : s.lvt.avlHeight = t.height

theorem Looked.searchable (h : Looked s s') (ht : Searchable s t) : Searchable s' t where
  holds := h.holds ht.holds
  valid p hp := h.valid (ht.valid p hp)
  sorted := ht.sorted.congr fun p _ => h.subsc p
  height := h.height.trans ht.height

/-- The clue is a node to which the directions lead. Where it has no subtree, the bound is the next node on that side. -/
def ClueOk (s : LvTreeState) (t : BinTree Nat) : Prop :=
  ∀ n, s.lvt.lastNodeLookedUp = some n → ∃ c l b r, t = plug c (node l n b r) ∧ Directs (dirOf s.nodes) c ∧
    (r = nil → s.lvt.lastNodeMax = (after c).head?) ∧ (l = nil → s.lvt.lastNodeMin = (before c).getLast?)

/-- What is proved of every way to look up the key `k`. -/
structure LookupSpec (k : Subsc) (t : BinTree Nat) (s : LvTreeState) (res : LvTreeState × LvLookup) : Prop where
  looked : Looked s res.1
  result : LookedUp k t res.1 res.2
  clue : ClueOk res.1 t
  missed (p : Nat) (h : res.2 = .missed (some p)) : res.1.lvt.lastNodeLookedUp = some p

theorem LookupSpec.of_looked {res : LvTreeState × LvLookup} (h : Looked s s') (h' : LookupSpec k t s' res) : LookupSpec k t s res :=
  ⟨h.trans h'.looked, h'.result, h'.clue, h'.missed⟩

theorem Looked.of_clue (n mn mx : Option Nat) :
    Looked s { s with lvt := { s.lvt with lastNodeLookedUp := n, lastNodeMin := mn, lastNodeMax := mx } } :=
  ⟨fun _ => ⟨fun _ => rfl, rfl⟩, fun _ => rfl, fun _ => rfl, id, rfl, rfl⟩

/-- The side of the node `n` of a place below a node at which the way does not turn. -/
theorem directs_setDir {p : Nat} (hd : Directs (dirOf ns) c) (hp : p ∉ ctxNodes c) : Directs (dirOf (ns.setDir p side)) c := by
  intro f hf
  have hfp : f.a ≠ p := fun h => hp (List.mem_flatMap.2 ⟨f, hf, by simp [h]⟩)
  rw [dirOf, LvNodes.setDir_dir, if_neg hfp]
  exact hd f hf

theorem node_not_mem_ctx {l : BinTree Nat} (hn : (plug c (node l n b r)).toList.Nodup) : n ∉ ctxNodes c := by
  have := (List.nodup_append.1 ((toList_plug_perm _ _).nodup hn)).2.2
  exact fun hc => this n (by simp [toList]) n hc rfl

/-- The traversal from a node on the way. -/
theorem lookupLoop_spec (hk : Compares k cmp) {fuel : Nat} {l : BinTree Nat} {mn mx : Option Nat} (hs : Searchable s (plug c (node l n b r))) (hf : (node l n b r).height ≤ fuel)
    (hd : Directs (dirOf s.nodes) c) (hb : Between s.nodes k c) (hmn : mn = (before c).getLast?) (hmx : mx = (after c).head?) :
    LookupSpec k (plug c (node l n b r)) s (lookupLoop cmp fuel n mn mx s) := by
  induction fuel generalizing c l r n b s mn mx with
  | zero => simp [height] at hf
  | succ fuel ih =>
    have hmem : n ∈ (plug c (node l n b r)).toList := by
      rw [(toList_plug_perm _ _).mem_iff]
      simp [toList]
    have hside := sideOf_cmpAt hk (hs.valid n hmem)
    have hl₁ := looked_cmpAt hk n s
    have hd₁ : Directs (dirOf (cmpAt cmp n s).2.nodes) c := fun f hf => (dirOf_cmpAt hk n s f.a).trans (hd f hf)
    rw [lookupLoop]
    obtain ⟨⟨e, s₁⟩, hcmp⟩ : ∃ x, cmpAt cmp n s = x := ⟨_, rfl⟩
    rw [hcmp] at hside hl₁ hd₁ ⊢
    simp only at hside hl₁ hd₁ ⊢
    by_cases he : e = 0
    · rw [if_pos he]
      refine .of_looked hl₁ ⟨.of_clue _ _ _, .found rfl hd₁ ?_, ?_, ?_⟩
      · rw [he] at hside
        exact (hl₁.subsc n).trans (Subsc.side_none.1 hside.symm).symm
      · rintro m hm
        obtain rfl := Option.some.inj hm
        exact ⟨c, l, b, r, rfl, hd₁, fun _ => hmx, fun _ => hmn⟩
      · rintro p ⟨⟩
    · rw [if_neg he]
      obtain ⟨side, hsd⟩ : ∃ side, (if e < 0 then Side.left else Side.right) = side := ⟨_, rfl⟩
      have hkside : keySide s.nodes k n = some side := by
        rw [keySide, ← hside, sideOf, if_neg he, ← hsd]
        split <;> rfl
      rw [hsd]
      have hl₂ : Looked s { s₁ with nodes := s₁.nodes.setDir n side } := hl₁.trans (.setDir _ _ _)
      have hs₂ := hl₂.searchable hs
      have hnc := node_not_mem_ctx hs.sorted.nodup
      obtain ⟨u, a, b', v, hmk⟩ := exists_mk side (t := node l n b r) (by simp)
      obtain ⟨x, -, ht⟩ := (rep_plug _ _).1 hs₂.holds
      obtain rfl : x = some n := ht.1
      rw [hmk] at ht hs hs₂ hf ⊢
      obtain ⟨han, -, -, hu, -⟩ := (rep_mk _ _ _ _ _).1 ht
      obtain rfl := Option.some.inj han
      have hd₂ : Directs (dirOf (s₁.nodes.setDir n side)) (⟨side, n, b', v⟩ :: c) := by
        intro f hf
        rcases List.mem_cons.1 hf with rfl | hf
        · rw [dirOf, LvNodes.setDir_dir, if_pos rfl]
        · exact directs_setDir hd₁ hnc f hf
      have hb₂ : Between (s₁.nodes.setDir n side) k (⟨side, n, b', v⟩ :: c) := by
        intro f hf
        rw [keySide, hl₂.subsc]
        rcases List.mem_cons.1 hf with rfl | hf
        · exact hkside
        · exact hb f hf
      rw [height_mk] at hf
      cases hch : (s₁.nodes.setDir n side n).child side with
      | none =>
        rw [hch] at hu
        obtain rfl := hu.eq_nil
        refine .of_looked hl₂ ⟨.of_clue _ _ _, .missed (f := ⟨side, n, b', v⟩) rfl hd₂ hb₂, ?_, ?_⟩
        · rintro m hm
          obtain rfl := Option.some.inj hm
          cases side with
          | left => exact ⟨c, nil, b', v, rfl, fun f hf => hd₂ f (by simp [hf]), fun _ => hmx, fun _ => hmn⟩
          | right => exact ⟨c, v, b', nil, rfl, fun f hf => hd₂ f (by simp [hf]), fun _ => hmx, fun _ => hmn⟩
        · rintro p hp
          injection hp
      | some next =>
        rw [hch] at hu
        cases u with
        | nil => simp [TreeRep] at hu
        | node l' a' b'' r' =>
          obtain rfl := Option.some.inj hu.1
          cases side with
          | left => exact .of_looked hl₂ (ih (c := ⟨.left, n, b', v⟩ :: c) hs₂ (by omega) hd₂ hb₂ hmn rfl)
          | right =>
            refine .of_looked hl₂ (ih (c := ⟨.right, n, b', v⟩ :: c) hs₂ (by omega) hd₂ hb₂ ?_ hmx)
            simp [before]

/-- `lookupTop`. -/
theorem lookupTop_spec (hk : Compares k cmp) (hs : Searchable s t) (hc : ClueOk s t) : LookupSpec k t s (lookupTop cmp s) := by
  have hrep := hs.holds
  unfold Holds at hrep
  rw [lookupTop]
  cases hroot : s.lvt.avlRoot with
  | none =>
    rw [hroot] at hrep
    exact ⟨.refl s, .empty hrep.eq_nil, hc, by rintro p ⟨⟩⟩
  | some n =>
    rw [hroot] at hrep
    cases t with
    | nil => simp [TreeRep] at hrep
    | node l a b r =>
      obtain rfl := Option.some.inj hrep.1
      exact lookupLoop_spec hk (c := []) hs hs.height.ge (by simp [Directs]) (by simp [Between]) rfl rfl

/-- The next node beside a place on a side. -/
def beside (side : Side) (c : List (Frame Nat)) : Option Nat :=
  match side with
  | .left => (before c).getLast?
  | .right => (after c).head?

theorem exists_frame_of_beside {q : Nat} (h : beside side c = some q) : ∃ d f e, c = d ++ f :: e ∧ f.a = q := by
  cases side
  · exact exists_frame_of_before h
  · exact exists_frame_of_after h

/-- A key on a side of a node, and not beyond the next node there, belongs at the place of the node. -/
theorem between_of_beside {l : BinTree Nat} (hs : KeysSorted ns (plug c (node l n b r)).toList) (hn : keySide ns k n = some side)
    (hq : ∀ q, beside side c = some q → keySide ns k q = some side.flip) : Between ns k c := by
  rw [KeysSorted, toList_plug, List.append_assoc, List.pairwise_append, List.pairwise_append] at hs
  obtain ⟨hsb, ⟨-, hsa, haft⟩, hbef⟩ := hs
  have hmem : n ∈ (node l n b r).toList := by simp [toList]
  cases side with
  | left =>
    have hkn : k.Lt false (ns n).subsc := Subsc.side_left.1 hn
    refine between_of_bounds (fun p hp => ?_) fun p hp => hkn.trans (haft n hmem p hp)
    obtain ⟨i, q, hi⟩ := (List.eq_nil_or_concat' (before c)).resolve_left (List.ne_nil_of_mem hp)
    have hqk : (ns q).subsc.Lt false k := Subsc.side_right.1 (hq q (by simp [beside, hi]))
    rw [hi] at hp hsb
    rcases List.mem_append.1 hp with hp | hp
    · exact ((List.pairwise_append.1 hsb).2.2 p hp q (by simp)).trans hqk
    · rw [List.mem_singleton.1 hp]
      exact hqk
  | right =>
    have hkn : (ns n).subsc.Lt false k := Subsc.side_right.1 hn
    refine between_of_bounds (fun p hp => (hbef p hp n (List.mem_append_left _ hmem)).trans hkn) fun p hp => ?_
    cases hi : after c with
    | nil => simp [hi] at hp
    | cons q i =>
      have hqk : k.Lt false (ns q).subsc := Subsc.side_left.1 (hq q (by simp [beside, hi]))
      rw [hi] at hp hsa
      rcases List.mem_cons.1 hp with rfl | hp
      · exact hqk
      · exact hqk.trans ((List.pairwise_cons.1 hsa).1 p hp)

theorem ClueOk.of_dirs (h : ClueOk s t) (hl : s'.lvt = s.lvt) (hd : ∀ p, dirOf s'.nodes p = dirOf s.nodes p) : ClueOk s' t := by
  intro n hn
  rw [hl] at hn ⊢
  obtain ⟨c, l, b, r, ht, hdc, hmx, hmn⟩ := h n hn
  exact ⟨c, l, b, r, ht, fun f hf => (hd f.a).trans (hdc f hf), hmx, hmn⟩

theorem clueOk_cmpAt (hk : Compares k cmp) (h : ClueOk s t) (p : Nat) : ClueOk (cmpAt cmp p s).2 t := h.of_dirs rfl (dirOf_cmpAt hk p s)

/-- The key belongs below the clue node, on a side where it has no subtree. -/
theorem lookup_miss {v : BinTree Nat}
    (hs : Searchable s (plug c (mk side nil n b v))) (hd : Directs (dirOf s.nodes) c) (hc : ClueOk s (plug c (mk side nil n b v)))
    (hn : s.lvt.lastNodeLookedUp = some n) (hside : keySide s.nodes k n = some side) (hb : Between s.nodes k c) :
    LookupSpec k (plug c (mk side nil n b v)) s ({ s with nodes := s.nodes.setDir n side }, .missed (some n)) := by
  have hnot : n ∉ ctxNodes c := by
    have := (List.nodup_append.1 ((toList_plug_perm _ _).nodup hs.sorted.nodup)).2.2
    exact fun hnc => this n (by cases side <;> simp [mk, toList]) n hnc rfl
  have hl := Looked.setDir s n side
  refine ⟨hl, .missed (f := ⟨side, n, b, v⟩) rfl ?_ ?_, ?_, fun p hp => ?_⟩
  · intro f hf
    rcases List.mem_cons.1 hf with rfl | hf
    · rw [dirOf, LvNodes.setDir_dir, if_pos rfl]
    · exact directs_setDir hd hnot f hf
  · intro f hf
    rw [keySide, hl.subsc]
    rcases List.mem_cons.1 hf with rfl | hf
    · exact hside
    · exact hb f hf
  · rintro m hm
    obtain rfl := Option.some.inj (hn.symm.trans hm)
    obtain ⟨c', l, b', r, ht, hdc, hmx, hmn⟩ := hc n hn
    refine ⟨c', l, b', r, ht, directs_setDir hdc ?_, hmx, hmn⟩
    rw [ht] at hs
    exact node_not_mem_ctx hs.sorted.nodup
  · obtain rfl : n = p := by simpa using hp
    exact hn

/-- `lookupClue`. -/
theorem lookupClue_spec (hk : Compares k cmp) {v : BinTree Nat}
    (side : Side) (hs : Searchable s (plug c (mk side nil n b v))) (hd : Directs (dirOf s.nodes) c)
    (hc : ClueOk s (plug c (mk side nil n b v))) (hn : s.lvt.lastNodeLookedUp = some n) (hside : keySide s.nodes k n = some side) :
    LookupSpec k (plug c (mk side nil n b v)) s (lookupClue cmp n side (beside side c) s) := by
  obtain ⟨l, b', r, hmk⟩ : ∃ l b' r, mk side nil n b v = node l n b' r := by cases side <;> exact ⟨_, _, _, rfl⟩
  have hbetween : ∀ {s' : LvTreeState}, Looked s s' → (∀ q, beside side c = some q → keySide s.nodes k q = some side.flip) →
      Between s'.nodes k c := by
    intro s' hl hq f hf
    rw [keySide, hl.subsc]
    exact between_of_beside (hmk ▸ hs.sorted) hside hq f hf
  unfold lookupClue
  cases hbound : beside side c with
  | none => exact lookup_miss hs hd hc hn hside (hbetween (.refl s) (by simp [hbound]))
  | some q =>
    obtain ⟨d, f, e, hce, rfl⟩ := exists_frame_of_beside hbound
    have hplace : ∃ l' b' r', plug c (mk side nil n b v) = plug e (node l' f.a b' r') := by
      rw [hce, plug_append, plug_cons]
      cases f.side <;> exact ⟨_, _, _, rfl⟩
    obtain ⟨l', b'', r', hplace⟩ := hplace
    have hq : f.a ∈ (plug c (mk side nil n b v)).toList := by
      rw [hplace, (toList_plug_perm _ _).mem_iff]
      simp [toList]
    have hcmpside := sideOf_cmpAt hk (hs.valid f.a hq)
    have hl₁ := looked_cmpAt hk f.a s
    have hd₁ : Directs (dirOf (cmpAt cmp f.a s).2.nodes) c := fun g hg => (dirOf_cmpAt hk f.a s g.a).trans (hd g hg)
    have hc₁ := clueOk_cmpAt hk hc f.a
    have hn₁ : (cmpAt cmp f.a s).2.lvt.lastNodeLookedUp = some n := hn
    obtain ⟨⟨x, s₁⟩, hcmp⟩ : ∃ x, cmpAt cmp f.a s = x := ⟨_, rfl⟩
    simp only [hcmp] at hcmpside hl₁ hd₁ hc₁ hn₁ ⊢
    have hs₁ := hl₁.searchable hs
    by_cases hx : x = 0
    · rw [if_pos hx]
      refine ⟨hl₁, .found hplace (fun g hg => hd₁ g (by simp [hce, hg])) ?_, hc₁, by rintro p ⟨⟩⟩
      rw [hx] at hcmpside
      exact (hl₁.subsc f.a).trans (Subsc.side_none.1 hcmpside.symm).symm
    · rw [if_neg hx]
      have htop := LookupSpec.of_looked hl₁ (lookupTop_spec hk hs₁ hc₁)
      have hmiss : sideOf x = some side.flip → LookupSpec k (plug c (mk side nil n b v)) s
          ({ s₁ with nodes := s₁.nodes.setDir n side }, .missed (some n)) := by
        intro hfit
        refine .of_looked hl₁ (lookup_miss hs₁ hd₁ hc₁ hn₁ ?_ (hbetween hl₁ fun q hq => ?_))
        · rw [keySide, hl₁.subsc]
          exact hside
        · obtain rfl := Option.some.inj (hbound.symm.trans hq)
          rw [keySide, ← hcmpside, hfit]
      cases side with
      | left =>
        by_cases hfit : 0 < x
        · simp only [hfit, decide_true, if_true]
          exact hmiss ((if_neg hx).trans (if_neg (by omega)))
        · simp only [hfit, decide_false, Bool.false_eq_true, if_false]
          exact htop
      | right =>
        by_cases hfit : 0 > x
        · simp only [hfit, decide_true, if_true]
          exact hmiss ((if_neg hx).trans (if_pos hfit))
        · simp only [hfit, decide_false, Bool.false_eq_true, if_false]
          exact htop

/-- A lookup that starts from the clue. -/
theorem lvAvlTreeLookupBy_spec (hk : Compares k cmp) (hs : Searchable s t) (hc : ClueOk s t) :
    LookupSpec k t s (lvAvlTreeLookupBy cmp s) := by
  rw [lvAvlTreeLookupBy]
  cases hn : s.lvt.lastNodeLookedUp with
  | none => exact lookupTop_spec hk hs hc
  | some n =>
    obtain ⟨c, l, b, r, rfl, hd, hmx, hmn⟩ := hc n hn
    have hmem : n ∈ (plug c (node l n b r)).toList := by
      rw [(toList_plug_perm _ _).mem_iff]
      simp [toList]
    have hcmpside := sideOf_cmpAt hk (hs.valid n hmem)
    have hl₁ := looked_cmpAt hk n s
    have hd₁ : Directs (dirOf (cmpAt cmp n s).2.nodes) c := fun g hg => (dirOf_cmpAt hk n s g.a).trans (hd g hg)
    have hc₁ := clueOk_cmpAt hk hc n
    have hlvt : (cmpAt cmp n s).2.lvt = s.lvt := rfl
    obtain ⟨⟨x, s₁⟩, hcmp⟩ : ∃ x, cmpAt cmp n s = x := ⟨_, rfl⟩
    simp only [hcmp] at hcmpside hl₁ hd₁ hc₁ hlvt ⊢
    have hs₁ := hl₁.searchable hs
    have hn₁ : s₁.lvt.lastNodeLookedUp = some n := hlvt ▸ hn
    have hside : ∀ side, sideOf x = some side → keySide s₁.nodes k n = some side := by
      intro side hx
      rw [keySide, hl₁.subsc, ← hcmpside, hx]
    obtain ⟨y, -, hrep⟩ := (rep_plug _ _).1 hs₁.holds
    obtain ⟨-, -, -, hleft, hright⟩ := hrep
    by_cases hx : x = 0
    · rw [if_pos hx]
      refine ⟨hl₁, .found rfl hd₁ ?_, hc₁, by rintro p ⟨⟩⟩
      rw [hx] at hcmpside
      exact (hl₁.subsc n).trans (Subsc.side_none.1 hcmpside.symm).symm
    · rw [if_neg hx]
      split
      · next hpos =>
        split
        · next hnone =>
          rw [Option.isNone_iff_eq_none.1 hnone] at hright
          obtain rfl := hright.eq_nil
          have hbound : s₁.lvt.lastNodeMax = beside .right c := by
            rw [hlvt, hmx rfl]
            rfl
          rw [hbound]
          refine .of_looked hl₁ (lookupClue_spec hk .right hs₁ hd₁ hc₁ hn₁ (hside _ ?_))
          rw [sideOf, if_neg hx, if_neg (by omega)]
        · exact .of_looked hl₁ (lookupTop_spec hk hs₁ hc₁)
      · next hpos =>
        split
        · next hnone =>
          rw [Option.isNone_iff_eq_none.1 hnone] at hleft
          obtain rfl := hleft.eq_nil
          have hbound : s₁.lvt.lastNodeMin = beside .left c := by
            rw [hlvt, hmn rfl]
            rfl
          rw [hbound]
          refine .of_looked hl₁ (lookupClue_spec hk .left hs₁ hd₁ hc₁ hn₁ (hside _ ?_))
          rw [sideOf, if_neg hx, if_pos (by omega)]
        · exact .of_looked hl₁ (lookupTop_spec hk hs₁ hc₁)

end Compare

end Gtm
