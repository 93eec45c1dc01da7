import Gtm.Lemmas.AvlLookup
import Gtm.Lv.TreeWalk

/-!
# Steps from a place in a tree

What the routines that go from one node to the next read, and where they come to: in order it is the next node beside the place, and in
post-order the first of what is left, of which nothing that comes before is read.
-/

namespace Gtm

open BalTree BinTree

section InOrder

variable {s : LvTreeState} {ns : LvNodes} {par root : Option Nat} {c : List (Frame Nat)} {t u v : BinTree Nat} {p q : Nat}
  {b : Option Side} {side : Side}

/-! ## In order -/

theorem endLoop_spec {fuel : Nat} (h : TreeRep ns par (some q) t) (hf : t.height ≤ fuel) : some (endLoop side fuel q ns) = t.last side := by
  induction fuel generalizing t q par with
  | zero =>
    cases t with
    | nil => nomatch h
    | node l a b r => simp [height] at hf
  | succ fuel ih =>
    obtain ⟨u, a, b, v, rfl⟩ := exists_mk side h.ne_nil
    obtain ⟨ha, -, -, hu, -⟩ := (rep_mk _ _ _ _ _).1 h
    obtain rfl := Option.some.inj ha
    rw [last_mk, endLoop]
    cases hc : (ns q).child side with
    | none =>
      rw [hc] at hu
      obtain rfl := hu.eq_nil
      cases side <;> rfl
    | some next =>
      rw [hc] at hu
      rw [height_mk] at hf
      have hlast := ih hu (by omega)
      simp only [hlast]
      rw [Option.or_of_isSome (last_isSome hu.ne_nil)]

theorem upLoop_spec {fuel : Nat} (h : TreeRepCtx ns none root c (some p)) (hn : (p :: ctxNodes c).Nodup) (hf : c.length < fuel) :
    upLoop side fuel (parentOf none c) p ns = beside side c := by
  induction c generalizing p fuel with
  | nil =>
    obtain ⟨fuel, rfl⟩ := Nat.exists_eq_succ_of_ne_zero (Nat.ne_zero_of_lt hf)
    cases side <;> rfl
  | cons f c ih =>
    obtain ⟨fuel, rfl⟩ := Nat.exists_eq_succ_of_ne_zero (Nat.ne_zero_of_lt hf)
    obtain ⟨hch, hsib, -, hpar, hup⟩ := h
    simp only [ctxNodes_cons, List.cons_append, List.nodup_cons, List.mem_cons, List.mem_append, not_or] at hn
    obtain ⟨⟨-, hps, -⟩, ⟨-, hac⟩, hnc⟩ := hn
    rw [parentOf, upLoop]
    rcases Side.eq_or_flip side f.side with hs | hs
    · -- from this side on
      have hne : (ns f.a).child side.flip ≠ some p := by
        intro heq
        rw [hs, heq] at hsib
        exact hps hsib.root_mem
      rw [if_neg hne, hpar, ih hup (List.nodup_cons.2 ⟨hac, (List.nodup_append.1 hnc).2.1⟩) (by simpa using hf)]
      cases side <;> simp [beside, before, after, hs]
    · rw [← hs, if_pos hch]
      cases side <;> simp [beside, before, after, hs, Side.flip]

/-- A step to a side comes to the end of the subtree there, or beside the place. -/
theorem lvAvlTreeStep_spec (side : Side) (c : List (Frame Nat)) (u v : BinTree Nat) (h : Holds s (plug c (mk side u p b v))) (hn : (plug c (mk side u p b v)).toList.Nodup)
    (hf : (plug c (mk side u p b v)).height ≤ s.lvt.avlHeight) : lvAvlTreeStep side p s = (u.last side.flip).or (beside side c) := by
  obtain ⟨x, hc, ht⟩ := (rep_plug _ _).1 h
  obtain ⟨rfl, hpar, -, hu, -⟩ := (rep_mk _ _ _ _ _).1 ht
  have hlen := length_le_height_plug c (mk side u p b v)
  rw [height_mk] at hlen
  rw [lvAvlTreeStep]
  cases hch : (s.nodes p).child side with
  | none =>
    rw [hch] at hu
    obtain rfl := hu.eq_nil
    have hnodes : (p :: ctxNodes c).Nodup := by
      have hperm := (toList_plug_perm _ _).trans ((toList_mk_perm side nil p b v).append_right (ctxNodes c))
      refine (hperm.nodup hn).sublist ?_
      exact List.Sublist.cons_cons _ ((List.sublist_append_right _ _))
    simp only [hpar]
    rw [upLoop_spec hc hnodes (by omega)]
    cases side <;> rfl
  | some next =>
    rw [hch] at hu
    rw [Option.or_of_isSome (last_isSome hu.ne_nil)]
    exact endLoop_spec hu (by omega)

/-- The nodes on both sides of a node of a tree. -/
theorem lvAvlTreeStep_eq {A B : List Nat} (hs : Holds s t) (hn : t.toList.Nodup) (hf : t.height ≤ s.lvt.avlHeight)
    (ht : t.toList = A ++ p :: B) : lvAvlTreeNext p s = B.head? ∧ lvAvlTreePrev p s = A.getLast? := by
  obtain ⟨c, l, b, r, rfl⟩ := exists_place (show p ∈ t.toList by simp [ht])
  have hsplit : (plug c (node l p b r)).toList = (before c ++ l.toList) ++ p :: (r.toList ++ after c) := by simp [toList_plug, toList]
  obtain ⟨rfl, rfl⟩ : before c ++ l.toList = A ∧ r.toList ++ after c = B := by
    have hn' := hsplit ▸ hn
    have hp : p ∉ before c ++ l.toList := fun hm => (List.nodup_append.1 hn').2.2 p hm p (by simp) rfl
    have hq : p ∉ r.toList ++ after c := (List.nodup_cons.1 (List.nodup_append.1 hn').2.1).1
    obtain ⟨hA, -, hB⟩ := (List.append_cons_inj_of_notMem hp hq).1 (hsplit.symm.trans ht)
    exact ⟨hA, hB⟩
  constructor
  · have hstep := lvAvlTreeStep_spec .right c r l (b := b) hs hn hf
    rw [lvAvlTreeNext, hstep, List.head?_append]
    rfl
  · have hstep := lvAvlTreeStep_spec .left c l r (b := b) hs hn hf
    rw [lvAvlTreePrev, hstep, List.getLast?_append]
    rfl

/-- The first and the last node. -/
theorem lvAvlTreeFirst_eq (hs : Holds s t) (hf : t.height ≤ s.lvt.avlHeight) :
    lvAvlTreeFirst s = t.toList.head? ∧ lvAvlTreeLast s = t.toList.getLast? := by
  rw [lvAvlTreeFirst, lvAvlTreeLast]
  cases hr : s.lvt.avlRoot with
  | none =>
    rw [Holds, hr] at hs
    obtain rfl := hs.eq_nil
    exact ⟨rfl, rfl⟩
  | some root =>
    rw [Holds, hr] at hs
    exact ⟨endLoop_spec hs hf, endLoop_spec hs hf⟩

end InOrder

/-! ## From a key -/

section Key

variable {s : LvTreeState} {t : BinTree Nat}

/-- A list of nodes falls in those with keys up to `k`, those below it and those above it. -/
structure SplitAt (ns : LvNodes) (k : Subsc) (l A M B : List Nat) : Prop where
  list : l = A ++ M ++ B
  before : ∀ p ∈ A, (ns p).subsc.Lt false k
  at_ : ∀ p ∈ M, (ns p).subsc = k
  after : ∀ p ∈ B, k.Lt false (ns p).subsc

/-- The node next to a key on both sides. -/
theorem lvAvlTreeKeyStep_spec (hs : Searchable s t) (hc : ClueOk s t) (k : TreeKey) : ∃ A M B, SplitAt s.nodes k.subsc t.toList A M B ∧
      (lvAvlTreeKeyNext k s).2 = B.head? ∧ (lvAvlTreeKeyPrev k s).2 = A.getLast? ∧
      Looked s (lvAvlTreeKeyNext k s).1 ∧ ClueOk (lvAvlTreeKeyNext k s).1 t := by
  have hl : LookupSpec k.subsc t s (lvAvlTreeLookup k s) := by
    rw [lvAvlTreeLookup_eq]
    exact lvAvlTreeLookupBy_spec k.compares hs hc
  have hs' := hl.looked.searchable hs
  have hkey := hl.looked.subsc
  obtain ⟨⟨s', res⟩, hres⟩ : ∃ r, lvAvlTreeLookup k s = r := ⟨_, rfl⟩
  rw [hres] at hl hs' hkey
  rw [lvAvlTreeKeyNext, lvAvlTreeKeyPrev, lvAvlTreeKeyStep, lvAvlTreeKeyStep, hres]
  have hn := hs'.sorted.nodup
  cases hl.result with
  | @found c l n b r ht hd hk =>
    subst ht
    have hlist : (plug c (node l n b r)).toList = (before c ++ l.toList) ++ [n] ++ (r.toList ++ after c) := by simp [toList_plug, toList]
    have hstep := lvAvlTreeStep_eq hs'.holds hn hs'.height.ge (p := n) (A := before c ++ l.toList) (B := r.toList ++ after c)
      (by rw [hlist, List.append_assoc]; rfl)
    have hsorted := hs.sorted
    rw [KeysSorted, hlist, List.append_assoc, List.pairwise_append] at hsorted
    obtain ⟨-, haft, hbef⟩ := hsorted
    have hkn : (s.nodes n).subsc = k.subsc := (hkey n).symm.trans hk
    refine ⟨_, _, _, ⟨hlist, fun p hp => ?_, fun p hp => ?_, fun p hp => ?_⟩, hstep.1, hstep.2, hl.looked, hl.clue⟩
    · rw [← hkn]
      exact hbef p hp n (by simp)
    · rw [List.mem_singleton.1 hp, hkn]
    · rw [← hkn]
      exact (List.pairwise_cons.1 haft).1 p hp
  | @missed f c ht hd hb =>
    subst ht
    have hlist : (plug (f :: c) nil).toList = before (f :: c) ++ [] ++ after (f :: c) := toList_plug _ _
    obtain ⟨hbef, haft⟩ := hb.bounds hs'.sorted
    have hdir : (s'.nodes f.a).descentDir = f.side := hd f (by simp)
    have hstep : ∀ side, (if (s'.nodes f.a).descentDir = side then lvAvlTreeStep side f.a s' else some f.a) = beside side (f :: c) := by
      intro side
      rw [hdir]
      split
      · rename_i hside
        subst hside
        have hspec := lvAvlTreeStep_spec f.side c nil f.sib (b := f.bal) hs'.holds hn hs'.height.ge
        rw [hspec]
        cases hf : f.side <;> simp [beside, before, after, hf, last, toList, Side.flip]
      · rename_i hside
        cases hf : f.side <;> cases side <;> simp [hf] at hside <;> simp [beside, before, after, hf]
    refine ⟨_, _, _, ⟨hlist, fun p hp => ?_, (by intros; rename_i h; cases h), fun p hp => ?_⟩, hstep .right, hstep .left, hl.looked, hl.clue⟩
    · rw [← hkey p]
      exact hbef p hp
    · rw [← hkey p]
      exact haft p hp
  | empty ht =>
    subst ht
    exact ⟨[], [], [], ⟨rfl, (by intros; rename_i h; cases h), (by intros; rename_i h; cases h), (by intros; rename_i h; cases h)⟩, rfl, rfl, hl.looked, hl.clue⟩

end Key

end Gtm

/-!
## Steps in post-order

A node that the walk in post-order comes to is told by the frames on the way up from it. Of the subtrees beside the way only those on
the right are still to come, and `PostCtx` asks for nothing else: what it reads is the node and the nodes that come after it.
-/

namespace Gtm

open BalTree BinTree

/-- The way up from the node `x` whose subtree the walk ends with, through the frames. `H` bounds the heights of the subtrees to come. -/
def PostCtx (H : Nat) (ns : LvNodes) : Nat → List (Frame Nat) → Prop
  | x, [] => (ns x).avlParent = none
  | x, f :: c =>
    (ns x).avlParent = some f.a ∧
      (match f.side with
        | .left => TreeRep ns (some f.a) (ns f.a).avlRight f.sib ∧ x ∉ f.sib.toList ∧ f.sib.toList.Nodup ∧ f.sib.height ≤ H
        | .right => (ns f.a).avlRight = some x) ∧
      PostCtx H ns f.a c

section PostOrder

variable {H : Nat} {ns ns' : LvNodes} {par : Option Nat} {t : BinTree Nat} {c : List (Frame Nat)} {q x : Nat}

theorem TreeRep.root_parent (h : TreeRep ns par (some q) t) : (ns q).avlParent = par := by
  cases t with
  | nil => nomatch h
  | node l a b r =>
    obtain ⟨ha, hpar, -⟩ := h
    rw [Option.some.inj ha, hpar]

/-- What comes before the node is not read. -/
theorem PostCtx.congr (h : PostCtx H ns x c) (hs : ∀ p ∈ x :: postRest c, ns' p = ns p) : PostCtx H ns' x c := by
  induction c generalizing x with
  | nil =>
    rw [PostCtx, hs x (by simp)]
    exact h
  | cons f c ih =>
    obtain ⟨hpar, hside, hup⟩ := h
    have ha : ns' f.a = ns f.a := hs f.a (by simp [postRest])
    refine ⟨by rw [hs x (by simp), hpar], ?_, ih hup fun p hp => hs p ?_⟩
    · cases hf : f.side with
      | left =>
        rw [hf] at hside
        obtain ⟨hrep, hrest⟩ := hside
        simp only [ha]
        refine ⟨hrep.congr fun p hp => ?_, hrest⟩
        have hp' : ns' p = ns p := hs p (by simp [postRest, hf, (postList_perm _).mem_iff.2 hp])
        rw [SameShape, hp']
        exact ⟨⟨fun _ => rfl, rfl⟩, rfl⟩
      | right =>
        rw [hf] at hside
        simp only [ha]
        exact hside
    · rw [postRest, List.mem_cons, List.mem_append]
      exact .inr (.inr hp)

/-- The loop down comes to the first node of a subtree in post-order. -/
theorem postLoop_spec {fuel : Nat} (h : TreeRep ns par (some q) t) (hn : t.toList.Nodup) (hf : t.height ≤ fuel) (hH : t.height ≤ H) :
    ∃ d, t.postList = postLoop fuel q ns :: postRest d ∧ ∀ c, PostCtx H ns q c → PostCtx H ns (postLoop fuel q ns) (d ++ c) := by
  induction fuel generalizing t q par with
  | zero =>
    cases t with
    | nil => nomatch h
    | node l a b r => simp [height] at hf
  | succ fuel ih =>
    cases t with
    | nil => nomatch h
    | node l a b r =>
      obtain ⟨ha, -, -, hl, hr⟩ := h
      obtain rfl := Option.some.inj ha
      rw [toList, List.nodup_append, List.nodup_cons] at hn
      obtain ⟨hnl, ⟨-, hnr⟩, hlr⟩ := hn
      rw [height] at hf hH
      cases hleft : (ns q).avlLeft with
      | some tmp =>
        rw [hleft] at hl
        obtain ⟨d, hlist, hup⟩ := ih hl hnl (by omega) (by omega)
        have hstart : postLoop (fuel + 1) q ns = postLoop fuel tmp ns := by simp only [postLoop, hleft]
        rw [hstart]
        refine ⟨d ++ [⟨.left, q, b, r⟩], by simp [postList, postRest_append, postRest, hlist], fun c hc => ?_⟩
        rw [List.append_assoc]
        have htmp : tmp ∉ r.toList := fun hm => hlr tmp hl.root_mem tmp (by simp [hm]) rfl
        exact hup _ ⟨hl.root_parent, ⟨hr, htmp, hnr, by simp only; omega⟩, hc⟩
      | none =>
        rw [hleft] at hl
        obtain rfl := hl.eq_nil
        cases hright : (ns q).avlRight with
        | some tmp =>
          rw [hright] at hr
          obtain ⟨d, hlist, hup⟩ := ih hr hnr (by omega) (by omega)
          have hstart : postLoop (fuel + 1) q ns = postLoop fuel tmp ns := by simp only [postLoop, hleft, hright]
          rw [hstart]
          refine ⟨d ++ [⟨.right, q, b, nil⟩], by simp [postList, postRest_append, postRest, hlist], fun c hc => ?_⟩
          rw [List.append_assoc]
          exact hup _ ⟨hr.root_parent, hright, hc⟩
        | none =>
          rw [hright] at hr
          obtain rfl := hr.eq_nil
          have hstart : postLoop (fuel + 1) q ns = q := by simp only [postLoop, hleft, hright]
          rw [hstart]
          exact ⟨[], by simp [postList, postRest], fun c hc => hc⟩

/-- A step comes to the first of the nodes after `x`, if there is one. -/
theorem lvAvlTreeNextPostOrder_spec {s : LvTreeState} (h : PostCtx s.lvt.avlHeight s.nodes x c) :
    (postRest c = [] ∧ lvAvlTreeNextPostOrder x s = none) ∨
      ∃ y d, lvAvlTreeNextPostOrder x s = some y ∧ postRest c = y :: postRest d ∧ PostCtx s.lvt.avlHeight s.nodes y d := by
  cases c with
  | nil =>
    left
    rw [PostCtx] at h
    simp [lvAvlTreeNextPostOrder, h, postRest]
  | cons f c =>
    right
    obtain ⟨hpar, hside, hup⟩ := h
    cases hf : f.side with
    | right =>
      simp only [hf] at hside
      exact ⟨f.a, c, by simp [lvAvlTreeNextPostOrder, hpar, hside], by simp [postRest, hf], hup⟩
    | left =>
      simp only [hf] at hside
      obtain ⟨hrep, hx, hn, hH⟩ := hside
      cases hright : (s.nodes f.a).avlRight with
      | none =>
        rw [hright] at hrep
        have hnil := hrep.eq_nil
        exact ⟨f.a, c, by simp [lvAvlTreeNextPostOrder, hpar, hright], by simp [postRest, hf, hnil, postList], hup⟩
      | some next =>
        rw [hright] at hrep
        have hne : next ≠ x := by
          rintro rfl
          exact hx hrep.root_mem
        obtain ⟨d, hlist, hd⟩ := postLoop_spec hrep hn hH hH
        refine ⟨_, d ++ ⟨.right, f.a, f.bal, nil⟩ :: c, by simp [lvAvlTreeNextPostOrder, hpar, hright, hne], ?_,
          hd _ ⟨hrep.root_parent, hright, hup⟩⟩
        simp [postRest, postRest_append, hf, hlist]

/-- A node comes after its children. -/
theorem postList_child {root : Option Nat} {p : Nat} {side : Side} (h : TreeRep ns par root t) (hp : p ∈ t.toList)
    (hq : (ns p).child side = some q) : [q, p].Sublist t.postList := by
  induction t generalizing par root with
  | nil => simp [toList] at hp
  | node l a b r ihl ihr =>
    obtain ⟨-, -, -, hl, hr⟩ := h
    rw [toList, List.mem_append, List.mem_cons] at hp
    rcases hp with hp | rfl | hp
    · exact (ihl hl hp).trans ((List.sublist_append_left _ _).trans (List.sublist_append_left _ _))
    · have hmem : q ∈ l.postList ++ r.postList := by
        rw [List.mem_append, (postList_perm _).mem_iff, (postList_perm _).mem_iff]
        cases side with
        | left =>
          rw [LvTreeNode.child] at hq
          exact .inl (hq ▸ hl).root_mem
        | right =>
          rw [LvTreeNode.child] at hq
          exact .inr (hq ▸ hr).root_mem
      exact (List.singleton_sublist.2 hmem).append (.refl [p])
    · exact (ihr hr hp).trans ((List.sublist_append_right _ _).trans (List.sublist_append_left _ _))

end PostOrder

end Gtm
