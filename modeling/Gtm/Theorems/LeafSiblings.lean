import Gtm.Lemmas.Siblings

/-!
# The siblings of a leaf

`gvcst_rtsib` finds the way to the leaf on the right in every tree. `gvcst_lftsib` finds the one on the left exactly where the formats
of the blocks it looks at, those of the way it comes from, are the formats of the blocks it reads from.
-/

namespace Gtm

open OrderedTree SiblingAux

variable {env : SrchEnv} {qread : Qread} {root : Int} {height : Nat} {key : List UInt8} {w : Walk Int} {cur : SrchBlkStatus}
  {above : List SrchBlkStatus}

namespace SiblingAux

theorem ancestor_mem {k i : Nat} {x p : Int} {ups rest : List (Int × Nat)} (hw : (x, ups ++ (p, i) :: rest) ∈ layer (treeKids qread) root k) :
    ∃ j, k = j + ups.length + 1 ∧ (p, rest) ∈ layer (treeKids qread) root j := by
  induction ups generalizing k x with
  | nil =>
    obtain ⟨j, rfl, hp, -⟩ := parent_mem hw
    exact ⟨j, rfl, hp⟩
  | cons a ups ih =>
    obtain ⟨j, rfl, hp, -⟩ := parent_mem hw
    obtain ⟨m, rfl, hm⟩ := ih hp
    exact ⟨m, rfl, hm⟩

/-- The record of a child that a node has. -/
theorem exists_record (h : BlkTreeOk env qread root height) {k : Nat} (hk : k < height) {p : Int} {rest : List (Int × Nat)}
    (hp : (p, rest) ∈ layer (treeKids qread) root k) {st : SrchBlkStatus} (hst : HistAt qread st p) {i : Nat} {d : Int}
    (hd : (treeKids qread p)[i]? = some d) : ∃ o, st.blk.offsets[i]? = some o ∧ st.blk.childAt o = d := by
  rw [(h.index hk hp hst.read).2.2.2, List.getElem?_map, Option.map_eq_some_iff] at hd
  exact hd

end SiblingAux

/-- `gvcst_rtsib` builds the way to the node on the right, from the leaf or from any other level. -/
theorem gvcstRtsib_reaches (h : BlkTreeOk env qread root height) (hkey : isKey key = true) (altkey : List UInt8) {k : Nat} (hk : k ≤ height)
    (hw : w ∈ layer (treeKids qread) root k) (hpath : SearchPath qread key cur above w) :
    Reaches qread AtChild w ((layer (treeKids qread) root k).getLast? = some w) (fun v => [w, v] <:+: layer (treeKids qread) root k)
      (gvcstRtsib env qread key cur above altkey) := by
  have hnodup := @nodup_layer _ (treeKids qread) root k
  obtain ⟨hsome, hnone⟩ := right_spec (h.kids_ne hk) hw
  rcases rtClimb_spec h hkey altkey hk hw hpath.above [] cur with
    ⟨hall, hend⟩ | ⟨ups, p, i, rest, d, c, hanc, hups, hd, hclimb, hc, hat, hlen⟩
  · have hlast := hnone (right_none hall)
    have hsc : (gvcstRtsib env qread key cur above altkey).sc = .endtree := by
      rw [gvcstRtsib]
      generalize rtClimb env key [] cur above altkey = r at hend
      obtain ⟨sc, c, alt⟩ := r
      obtain rfl : sc = .endtree := hend
      rfl
    exact ⟨iff_of_true hsc hlast, fun v hv => absurd hv (not_succ_of_getLast? hnodup hlast v)⟩
  · obtain ⟨x, anc⟩ := w
    obtain rfl : anc = ups ++ (p, i) :: rest := hanc
    obtain ⟨j, rfl, hp⟩ := ancestor_mem hw
    obtain ⟨-, -, ⟨es, hwf, -⟩, -⟩ := h.index (by omega) hp hc.read
    obtain ⟨o, ho, rfl⟩ := exists_record h (by omega) hp hc hd
    obtain ⟨htop, hlt⟩ := (recordEnd hwf hat).1 o ho
    obtain ⟨v, st, sts, down, hv, hdesc, hvanc, hdlen, hst, hsts⟩ := rtDescend_spec h (n := ups.length) (by omega) hp hc.read ho
      [{ c.cur with prevRec := c.cur.currRec, currRec := ⟨o, 0⟩ }]
    have hnext := hsome v ((right_climb hups hd).trans hv)
    have hout : gvcstRtsib env qread key cur above altkey =
        ⟨.normal, st :: sts ++ [{ c.cur with prevRec := c.cur.currRec, currRec := ⟨o, 0⟩ }], c.hist, altkey⟩ := by
      rw [gvcstRtsib, hclimb]
      simp only [htop]
      rw [if_neg (by simp), if_neg (by omega), hlen, List.length_nil, Nat.zero_add, hdesc]
    rw [hout]
    refine ⟨iff_of_false (by simp) fun hlast => not_succ_of_getLast? hnodup hlast v hnext, ?_⟩
    intro v' hv'
    obtain rfl := succ_unique hnodup hnext hv'
    refine ⟨rfl, st, sts ++ [_], ups ++ [(p, i)], down ++ [(p, i + 1)], rest, rfl, by simp, by simp [hvanc], by simp [hdlen], hst, ?_⟩
    exact forall₂_snoc.2 ⟨hsts, ⟨hc.num, hc.read⟩, ho⟩

namespace SiblingAux

theorem formatsAgree_iff {fmt : Int → Bool} {leaf : Bool} {p : Int} {i : Nat} {ups down rest : List (Int × Nat)}
    (hups : ∀ a ∈ ups, a.2 = 0) (hlen : down.length = ups.length) :
    formatsAgree fmt leaf (ups ++ (p, i + 1) :: rest) (down ++ (p, i) :: rest) ↔
      fmt p = leaf ∧ List.Forall₂ (fun u a => fmt u.1 = fmt a.1) ups down := by
  induction ups generalizing down with
  | nil =>
    obtain rfl := List.length_eq_zero_iff.1 hlen
    simp [formatsAgree]
  | cons u ups ih =>
    cases down with
    | nil => simp at hlen
    | cons a down =>
      obtain ⟨y, n⟩ := u
      obtain rfl : n = 0 := hups (y, n) (by simp)
      rw [List.cons_append, List.cons_append, formatsAgree, ih (fun b hb => hups b (by simp [hb])) (by simpa using hlen),
        List.forall₂_cons]
      tauto

/-- The formats of the levels of the search are those of its blocks. -/
theorem forall₂_fmt_iff {olds : List SrchBlkStatus} {ups down : List (Int × Nat)}
    (h : List.Forall₂ (fun o a => HistAt qread o a.1) olds ups) : List.Forall₂ (fun t a => treeFmt qread a.1 = t.blk.longBlkId) olds down ↔
      List.Forall₂ (fun u a => treeFmt qread u.1 = treeFmt qread a.1) ups down := by
  induction h generalizing down with
  | nil => simp
  | cons ho _ ih =>
    cases down with
    | nil => simp
    | cons a down => rw [List.forall₂_cons, List.forall₂_cons, ih, ho.fmt, eq_comm]

end SiblingAux

/-- A position before the search key in the level itself is no sibling. -/
theorem gvcstLftsib_here {full : Nat → SrchBlkStatus} {altkey : List UInt8} {k : Nat} (h : BlkTreeOk env qread root height) (hk : k ≤ height)
    (hw : w ∈ layer (treeKids qread) root k) (hcur : HistAt qread cur w.1) (hprev : cur.prevRec.offset ≠ 0) :
    ¬Reaches qread (fun _ _ => True) w ((layer (treeKids qread) root k).head? = some w)
      (fun v => [v, w] <:+: layer (treeKids qread) root k) (gvcstLftsib env qread key full cur above altkey) := by
  rintro ⟨hend, hpath⟩
  have hclimb : lftClimb env key [] cur above altkey = (.normal, ⟨[], cur, above⟩, altkey) := by
    cases above <;> rw [lftClimb, if_pos (by omega)]
  have hout : (gvcstLftsib env qread key full cur above altkey).sc = .rmisalign ∨
      ∃ new, HistAt qread new w.1 ∧ (gvcstLftsib env qread key full cur above altkey).sc = .normal ∧
        (gvcstLftsib env qread key full cur above altkey).full = [new] := by
    rw [gvcstLftsib, hclimb]
    simp only
    rw [if_neg (by simp)]
    split
    · exact .inl rfl
    · exact .inr ⟨{ cur with prevRec := (full 0).prevRec, currRec := cur.prevRec }, ⟨hcur.num, hcur.read⟩, by simp [lftDescend],
        by simp [lftDescend]⟩
  obtain ⟨hsome, hnone⟩ := left_spec (h.kids_ne hk) hw
  cases hleft : left (treeKids qread) w.2 with
  | none =>
    have := hend.2 (hnone hleft)
    rcases hout with hout | ⟨new, -, hout, -⟩ <;> simp [hout] at this
  | some v =>
    have hinf := hsome v hleft
    obtain ⟨hsc, new, news, up, down, rest, hfull, hup, hdown, hlen, hnew, hnews⟩ := hpath v hinf
    rcases hout with hout | ⟨new', hnew', -, hout⟩
    · simp [hout] at hsc
    · rw [hout] at hfull
      obtain ⟨rfl, rfl⟩ := List.cons.inj hfull
      obtain rfl := List.forall₂_nil_left_iff.1 hnews
      obtain rfl := List.length_eq_zero_iff.1 hlen
      -- then the node is its own neighbour
      have heq : v = w := Prod.ext (hnew.num.symm.trans hnew'.num) (hdown.trans hup.symm)
      subst heq
      obtain ⟨a, b, hab⟩ := hinf
      have hnodup := @nodup_layer _ (treeKids qread) root k
      rw [← hab] at hnodup
      simp [List.nodup_append] at hnodup

namespace SiblingAux

/-- What follows the climb of `gvcst_lftsib`. -/
theorem lftsib_of_climb (full : Nat → SrchBlkStatus) {altkey altkey' : List UInt8} {c : HistCursor}
    (hclimb : lftClimb env key [] cur above altkey = (.normal, c, altkey'))
    (hfits : c.cur.prevRec.offset + c.cur.blk.rsiz c.cur.prevRec.offset ≤ c.cur.blk.bsiz) :
    ∃ new res, lftDescend qread full c.below c.cur.blk cur.blk.longBlkId (c.cur.prevRec.offset + c.cur.blk.rsiz c.cur.prevRec.offset) [new] =
        res ∧ (∀ p, HistAt qread c.cur p → HistAt qread new p) ∧
      ((∃ sc, res = .error sc ∧ (gvcstLftsib env qread key full cur above altkey).full = []) ∨
        ∃ pre, res = .ok (pre ++ [new]) ∧ pre.length = c.below.length ∧ (gvcstLftsib env qread key full cur above altkey).sc = .normal ∧
          (gvcstLftsib env qread key full cur above altkey).full = pre ++ [new]) := by
  refine ⟨{ c.cur with prevRec := (full c.below.length).prevRec, currRec := c.cur.prevRec }, _, rfl, fun p hc => ⟨hc.num, hc.read⟩, ?_⟩
  rw [gvcstLftsib, hclimb]
  simp only
  rw [if_neg (by simp), if_neg (by omega)]
  split
  · rename_i sc hres
    exact .inl ⟨sc, hres, rfl⟩
  · rename_i all hres
    obtain ⟨pre, rfl, hlen⟩ := lftDescend_ok hres
    exact .inr ⟨pre, hres, hlen, rfl, rfl⟩

end SiblingAux

/-- `gvcst_lftsib` builds the way to the node on the left if and only if it reads every number in the format of the block that has it. -/
theorem gvcstLftsib_reaches_iff (h : BlkTreeOk env qread root height) (hkey : isKey key = true) (altkey : List UInt8)
    (full : Nat → SrchBlkStatus) {k : Nat} (hk : k ≤ height) (hw : w ∈ layer (treeKids qread) root k)
    (hpath : SearchPath qread key cur above w) : Reaches qread (fun _ _ => True) w ((layer (treeKids qread) root k).head? = some w)
      (fun v => [v, w] <:+: layer (treeKids qread) root k) (gvcstLftsib env qread key full cur above altkey) ↔ cur.prevRec.offset = 0 ∧
      ∀ v, [v, w] <:+: layer (treeKids qread) root k → formatsAgree (treeFmt qread) (treeFmt qread w.1) w.2 v.2 := by
  by_cases hprev : cur.prevRec.offset = 0
  swap
  · exact iff_of_false (gvcstLftsib_here h hk hw hpath.cur hprev) fun hc => hprev hc.1
  have hnodup := @nodup_layer _ (treeKids qread) root k
  obtain ⟨hsome, hnone⟩ := left_spec (h.kids_ne hk) hw
  rcases lftClimb_spec h hkey altkey hk hw hpath.above [] hprev with
    ⟨hall, hend⟩ | ⟨ups, p, i, rest, olds, c, hanc, hups, hclimb, hc, hat, hbelow, holds⟩
  · have hfirst := hnone (left_none hall)
    have hsc : (gvcstLftsib env qread key full cur above altkey).sc = .endtree := by
      rw [gvcstLftsib]
      generalize lftClimb env key [] cur above altkey = r at hend
      obtain ⟨sc, c, alt⟩ := r
      obtain rfl : sc = .endtree := hend
      rfl
    refine iff_of_true ⟨iff_of_true hsc hfirst, fun v hv => absurd hv (not_pred_of_head? hnodup hfirst v)⟩ ⟨hprev, ?_⟩
    intro v hv
    exact absurd hv (not_pred_of_head? hnodup hfirst v)
  · obtain ⟨x, anc⟩ := w
    obtain rfl : anc = ups ++ (p, i + 1) :: rest := hanc
    obtain ⟨j, rfl, hp⟩ := ancestor_mem hw
    have hlen : olds.length = ups.length := holds.length_eq
    obtain ⟨-, -, ⟨es, hwf, -⟩, hkids⟩ := h.index (by omega) hp hc.read
    have hfits := (hwf.recordAt hat).1.fits
    obtain ⟨v, down, l, hv, hvanc, hdlen, -⟩ := descend_last h (n := ups.length) (by omega) (child_mem h (by omega) hp hc.read hat)
    have hd : (treeKids qread p)[i]? = some (c.cur.blk.childAt c.cur.prevRec.offset) := by
      rw [hkids, List.getElem?_map, hat]
      rfl
    have hprior := hsome v ((left_climb hups hd).trans hv)
    have huniq : ∀ v', [v', (x, ups ++ (p, i + 1) :: rest)] <:+: layer (treeKids qread) root (j + ups.length + 1) → v' = v :=
      fun v' hv' => pred_unique hnodup hv' hprior
    obtain ⟨new, res, hres, hnew, hout⟩ := @lftsib_of_climb _ qread _ _ _ full _ _ _ hclimb hfits
    rw [hbelow] at hres
    have hk' : j + olds.reverse.length < height := by
      rw [List.length_reverse]
      omega
    have hdesc := lftDescend_iff h full cur hk' hp hc.read hat
      cur.blk.longBlkId [new] (by rw [List.length_reverse, hlen]; exact hv) hvanc
    have hagree : (∀ v', [v', (x, ups ++ (p, i + 1) :: rest)] <:+: layer (treeKids qread) root (j + ups.length + 1) →
        formatsAgree (treeFmt qread) (treeFmt qread x) (ups ++ (p, i + 1) :: rest) v'.2) ↔
        c.cur.blk.longBlkId = cur.blk.longBlkId ∧
          List.Forall₂ (fun t a => treeFmt qread a.1 = t.blk.longBlkId) olds.reverse down.reverse := by
      rw [List.forall₂_reverse_iff, forall₂_fmt_iff holds, ← hc.fmt, ← hpath.cur.fmt, ← formatsAgree_iff hups hdlen, ← hvanc]
      constructor
      · exact fun hall => hall v hprior
      · intro hv' v' hinf
        rw [huniq v' hinf]
        exact hv'
    simp only [hprev, true_and]
    rw [hagree, ← hdesc, hres]
    rcases hout with ⟨-, rfl, hfull⟩ | ⟨pre, rfl, hprelen, hsc, hfull⟩
    · refine iff_of_false ?_ (by rintro ⟨sts, hok, -⟩; simp at hok)
      rintro ⟨-, hpath⟩
      obtain ⟨-, new, news, -, -, -, hcons, -⟩ := hpath v hprior
      simp [hfull] at hcons
    · have hpre : pre.length = ups.length + 1 := by simpa [hbelow, hlen] using hprelen
      constructor
      · rintro ⟨-, hpath⟩
        refine ⟨pre, rfl, ?_⟩
        obtain ⟨-, st, news, -, dn, rest', hcons, -, hdn, -, hst, hnews⟩ := hpath v hprior
        obtain ⟨st', pre, rfl⟩ := List.exists_cons_of_length_eq_add_one hpre
        rw [hfull, List.cons_append] at hcons
        obtain ⟨rfl, rfl⟩ := hcons
        have hdnlen : dn.length = (down ++ [(p, i)]).length := by
          rw [← hnews.length_eq, List.length_append, List.length_append, hdlen]
          simpa using hpre
        have hsplit : dn ++ rest' = down ++ [(p, i)] ++ rest := by rw [← hdn, hvanc, List.append_assoc, List.singleton_append]
        obtain ⟨rfl, -⟩ := List.append_inj hsplit hdnlen
        refine .cons hst ?_
        simpa [List.forall₂_map_right_iff] using (forall₂_snoc.1 hnews).1
      · rintro ⟨sts, hok, hsts⟩
        obtain rfl : pre = sts := List.append_cancel_right (Except.ok.inj hok)
        refine ⟨iff_of_false (by simp [hsc]) fun hfirst => not_pred_of_head? hnodup hfirst v hprior, ?_⟩
        intro v' hinf
        obtain rfl := huniq v' hinf
        obtain ⟨st, news, hst, hnews, rfl⟩ := List.forall₂_cons_right_iff.1 hsts
        refine ⟨hsc, st, news ++ [new], ups ++ [(p, i + 1)], down ++ [(p, i)], rest, hfull, by simp, by simp [hvanc], by simp [hdlen],
          hst, forall₂_snoc.2 ⟨?_, hnew p hc, trivial⟩⟩
        simpa [List.forall₂_map_right_iff] using hnews

/-- From a leaf the two functions build the ways to the leaves beside it, and say that there is none exactly where there is none, if and
only if the search has left nothing before the key in the leaf and the formats agree on the ways to it and to the leaf on the left. -/
theorem siblings_iff (h : BlkTreeOk env qread root height) (hkey : isKey key = true) (altkey : List UInt8) (full : Nat → SrchBlkStatus)
    (hw : w ∈ layer (treeKids qread) root height) (hpath : SearchPath qread key cur above w) :
    (Reaches qread AtChild w ((layer (treeKids qread) root height).getLast? = some w)
        (fun v => [w, v] <:+: layer (treeKids qread) root height) (gvcstRtsib env qread key cur above altkey) ∧
      Reaches qread (fun _ _ => True) w ((layer (treeKids qread) root height).head? = some w)
        (fun v => [v, w] <:+: layer (treeKids qread) root height) (gvcstLftsib env qread key full cur above altkey)) ↔
    cur.prevRec.offset = 0 ∧
      ∀ v, [v, w] <:+: layer (treeKids qread) root height → formatsAgree (treeFmt qread) (treeFmt qread w.1) w.2 v.2 := by
  rw [and_iff_right (gvcstRtsib_reaches h hkey altkey le_rfl hw hpath)]
  exact gvcstLftsib_reaches_iff h hkey altkey full le_rfl hw hpath

/-- A root in the 64-bit format, with the blocks 2 and 3. -/
def rootOfTwo : GdsBlk :=
  ⟨true, 1, 43, fun i =>
    [15, 0, 0, 0, 65, 0, 0, 2, 0, 0, 0, 0, 0, 0, 0, 12, 0, 0, 0, 3, 0, 0, 0, 0, 0, 0, 0].getD (i - 16) 0⟩

/-- A leaf with a name of one character and a value of one. -/
def leafOfName (longBlkId : Bool) (name : UInt8) : GdsBlk := ⟨longBlkId, 0, 24, fun i => [8, 0, 0, 0, name, 0, 0, 49].getD (i - 16) 0⟩

/-- A database with the tree of the two leaves, of which the second has the given format, behind the bit map. -/
def twoLeaves (longBlkId : Bool) : Qread
  | 0 => some (⟨true, 255, 144, fun _ => 0⟩, none)
  | 1 => some (rootOfTwo, none)
  | 2 => some (leafOfName true 65, none)
  | 3 => some (leafOfName longBlkId 66, none)
  | _ => none

/-- The process of a search in small blocks. -/
def smallSearch : SrchEnv := ⟨512, false, 255, false⟩

/-- The history of a search for the name of the second leaf. -/
def secondLeaf (longBlkId : Bool) : SrchBlkStatus := ⟨3, leafOfName longBlkId 66, none, ⟨0, 0⟩, ⟨16, 3⟩⟩

/-- The level above. -/
def overTwoLeaves : SrchBlkStatus := ⟨1, rootOfTwo, none, ⟨16, 0⟩, ⟨31, 0⟩⟩

namespace SiblingAux

theorem twoLeaves_layer (longBlkId : Bool) : layer (treeKids (twoLeaves longBlkId)) 1 1 = [(2, [(1, 0)]), (3, [(1, 1)])] := by
  cases longBlkId <;> decide

theorem twoLeaves_ok (longBlkId : Bool) : BlkTreeOk smallSearch (twoLeaves longBlkId) 1 1 := by
  intro k hk w hw
  obtain rfl | rfl : k = 0 ∨ k = 1 := by omega
  · obtain rfl : w = (1, []) := by simpa [layer] using hw
    exact ⟨by decide, rootOfTwo, none, rfl, (by intros; rename_i h; cases h), rfl, by decide,
      [⟨some [65, 0, 0], [2, 0, 0, 0, 0, 0, 0, 0]⟩, ⟨none, [3, 0, 0, 0, 0, 0, 0, 0]⟩],
      ⟨by decide, by decide, by intro h; cases h⟩, by decide⟩
  · rcases List.mem_pair.1 hw with rfl | rfl
    · exact ⟨by decide, leafOfName true 65, none, rfl, (by intros; rename_i h; cases h), rfl, by decide, [⟨some [65, 0, 0], [49]⟩],
        ⟨by decide, by decide, by decide⟩, by decide⟩
    · refine ⟨by decide, leafOfName longBlkId 66, none, rfl, (by intros; rename_i h; cases h), rfl, ?_, [⟨some [66, 0, 0], [49]⟩], ?_, by decide⟩
      · cases longBlkId <;> decide
      · exact ⟨by cases longBlkId <;> decide, by cases longBlkId <;> decide, fun _ => by decide⟩

theorem secondLeaf_path (longBlkId : Bool) :
    SearchPath (twoLeaves longBlkId) [66, 0, 0] (secondLeaf longBlkId) [overTwoLeaves] (3, [(1, 1)]) :=
  ⟨⟨rfl, rfl⟩, .cons ⟨⟨rfl, rfl⟩, by decide⟩ .nil⟩

end SiblingAux

/-- In the tree of one format both ways are built. -/
theorem siblings_iff_twoLeaves :
    Reaches (twoLeaves true) AtChild (3, [(1, 1)]) ((layer (treeKids (twoLeaves true)) 1 1).getLast? = some (3, [(1, 1)]))
        (fun v => [(3, [(1, 1)]), v] <:+: layer (treeKids (twoLeaves true)) 1 1)
        (gvcstRtsib smallSearch (twoLeaves true) [66, 0, 0] (secondLeaf true) [overTwoLeaves] []) ∧
      Reaches (twoLeaves true) (fun _ _ => True) (3, [(1, 1)]) ((layer (treeKids (twoLeaves true)) 1 1).head? = some (3, [(1, 1)]))
        (fun v => [v, (3, [(1, 1)])] <:+: layer (treeKids (twoLeaves true)) 1 1)
        (gvcstLftsib smallSearch (twoLeaves true) [66, 0, 0] (fun _ => secondLeaf true) (secondLeaf true) [overTwoLeaves] []) := by
  refine (siblings_iff (twoLeaves_ok true) (by decide) [] (fun _ => secondLeaf true) (by rw [twoLeaves_layer]; simp)
    (secondLeaf_path true)).2 ⟨rfl, ?_⟩
  intro v _
  rw [formatsAgree]
  rfl

/-- The second leaf has numbers of 32 bits. `gvcst_lftsib` reads the upper half of the number 2 in the root, and the way it builds ends
in the bit map. -/
theorem gvcstLftsib_mixed :
    BlkTreeOk smallSearch (twoLeaves false) 1 1 ∧ isKey [66, 0, 0] = true ∧ (3, [(1, 1)]) ∈ layer (treeKids (twoLeaves false)) 1 1 ∧
      SearchPath (twoLeaves false) [66, 0, 0] (secondLeaf false) [overTwoLeaves] (3, [(1, 1)]) ∧
      (secondLeaf false).prevRec.offset = 0 ∧ [(2, [(1, 0)]), (3, [(1, 1)])] <:+: layer (treeKids (twoLeaves false)) 1 1 ∧
      let out := gvcstLftsib smallSearch (twoLeaves false) [66, 0, 0] (fun _ => secondLeaf false) (secondLeaf false) [overTwoLeaves] []
      out.full.map SrchBlkStatus.blkNum = [0, 1] ∧ ¬SibPath (twoLeaves false) (fun _ _ => True) out.full (3, [(1, 1)]) (2, [(1, 0)]) := by
  have hnums : (gvcstLftsib smallSearch (twoLeaves false) [66, 0, 0] (fun _ => secondLeaf false) (secondLeaf false) [overTwoLeaves]
      []).full.map SrchBlkStatus.blkNum = [0, 1] := by decide
  refine ⟨twoLeaves_ok false, by decide, by rw [twoLeaves_layer]; simp, secondLeaf_path false, rfl, by rw [twoLeaves_layer], hnums, ?_⟩
  rintro ⟨new, news, up, down, rest, hfull, -, -, -, hnew, -⟩
  rw [hfull, List.map_cons, hnew.num] at hnums
  exact absurd hnums (by simp)

end Gtm
