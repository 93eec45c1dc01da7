import Gtm.Gds.Siblings
import Gtm.Lemmas.BlkSearch

/-!
# Up and down in a history

What a search finds in an index block is a record, with another one before and behind it where the block has one. So the climbs stop at
the first ancestor with a further child on their side. A number read in the other format is not the child's: the two formats share
four bytes, and what a 64-bit number has besides is not the same number.
-/

namespace Gtm

open OrderedTree

/-! ### Numbers of blocks -/

theorem GdsBlk.number_add (b : GdsBlk) (off m n : Nat) : b.number off (m + n) = b.number off m + 256 ^ m * b.number (off + m) n := by
  induction m generalizing off with
  | zero => simp [GdsBlk.number]
  | succ m ih =>
    rw [show m + 1 + n = (m + n) + 1 by omega, GdsBlk.number, GdsBlk.number, ih, show off + (m + 1) = off + 1 + m by omega,
      Nat.pow_succ', Nat.mul_add, Nat.mul_assoc, Nat.add_assoc (b.byte off).toNat]

theorem GdsBlk.number_lt (b : GdsBlk) (off len : Nat) : b.number off len < 256 ^ len := by
  induction len generalizing off with
  | zero => simp [GdsBlk.number]
  | succ len ih =>
    have := ih (off + 1)
    have := (b.byte off).toNat_lt
    rw [GdsBlk.number]
    omega

/-- A positive number at the end of a record is another one in the other format. -/
theorem GdsBlk.readBlkIdAs_ne (b : GdsBlk) {fmt : Bool} {top : Nat} (htop : 8 ≤ top) (hpos : 0 < b.readBlkIdAs fmt (top - sizeofBlkId fmt)) :
    b.readBlkIdAs (!fmt) (top - sizeofBlkId (!fmt)) ≠ b.readBlkIdAs fmt (top - sizeofBlkId fmt) := by
  have hsplit := b.number_add (top - 8) 4 4
  rw [show top - 8 + 4 = top - 4 by omega] at hsplit
  have hlow := b.number_lt (top - 8) 4
  have hhigh := b.number_lt (top - 4) 4
  generalize b.number (top - 8) 4 = low at *
  cases fmt with
  | true =>
    simp only [GdsBlk.readBlkIdAs, Bool.not_true, sizeofBlkId, if_true, Bool.false_eq_true, if_false] at hpos ⊢
    rw [hsplit] at hpos ⊢
    generalize b.number (top - 4) 4 = high at *
    split at hpos <;> split <;> omega
  | false =>
    simp only [GdsBlk.readBlkIdAs, Bool.not_false, sizeofBlkId, if_true, Bool.false_eq_true, if_false] at hpos ⊢
    rw [hsplit]
    generalize b.number (top - 4) 4 = high at *
    split at hpos <;> split <;> omega

/-! ### Records of an index block -/

/-- A record ends where the next one starts, or at the end of the block. -/
structure RecordAt (b : GdsBlk) (offs : List Nat) (i o : Nat) : Prop where
  next : (offs ++ [b.bsiz])[i + 1]? = some (o + b.rsiz o)
  size : o < o + b.rsiz o
  fits : o + b.rsiz o ≤ b.bsiz

theorem recordAt_placed {b : GdsBlk} {off : Nat} {prior : List UInt8} {es : List Entry} (h : Laid b off prior es) {i o : Nat}
    (hi : ((placed off prior es).map Prod.fst)[i]? = some o) : RecordAt b ((placed off prior es).map Prod.fst) i o ∧ off ≤ o := by
  induction es generalizing off prior i with
  | nil => simp [placed] at hi
  | cons e es ih =>
    obtain ⟨hrsiz, -, -, hle, hrest⟩ := h
    cases i with
    | zero =>
      obtain rfl : off = o := by simpa [placed] using hi
      have hsize := e.recHdrSize_le_size prior
      rw [recHdrSize] at hsize
      refine ⟨⟨?_, by omega, by omega⟩, le_rfl⟩
      rw [hrsiz]
      cases es with
      | nil =>
        have hend : off + e.size prior = b.bsiz := hrest
        simp [placed, hend]
      | cons e' es => simp [placed]
    | succ i =>
      obtain ⟨⟨hnext, hsize, hfits⟩, hoff⟩ := ih hrest hi
      exact ⟨⟨hnext, hsize, hfits⟩, by omega⟩

section Index

variable {b : GdsBlk} {es : List Entry} {key : List UInt8}

theorem offsets_eq (h : WfBlk b es) : b.offsets = (placed blkHdrSize [] es).map Prod.fst := by
  rw [GdsBlk.offsets, decompress_eq_placed h.laid h.contents (Nat.le_add_right _ _)]

theorem WfBlk.recordAt (h : WfBlk b es) {i o : Nat} (hi : b.offsets[i]? = some o) : RecordAt b b.offsets i o ∧ blkHdrSize ≤ o := by
  rw [offsets_eq h] at hi ⊢
  exact recordAt_placed h.laid hi

/-- The first record is behind the header, and there is one in an index block. -/
theorem WfBlk.offsets_head (h : WfBlk b es) (hlevl : b.levl ≠ 0) : b.offsets.head? = some blkHdrSize := by
  rw [offsets_eq h]
  cases es with
  | nil => simpa [Contents, hlevl] using h.contents
  | cons e es => rfl

/-- The star entry is not before the search key. -/
theorem exists_not_before {off : Nat} {prior : List UInt8} (key : List UInt8) {n : Nat} (hc : Contents false n prior es) :
    ∃ r ∈ placed off prior es, recBefore key r = false := by
  induction es generalizing off prior with
  | nil => simp [Contents] at hc
  | cons e es ih =>
    cases hk : e.key with
    | none => exact ⟨(off, none), by simp [placed, hk], rfl⟩
    | some k =>
      simp only [Contents, hk] at hc
      have hkb : e.keyBytes = k := by simp [Entry.keyBytes, hk]
      obtain ⟨r, hr, hbefore⟩ := @ih (off + e.size prior) _ hc.2.2.2
      exact ⟨r, by simp [placed, hkb, hr], hbefore⟩

section
variable (h : WfBlk b es) (hlevl : b.levl ≠ 0)
include h hlevl

/-- The search stops at a record of an index block. -/
theorem WfBlk.searchIdx_lt (key : List UInt8) : searchIdx b key < b.offsets.length := by
  rw [searchIdx, GdsBlk.offsets, List.length_map, decompress_eq_placed h.laid h.contents (Nat.le_add_right _ _)]
  have hc := h.contents
  rw [decide_eq_false hlevl] at hc
  obtain ⟨r, hr, hbefore⟩ := @exists_not_before _ blkHdrSize _ key _ hc
  refine lt_of_le_of_ne (List.takeWhile_sublist _).length_le ?_
  intro heq
  have hall := (List.takeWhile_sublist (recBefore key)).eq_of_length heq
  rw [← hall] at hr
  have := List.mem_takeWhile_imp hr
  rw [hbefore] at this
  exact absurd this (by simp)

/-- The positions that a search of an index block leaves. -/
theorem WfBlk.naiveSearch_offsets (key : List UInt8) : b.offsets[searchIdx b key]? = some (naiveSearch b key).currRec.offset ∧
    (searchIdx b key = 0 → (naiveSearch b key).prevRec.offset = 0) ∧
    ∀ i, searchIdx b key = i + 1 → b.offsets[i]? = some (naiveSearch b key).prevRec.offset := by
  have hlt := h.searchIdx_lt hlevl key
  rw [searchIdx, GdsBlk.offsets, naiveSearch, lastBefore, firstNotBefore] at *
  generalize decompress b b.bsiz blkHdrSize [] = recs at *
  have hsplit := List.takeWhile_append_dropWhile (p := recBefore key) (l := recs)
  generalize recs.takeWhile (recBefore key) = before at *
  generalize recs.dropWhile (recBefore key) = behind at *
  subst hsplit
  cases behind with
  | nil => simp at hlt
  | cons r behind =>
    refine ⟨by simp [recStat], ?_, ?_⟩
    · intro hnil
      simp [List.length_eq_zero_iff.1 hnil]
    · intro i hi
      rcases List.eq_nil_or_concat before with rfl | ⟨before, r', rfl⟩
      · simp at hi
      · obtain rfl : before.length = i := by simpa using hi
        simp [recStat]

/-- `gvcst_search_blk` on an index block. -/
theorem WfBlk.searchBlk {env : SrchEnv} (hb : b.bsiz ≤ env.blkSize) (hkey : isKey key = true)
    (hfit : ∀ e ∈ es, e.keyBytes.length ≤ env.altTop) (stat : SrchStat) (altkey : List UInt8) :
    gvcstSearchBlk env b key stat altkey = ⟨.normal, naiveSearch b key, altkey⟩ := by
  have hnaive := congrArg Prod.fst (naiveSearch_eq h key)
  rw [gvcstSearchBlk_wf h hb hkey (fun _ => hfit), ← hnaive, if_neg fun hc => hlevl hc.1]

end

end Index

/-! ### Nodes of the tree -/

theorem HistAt.fmt {qread : Qread} {h : SrchBlkStatus} {n : Int} (hh : HistAt qread h n) : treeFmt qread n = h.blk.longBlkId := by
  rw [treeFmt, hh.read]
  rfl

section Tree

variable {env : SrchEnv} {qread : Qread} {root : Int} {height k : Nat} {w : Walk Int}

section
variable (h : BlkTreeOk env qread root height)
include h

/-- The buffer that has a node with a child. -/
theorem BlkTreeOk.index (hk : k < height) (hw : w ∈ layer (treeKids qread) root k) {b : GdsBlk}
    {cr : Option Int} (hb : qread w.1 = some (b, cr)) :
    b.levl ≠ 0 ∧ b.bsiz ≤ env.blkSize ∧ (∃ es, WfBlk b es ∧ ∀ e ∈ es, e.keyBytes.length ≤ env.altTop) ∧
      treeKids qread w.1 = b.offsets.map b.childAt := by
  obtain ⟨-, b', cr', hb', -, hlevl, hsize, hwf⟩ := h k (Nat.le_of_lt hk) w hw
  rw [hb] at hb'
  obtain ⟨rfl, rfl⟩ := Prod.mk.inj (Option.some.inj hb')
  have hne : b.levl ≠ 0 := by omega
  refine ⟨hne, hsize, hwf, ?_⟩
  simp only [treeKids, hb]
  rw [if_neg hne]

theorem BlkTreeOk.lost (hk : k ≤ height) (hw : w ∈ layer (treeKids qread) root k) {st : SrchBlkStatus}
    (hst : HistAt qread st w.1) : st.lost = false := by
  obtain ⟨-, b, cr, hb, hcr, -⟩ := h k hk w hw
  rw [hst.read] at hb
  obtain ⟨rfl, rfl⟩ := Prod.mk.inj (Option.some.inj hb)
  rw [SrchBlkStatus.lost]
  cases hc : st.crBlk with
  | none => rfl
  | some n =>
    have := hcr n hc
    simp [hst.num, this]

theorem BlkTreeOk.kids_ne (hk : k ≤ height) : ∀ j < k, ∀ w ∈ layer (treeKids qread) root j, treeKids qread w.1 ≠ [] := by
  intro j hj w hw
  obtain ⟨-, b, cr, hb, -⟩ := h j (by omega) w hw
  obtain ⟨hlevl, -, ⟨es, hwf, -⟩, hkids⟩ := h.index (by omega) hw hb
  rw [hkids]
  intro hnil
  have := hwf.offsets_head hlevl
  rw [List.map_eq_nil_iff.1 hnil] at this
  exact absurd this (by simp)

end

end Tree

end Gtm

/-!
## The ways to the siblings

The climbs end at the nearest ancestor with a further child, or behind the root. From there the descent of `gvcst_rtsib` follows the
first children, and that of `gvcst_lftsib` the last ones as long as it reads their numbers in the formats they are in.
-/

namespace Gtm

open OrderedTree

variable {env : SrchEnv} {qread : Qread} {root : Int} {height : Nat} {key : List UInt8}

/-- The levels of a history and the ancestors that a search takes them for. -/
abbrev OnWay (qread : Qread) (key : List UInt8) (h : SrchBlkStatus) (a : Int × Nat) : Prop := HistAt qread h a.1 ∧ a.2 = searchIdx h.blk key

namespace SiblingAux

variable {anc : List (Int × Nat)} {i k o j : Nat} {x q : Int} {es : List Entry} {cr : Option Int} {long : Bool}

/-- The parent of a node. -/
theorem parent_mem {p : Int} (hw : (x, (p, i) :: anc) ∈ layer (treeKids qread) root k) :
    ∃ j, k = j + 1 ∧ (p, anc) ∈ layer (treeKids qread) root j ∧ (treeKids qread p)[i]? = some x := by
  cases k with
  | zero => simp [layer] at hw
  | succ k =>
    obtain ⟨q, anc', j, c, hq, hc, heq⟩ := mem_layer_succ.1 hw
    obtain ⟨rfl, hcons⟩ := Prod.mk.inj heq
    obtain ⟨hpi, rfl⟩ := List.cons.inj hcons
    obtain ⟨rfl, rfl⟩ := Prod.mk.inj hpi
    exact ⟨k, rfl, hq, hc⟩

/-- What the search of an ancestor leaves. -/
structure Searched (env : SrchEnv) (qread : Qread) (key : List UInt8) (old new : SrchBlkStatus) (altkey : List UInt8) (p : Int)
    (i : Nat) : Prop where
  lost : old.lost = false
  search : ∃ stat, gvcstSearchBlk env old.blk key ⟨old.prevRec, old.currRec⟩ altkey = ⟨.normal, stat, altkey⟩ ∧ old.searched stat = new
  hist : HistAt qread new p
  wf : ∃ es, WfBlk new.blk es
  kids : treeKids qread p = new.blk.offsets.map new.blk.childAt
  curr : AtChild new i
  prev_zero : i = 0 → new.prevRec.offset = 0
  prev_succ : ∀ j, i = j + 1 → new.blk.offsets[j]? = some new.prevRec.offset

theorem searched_of_onWay (h : BlkTreeOk env qread root height) (hkey : isKey key = true) (hk : k < height) {p : Int} (hp : (p, anc) ∈ layer (treeKids qread) root k) {old : SrchBlkStatus} (hold : OnWay qread key old (p, i))
    (altkey : List UInt8) : ∃ new, Searched env qread key old new altkey p i := by
  obtain ⟨hlevl, hsize, ⟨es, hwf, hfit⟩, hkids⟩ := h.index hk hp hold.1.read
  obtain ⟨hcurr, hzero, hsucc⟩ := hwf.naiveSearch_offsets hlevl key
  have hi : i = searchIdx old.blk key := hold.2
  rw [← hi] at hcurr hzero hsucc
  exact ⟨old.searched (naiveSearch old.blk key), h.lost (Nat.le_of_lt hk) hp hold.1,
    ⟨_, hwf.searchBlk hlevl hsize hkey hfit _ altkey, rfl⟩, ⟨hold.1.num, hold.1.read⟩, ⟨es, hwf⟩, hkids, hcurr, hzero, hsucc⟩

/-- Where a record has another one behind it, it ends there, and else with the block. -/
theorem recordEnd {b : GdsBlk} (hwf : WfBlk b es) (ho : b.offsets[i]? = some o) :
    (∀ o', b.offsets[i + 1]? = some o' → o + b.rsiz o = o' ∧ o' < b.bsiz) ∧ (b.offsets[i + 1]? = none → o + b.rsiz o = b.bsiz) := by
  have hrec := (hwf.recordAt ho).1
  constructor
  · intro o' ho'
    have hlt := (List.getElem?_eq_some_iff.1 ho').1
    have hrec' := (hwf.recordAt ho').1
    have hnext := hrec.next
    rw [List.getElem?_append_left hlt, ho'] at hnext
    have := hrec'.size
    have := hrec'.fits
    exact ⟨(Option.some.inj hnext).symm, by omega⟩
  · intro hnone
    have hlt := (List.getElem?_eq_some_iff.1 ho).1
    have hge := List.getElem?_eq_none_iff.1 hnone
    have hnext := hrec.next
    rw [List.getElem?_append_right hge, show i + 1 - b.offsets.length = 0 by omega] at hnext
    exact (Option.some.inj hnext).symm

section
variable (h : BlkTreeOk env qread root height)
include h

/-- The climb to the right. -/
theorem rtClimb_spec (hkey : isKey key = true) (altkey : List UInt8) (hk : k ≤ height) (hw : (x, anc) ∈ layer (treeKids qread) root k) {above : List SrchBlkStatus}
    (habove : List.Forall₂ (OnWay qread key) above anc) (below : List SrchBlkStatus) (cur : SrchBlkStatus) :
    ((∀ a ∈ anc, (treeKids qread a.1)[a.2 + 1]? = none) ∧ (rtClimb env key below cur above altkey).1 = .endtree) ∨
    ∃ ups p i rest d c, anc = ups ++ (p, i) :: rest ∧ (∀ a ∈ ups, (treeKids qread a.1)[a.2 + 1]? = none) ∧
      (treeKids qread p)[i + 1]? = some d ∧ rtClimb env key below cur above altkey = (.normal, c, altkey) ∧
      HistAt qread c.cur p ∧ AtChild c.cur i ∧ c.below.length = below.length + ups.length + 1 := by
  induction habove generalizing k x below cur with
  | nil => exact .inl ⟨by simp, rfl⟩
  | @cons old a above anc hold habove ih =>
    obtain ⟨p, i⟩ := a
    obtain ⟨k, rfl, hp, -⟩ := parent_mem hw
    obtain ⟨new, hs⟩ := searched_of_onWay h hkey (by omega) hp hold altkey
    obtain ⟨stat, hsearch, hnew⟩ := hs.search
    obtain ⟨es, hwf⟩ := hs.wf
    obtain ⟨hsome, hnone⟩ := recordEnd hwf hs.curr
    have hfits := (hwf.recordAt hs.curr).1.fits
    rw [rtClimb, hs.lost, if_neg (by simp)]
    simp only [hsearch, hnew]
    rw [if_neg (by simp), if_neg (by omega)]
    cases hnext : new.blk.offsets[i + 1]? with
    | some o =>
      obtain ⟨htop, hlt⟩ := hsome o hnext
      rw [htop, if_pos hlt]
      exact .inr ⟨[], p, i, anc, new.blk.childAt o, _, rfl, by simp, by rw [hs.kids, List.getElem?_map, hnext]; rfl, rfl, hs.hist,
        hs.curr, rfl⟩
    | none =>
      have hlast : (treeKids qread p)[i + 1]? = none := by rw [hs.kids, List.getElem?_map, hnext]; rfl
      rw [hnone hnext, if_neg (by omega)]
      rcases ih (by omega) hp (cur :: below) new with ⟨hall, hend⟩ | ⟨ups, q, j, rest, d, c, rfl, hups, hd, hclimb, hc, hat, hlen⟩
      · exact .inl ⟨List.forall_mem_cons.2 ⟨hlast, hall⟩, hend⟩
      · refine .inr ⟨(p, i) :: ups, q, j, rest, d, c, rfl, List.forall_mem_cons.2 ⟨hlast, hups⟩, hd, hclimb, hc, hat, ?_⟩
        rw [hlen, List.length_cons, List.length_cons]
        omega

/-- The climb to the left, from a level with nothing before the search key. -/
theorem lftClimb_spec (hkey : isKey key = true) (altkey : List UInt8) (hk : k ≤ height) (hw : (x, anc) ∈ layer (treeKids qread) root k) {above : List SrchBlkStatus}
    (habove : List.Forall₂ (OnWay qread key) above anc) (below : List SrchBlkStatus) {cur : SrchBlkStatus} (hcur : cur.prevRec.offset = 0) :
    ((∀ a ∈ anc, a.2 = 0) ∧ (lftClimb env key below cur above altkey).1 = .endtree) ∨
    ∃ ups p i rest olds c, anc = ups ++ (p, i + 1) :: rest ∧ (∀ a ∈ ups, a.2 = 0) ∧
      lftClimb env key below cur above altkey = (.normal, c, altkey) ∧ HistAt qread c.cur p ∧
      c.cur.blk.offsets[i]? = some c.cur.prevRec.offset ∧ c.below = olds.reverse ++ cur :: below ∧
      List.Forall₂ (fun o a => HistAt qread o a.1) olds ups := by
  induction habove generalizing k x below cur with
  | nil => exact .inl ⟨by simp, by rw [lftClimb, if_neg (by omega)]⟩
  | @cons old a above anc hold habove ih =>
    obtain ⟨p, i⟩ := a
    obtain ⟨k, rfl, hp, -⟩ := parent_mem hw
    obtain ⟨new, hs⟩ := searched_of_onWay h hkey (by omega) hp hold altkey
    obtain ⟨stat, hsearch, hnew⟩ := hs.search
    obtain ⟨es, hwf⟩ := hs.wf
    rw [lftClimb, if_neg (by omega), hs.lost]
    simp only [hsearch, hnew]
    cases i with
    | succ i =>
      have hprev := hs.prev_succ i rfl
      have hpos : 0 < new.prevRec.offset := by
        have := (hwf.recordAt hprev).2
        rw [blkHdrSize] at this
        omega
      have hclimb : lftClimb env key (cur :: below) new above altkey = (.normal, ⟨cur :: below, new, above⟩, altkey) := by
        cases above <;> rw [lftClimb, if_pos hpos]
      exact .inr ⟨[], p, i, anc, [], _, rfl, by simp, hclimb, hs.hist, hprev, rfl, .nil⟩
    | zero =>
      rcases ih (by omega) hp (cur :: below) (hs.prev_zero rfl) with
        ⟨hall, hend⟩ | ⟨ups, q, j, rest, olds, c, rfl, hups, hclimb, hc, hat, hbelow, holds⟩
      · exact .inl ⟨List.forall_mem_cons.2 ⟨rfl, hall⟩, hend⟩
      · refine .inr ⟨(p, 0) :: ups, q, j, rest, new :: olds, c, rfl, List.forall_mem_cons.2 ⟨rfl, hups⟩, hclimb, hc, hat, ?_,
          .cons hs.hist holds⟩
        rw [hbelow, List.reverse_cons, List.append_assoc, List.singleton_append]

/-! ### Down -/

/-- The child in a record of a block. -/
theorem child_mem (hk : k < height) (hq : (q, anc) ∈ layer (treeKids qread) root k) {b : GdsBlk} (hb : qread q = some (b, cr))
    (ho : b.offsets[j]? = some o) : (b.childAt o, (q, j) :: anc) ∈ layer (treeKids qread) root (k + 1) := by
  refine mem_layer_succ.2 ⟨q, anc, j, b.childAt o, hq, ?_, rfl⟩
  rw [(h.index hk hq hb).2.2.2, List.getElem?_map, ho]
  rfl

/-- The descent along the first children. -/
theorem rtDescend_spec {n : Nat} (hk : k + n < height)
    (hq : (q, anc) ∈ layer (treeKids qread) root k) {b : GdsBlk} (hb : qread q = some (b, cr))
    (ho : b.offsets[j]? = some o) (new : List SrchBlkStatus) :
    ∃ v st sts down, descend (firstKid (treeKids qread)) n (b.childAt o, (q, j) :: anc) = some v ∧
      rtDescend qread (n + 1) b b.longBlkId o new = .ok (st :: sts ++ new) ∧ v.2 = down ++ (q, j) :: anc ∧ down.length = n ∧
      HistAt qread st v.1 ∧ List.Forall₂ (fun h a => HistAt qread h a.1 ∧ AtChild h a.2) sts down := by
  induction n generalizing k q anc b cr j o new with
  | zero =>
    have hd := child_mem h hk hq hb ho
    obtain ⟨hlevl, -, ⟨es, hwf, -⟩, -⟩ := h.index hk hq hb
    have hfits := (hwf.recordAt ho).1.fits
    obtain ⟨-, b', cr', hb', -⟩ := h (k + 1) hk _ hd
    refine ⟨_, ⟨b.childAt o, b', cr', ⟨0, 0⟩, ⟨blkHdrSize, 0⟩⟩, [], [], rfl, ?_, rfl, rfl, ⟨rfl, hb'⟩, .nil⟩
    rw [rtDescend, if_neg (by omega)]
    simp only [GdsBlk.childAt] at hb' ⊢
    simp only [hb', rtDescend]
    rfl
  | succ n ih =>
    have hd := child_mem h (by omega) hq hb ho
    obtain ⟨-, -, ⟨es, hwf, -⟩, -⟩ := h.index (by omega) hq hb
    have hfits := (hwf.recordAt ho).1.fits
    obtain ⟨-, b', cr', hb', -⟩ := h (k + 1) (by omega) _ hd
    obtain ⟨hlevl, -, ⟨es', hwf', -⟩, hkids⟩ := h.index (by omega) hd hb'
    have hhead := hwf'.offsets_head hlevl
    have hfirst : firstKid (treeKids qread) (b.childAt o) = some (b'.childAt blkHdrSize, 0) := by
      simp [firstKid, hkids, hhead]
    rw [List.head?_eq_getElem?] at hhead
    have hat : AtChild ⟨b.childAt o, b', cr', ⟨0, 0⟩, ⟨blkHdrSize, 0⟩⟩ 0 := hhead
    obtain ⟨v, st, sts, down, hv, hdesc, hanc, hlen, hst, hsts⟩ := ih (by omega) hd hb' hhead
      (⟨b.childAt o, b', cr', ⟨0, 0⟩, ⟨blkHdrSize, 0⟩⟩ :: new)
    refine ⟨v, st, sts ++ [⟨b.childAt o, b', cr', ⟨0, 0⟩, ⟨blkHdrSize, 0⟩⟩], down ++ [(b.childAt o, 0)], ?_, ?_, by simp [hanc],
      by simp [hlen], hst, List.rel_append hsts (.cons ⟨⟨rfl, hb'⟩, hat⟩ .nil)⟩
    · rw [descend, step, hfirst]
      exact hv
    · rw [rtDescend, if_neg (by omega)]
      have hread : qread (b.readBlkIdAs b.longBlkId (o + b.rsiz o - sizeofBlkId b.longBlkId)) = some (b', cr') := hb'
      simp only [hread]
      rw [GdsBlk.childAt] at hdesc
      rw [hdesc]
      simp [GdsBlk.childAt]

/-- Along the last children there is a way down. -/
theorem descend_last {n : Nat} (hk : k + n ≤ height) {d : Int} (hd : (d, anc) ∈ layer (treeKids qread) root k) :
    ∃ v down l, descend (lastKid (treeKids qread)) n (d, anc) = some v ∧ v.2 = down ++ anc ∧ down.length = n ∧
      v.1 :: down.map Prod.fst = l ++ [d] := by
  induction n generalizing k d anc with
  | zero => exact ⟨(d, anc), [], [], rfl, rfl, rfl, rfl⟩
  | succ n ih =>
    obtain ⟨-, b, -, hb, -⟩ := h k (by omega) _ hd
    have hne := h.kids_ne (k := k + 1) (by omega) k (by omega) _ hd
    obtain ⟨c, hc⟩ := Option.ne_none_iff_exists'.1 (mt List.getLast?_eq_none_iff.1 hne)
    have hmem : (c, (d, (treeKids qread d).length - 1) :: anc) ∈ layer (treeKids qread) root (k + 1) := by
      refine mem_layer_succ.2 ⟨d, anc, _, c, hd, ?_, rfl⟩
      rw [← List.getLast?_eq_getElem?]
      exact hc
    obtain ⟨v, down, l, hv, hanc, hlen, hl⟩ := ih (by omega) hmem
    refine ⟨v, down ++ [(d, (treeKids qread d).length - 1)], l ++ [c], ?_, by simp [hanc], by simp [hlen], by simp [← hl]⟩
    rw [descend, step, lastKid, hc]
    exact hv

end

/-- The new levels go before the ones there are. -/
theorem lftDescend_ok {full : Nat → SrchBlkStatus} {below : List SrchBlkStatus} {b : GdsBlk} {rtop : Nat}
    {new all : List SrchBlkStatus} (h : lftDescend qread full below b long rtop new = .ok all) :
    ∃ pre, all = pre ++ new ∧ pre.length = below.length := by
  induction below generalizing b long rtop new with
  | nil =>
    exact ⟨[], (Except.ok.inj h).symm, rfl⟩
  | cons old below ih =>
    rw [lftDescend] at h
    split at h
    · exact absurd h (by simp)
    · obtain ⟨pre, hall, hlen⟩ := ih h
      exact ⟨pre ++ [_], by rw [hall, List.append_assoc]; rfl, by simp [hlen]⟩

theorem forall₂_snoc {α β : Type} {R : α → β → Prop} {l : List α} {m : List β} {a : α} {b : β} :
    List.Forall₂ R (l ++ [a]) (m ++ [b]) ↔ List.Forall₂ R l m ∧ R a b := by
  rw [← List.forall₂_reverse_iff, List.reverse_append, List.reverse_append]
  simp only [List.reverse_cons, List.reverse_nil, List.nil_append, List.singleton_append, List.forall₂_cons, List.forall₂_reverse_iff]
  exact and_comm

/-- The number that has been read is that of the highest new level. -/
theorem read_of_lftDescend {full : Nat → SrchBlkStatus} {old : SrchBlkStatus} {below : List SrchBlkStatus} {b : GdsBlk}
    {rtop : Nat} {new sts : List SrchBlkStatus} (h : lftDescend qread full (old :: below) b long rtop new = .ok (sts ++ new)) {l : List Int}
    {d : Int} (hsts : List.Forall₂ (HistAt qread) sts (l ++ [d])) : b.readBlkIdAs long (rtop - sizeofBlkId long) = d := by
  rw [lftDescend] at h
  split at h
  · exact absurd h (by simp)
  · obtain ⟨pre, hall, -⟩ := lftDescend_ok h
    rw [List.append_cons, List.append_left_inj] at hall
    rw [hall, forall₂_snoc] at hsts
    exact hsts.2.num

/-- A child's number is read in one format only. -/
theorem fmt_of_read {b : GdsBlk} (hwf : WfBlk b es) (ho : b.offsets[j]? = some o) (hpos : 0 < b.childAt o) (h : b.readBlkIdAs long (o + b.rsiz o - sizeofBlkId long) = b.childAt o) : b.longBlkId = long := by
  by_contra hne
  obtain rfl : long = !b.longBlkId := by cases long <;> cases hb : b.longBlkId <;> simp_all
  have hoff := (hwf.recordAt ho).2
  rw [blkHdrSize] at hoff
  exact b.readBlkIdAs_ne (by omega) hpos h

/-- One level of the descent: it goes on from the child if the number is read in the format of the block, and fails otherwise. -/
theorem lftDescend_step (full : Nat → SrchBlkStatus) (old : SrchBlkStatus) (below : List SrchBlkStatus) {b b' : GdsBlk}
    (hwf : WfBlk b es) (ho : b.offsets[j]? = some o) (hpos : 0 < b.childAt o) {cr' : Option Int}
    (hb' : qread (b.childAt o) = some (b', cr')) (long : Bool) (new : List SrchBlkStatus) (l : List Int) :
    (∃ sts, lftDescend qread full (old :: below) b long (o + b.rsiz o) new = .ok (sts ++ new) ∧
      List.Forall₂ (HistAt qread) sts (l ++ [b.childAt o])) ↔
    b.longBlkId = long ∧ ∃ sts, lftDescend qread full below b' old.blk.longBlkId b'.bsiz
        ({ full below.length with blkNum := b.childAt o, blk := b', crBlk := cr' } :: new) =
          .ok (sts ++ { full below.length with blkNum := b.childAt o, blk := b', crBlk := cr' } :: new) ∧
        List.Forall₂ (HistAt qread) sts l := by
  constructor
  · rintro ⟨sts, hdesc, hsts⟩
    have hlong := fmt_of_read hwf ho hpos (read_of_lftDescend hdesc hsts)
    subst hlong
    refine ⟨rfl, ?_⟩
    have hread : qread (b.readBlkIdAs b.longBlkId (o + b.rsiz o - sizeofBlkId b.longBlkId)) = some (b', cr') := hb'
    rw [lftDescend] at hdesc
    simp only [hread] at hdesc
    obtain ⟨pre, hall, -⟩ := lftDescend_ok hdesc
    refine ⟨pre, hdesc.trans (congrArg Except.ok hall), ?_⟩
    rw [List.append_cons, List.append_left_inj] at hall
    rw [hall, forall₂_snoc] at hsts
    exact hsts.1
  · rintro ⟨rfl, sts, hdesc, hsts⟩
    have hread : qread (b.readBlkIdAs b.longBlkId (o + b.rsiz o - sizeofBlkId b.longBlkId)) = some (b', cr') := hb'
    refine ⟨sts ++ [{ full below.length with blkNum := b.childAt o, blk := b', crBlk := cr' }], ?_, forall₂_snoc.2 ⟨hsts, rfl, hb'⟩⟩
    rw [lftDescend]
    simp only [hread]
    rw [List.append_assoc]
    exact hdesc

/-- The descent along the last children comes to the node if and only if every number is read in the format of its block: first `long`,
then the formats of the levels `ts` of the search, from the top down. -/
theorem lftDescend_iff (h : BlkTreeOk env qread root height) (full : Nat → SrchBlkStatus) {ts : List SrchBlkStatus} (cur : SrchBlkStatus) (hk : k + ts.length < height) (hq : (q, anc) ∈ layer (treeKids qread) root k)
    {b : GdsBlk} (hb : qread q = some (b, cr)) (ho : b.offsets[j]? = some o) (long : Bool)
    (new : List SrchBlkStatus) {v : Walk Int} {down : List (Int × Nat)}
    (hv : descend (lastKid (treeKids qread)) ts.length (b.childAt o, (q, j) :: anc) = some v) (hdown : v.2 = down ++ (q, j) :: anc) :
    (∃ sts, lftDescend qread full (ts ++ [cur]) b long (o + b.rsiz o) new = .ok (sts ++ new) ∧
      List.Forall₂ (HistAt qread) sts (v.1 :: down.map Prod.fst)) ↔
    b.longBlkId = long ∧ List.Forall₂ (fun t a => treeFmt qread a.1 = t.blk.longBlkId) ts down.reverse := by
  induction ts generalizing k q anc b cr j o long new down with
  | nil =>
    have hd := child_mem h hk hq hb ho
    obtain ⟨-, -, ⟨es, hwf, -⟩, -⟩ := h.index hk hq hb
    obtain ⟨hpos, b', cr', hb', -⟩ := h (k + 1) hk _ hd
    obtain rfl := Option.some.inj hv
    obtain rfl : down = [] := List.self_eq_append_left.1 hdown
    have hstep := lftDescend_step full cur [] hwf ho hpos hb' long new []
    simp only [List.nil_append, List.map_nil, List.reverse_nil, List.forall₂_nil_right_iff] at hstep ⊢
    rw [hstep]
    simp [lftDescend]
  | cons t ts ih =>
    rw [List.length_cons] at hk hv
    have hd := child_mem h (by omega) hq hb ho
    obtain ⟨-, -, ⟨es, hwf, -⟩, -⟩ := h.index (by omega) hq hb
    obtain ⟨hpos, b', cr', hb', -⟩ := h (k + 1) (by omega) _ hd
    obtain ⟨hlevl, -, ⟨es', hwf', -⟩, hkids⟩ := h.index (by omega) hd hb'
    -- the last record of the child, which ends with the block
    obtain ⟨o', hlast⟩ : ∃ o', b'.offsets.getLast? = some o' := by
      have hhead := hwf'.offsets_head hlevl
      cases hl : b'.offsets.getLast? with
      | none => simp [List.getLast?_eq_none_iff.1 hl] at hhead
      | some o' => exact ⟨o', rfl⟩
    have ho' := hlast
    rw [List.getLast?_eq_getElem?] at ho'
    have hend : o' + b'.rsiz o' = b'.bsiz := by
      refine (recordEnd hwf' ho').2 (List.getElem?_eq_none_iff.2 ?_)
      omega
    have hkid : lastKid (treeKids qread) (b.childAt o) = some (b'.childAt o', b'.offsets.length - 1) := by
      simp [lastKid, hkids, hlast]
    rw [descend, step, hkid] at hv
    obtain ⟨v', down', l, hv', hdown', -, -⟩ := descend_last h (n := ts.length) (by omega) (child_mem h (by omega) hd hb' ho')
    obtain rfl := Option.some.inj (hv.symm.trans hv')
    obtain rfl : down = down' ++ [(b.childAt o, b'.offsets.length - 1)] := by
      have heq : down ++ (q, j) :: anc = down' ++ [(b.childAt o, b'.offsets.length - 1)] ++ (q, j) :: anc := by
        rw [← hdown, hdown', List.append_assoc, List.singleton_append]
      exact List.append_cancel_right heq
    have hnodes : v.1 :: (down' ++ [(b.childAt o, b'.offsets.length - 1)]).map Prod.fst = (v.1 :: down'.map Prod.fst) ++ [b.childAt o] := by
      simp
    rw [hnodes, List.cons_append, lftDescend_step full t (ts ++ [cur]) hwf ho hpos hb', ← hend,
      ih (by omega) hd hb' ho' _ _ hv' hdown', List.reverse_append]
    simp only [List.reverse_cons, List.reverse_nil, List.nil_append, List.singleton_append, List.forall₂_cons]
    rw [treeFmt, hb']
    rfl

end SiblingAux

end Gtm
