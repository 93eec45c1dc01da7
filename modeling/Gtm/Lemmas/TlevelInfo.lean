import Gtm.Tp.TlevelInfo

/-!
# Kill sets

The blocks to be killed stand in a list of kill sets, all but the last of them full. A kill set and the number of its entries in use
say how many blocks there are up to that point, and that is all a rollback needs.
-/

namespace Gtm
namespace TlevelAux

/-- Every kill set but the last is full, and none is empty. -/
def KillNodes (nodes : List (List BlkIdent)) : Prop :=
  ∀ (i : Nat) (x : List BlkIdent), nodes[i]? = some x →
    0 < x.length ∧ x.length ≤ blksInKillSet ∧ (i + 1 < nodes.length → x.length = blksInKillSet)

/-- The place in the kill sets after the blocks `kills`. -/
def KillPos (kills : List BlkIdent) : Option Nat → Nat → Prop
  | none, _ => kills = []
  | some ks, used => 0 < used ∧ used ≤ blksInKillSet ∧ kills.length = ks * blksInKillSet + used

theorem killNodes_nil : KillNodes [] := fun i x h => by simp at h

variable {nodes : List (List BlkIdent)}

theorem length_flatten_of_full (h : ∀ x ∈ nodes, x.length = blksInKillSet) : nodes.flatten.length = nodes.length * blksInKillSet := by
  induction nodes with
  | nil => simp
  | cons x xs ih =>
    rw [List.flatten_cons, List.length_append, ih (fun y hy => h y (List.mem_cons_of_mem _ hy)), h x List.mem_cons_self, List.length_cons]
    exact (Nat.succ_mul _ _).symm ▸ Nat.add_comm _ _

theorem length_flatten_le (h : ∀ x ∈ nodes, x.length ≤ blksInKillSet) : nodes.flatten.length ≤ nodes.length * blksInKillSet := by
  induction nodes with
  | nil => simp
  | cons x xs ih =>
    have h1 := ih (fun y hy => h y (List.mem_cons_of_mem _ hy))
    have h2 := h x List.mem_cons_self
    rw [List.flatten_cons, List.length_append, List.length_cons, Nat.succ_mul]
    omega

/-- Kill sets split at the one with number `ks`. -/
theorem KillNodes.split (h : KillNodes nodes) {ks : Nat} (hks : ks < nodes.length) :
    ∃ pre x post, nodes = pre ++ x :: post ∧ pre.length = ks ∧ (∀ y ∈ pre, y.length = blksInKillSet) ∧ 0 < x.length ∧
      x.length ≤ blksInKillSet ∧ (post ≠ [] → x.length = blksInKillSet) := by
  refine ⟨nodes.take ks, nodes[ks], nodes.drop (ks + 1), ?_, ?_, ?_, ?_⟩
  · rw [← List.drop_eq_getElem_cons hks, List.take_append_drop]
  · rw [List.length_take]
    omega
  · intro y hy
    obtain ⟨i, hi, rfl⟩ := List.mem_iff_getElem.mp hy
    rw [List.length_take] at hi
    rw [List.getElem_take]
    exact (h i _ (List.getElem?_eq_getElem (by omega))).2.2 (by omega)
  · obtain ⟨h1, h2, h3⟩ := h ks _ (List.getElem?_eq_getElem hks)
    refine ⟨h1, h2, fun hne => h3 ?_⟩
    rw [ne_eq, List.drop_eq_nil_iff] at hne
    omega

/-- A list of full kill sets and one more. -/
theorem killNodes_append {pre : List (List BlkIdent)} {x : List BlkIdent} (hpre : ∀ y ∈ pre, y.length = blksInKillSet)
    (hx : 0 < x.length) (hx' : x.length ≤ blksInKillSet) : KillNodes (pre ++ [x]) := by
  intro i y hy
  rcases Nat.lt_or_ge i pre.length with hlt | hge
  · rw [List.getElem?_append_left hlt] at hy
    have := hpre y (List.mem_of_getElem? hy)
    rw [this]
    exact ⟨by decide, Nat.le_refl _, fun _ => rfl⟩
  · rw [List.getElem?_append_right hge] at hy
    have hi : i - pre.length = 0 := by
      by_contra hne
      rw [List.getElem?_eq_none (by simp; omega)] at hy
      cases hy
    rw [hi] at hy
    cases hy
    exact ⟨hx, hx', fun hlt => by simp at hlt; omega⟩

/-- The place that `op_tstart` notes is after all blocks. -/
theorem KillNodes.pos (h : KillNodes nodes) :
    KillPos nodes.flatten (if nodes = [] then none else some (nodes.length - 1)) (nodes.getLast?.getD []).length := by
  by_cases hn : nodes = []
  · subst hn
    exact rfl
  · rw [if_neg hn]
    have hlen : 0 < nodes.length := List.length_pos_iff.mpr hn
    obtain ⟨pre, x, post, he, hpl, hfull, h1, h2, -⟩ := h.split (show nodes.length - 1 < nodes.length by omega)
    have hpost : post = [] := by
      have := congrArg List.length he
      simp only [List.length_append, List.length_cons] at this
      exact List.length_eq_zero_iff.mp (by omega)
    subst hpost
    rw [← hpl, he]
    simp only [List.getLast?_append, List.getLast?_singleton, Option.some_or, Option.getD_some, List.flatten_append,
      List.flatten_cons, List.flatten_nil, List.append_nil]
    refine ⟨h1, h2, ?_⟩
    rw [List.length_append, length_flatten_of_full hfull]

/-- The kill sets cut back to a place. -/
theorem KillNodes.cut (h : KillNodes nodes) {kills : List BlkIdent} {ks used : Nat}
    (hp : kills <+: nodes.flatten) (hpos : KillPos kills (some ks) used) :
    KillNodes ((nodes.take (ks + 1)).modify ks (fun e => e.take used)) ∧
      ((nodes.take (ks + 1)).modify ks (fun e => e.take used)).flatten = kills ∧
      ks < ((nodes.take (ks + 1)).modify ks (fun e => e.take used)).length := by
  obtain ⟨hu, hu', hlen⟩ := hpos
  have hks : ks < nodes.length := by
    by_contra hge
    have hle : nodes.flatten.length ≤ nodes.length * blksInKillSet := by
      refine length_flatten_le fun x hx => ?_
      obtain ⟨i, hi⟩ := List.mem_iff_getElem?.mp hx
      exact (h i x hi).2.1
    have h1 := hp.length_le
    have h2 : nodes.length * blksInKillSet ≤ ks * blksInKillSet := Nat.mul_le_mul_right _ (by omega)
    omega
  obtain ⟨pre, x, post, he, hpl, hfull, -, h2, h3⟩ := h.split hks
  have hpre := length_flatten_of_full hfull
  have hux : used ≤ x.length := by
    by_cases hpost : post = []
    · subst hpost
      have h4 := hp.length_le
      rw [he] at h4
      simp only [List.flatten_append, List.flatten_cons, List.flatten_nil, List.append_nil, List.length_append] at h4
      rw [hpl] at hpre
      omega
    · rw [h3 hpost]
      exact hu'
  have htake : (nodes.take (ks + 1)).modify ks (fun e => e.take used) = pre ++ [x.take used] := by
    rw [he, ← hpl, List.take_append, List.take_of_length_le (Nat.le_succ _), Nat.add_sub_cancel_left]
    rw [List.take_succ_cons, List.modify_eq_take_cons_drop (by simp)]
    simp
  rw [htake]
  refine ⟨killNodes_append hfull (by rw [List.length_take]; omega) (by rw [List.length_take]; omega), ?_, by simp [hpl]⟩
  have hpl' : pre.flatten.length = ks * blksInKillSet := by rw [hpre, hpl]
  rw [List.prefix_iff_eq_take.mp hp, hlen, he]
  simp only [List.flatten_append, List.flatten_cons, List.flatten_nil, List.append_nil]
  rw [← hpl', List.take_length_add_append, List.take_append_of_le_length hux]

/-! ## A block more -/

/-- The search for room from a kill set ends at the last one, or at a new one when that is full. -/
theorem findRoom_eq {pre : List (List BlkIdent)} {x : List BlkIdent} (hpre : ∀ y ∈ pre, y.length = blksInKillSet)
    (hx : x.length ≤ blksInKillSet) (d : Nat) : ∀ fuel ks, ks + d = pre.length → d + 2 ≤ fuel → SgmInfo.findRoom fuel ks (pre ++ [x]) =
        if x.length < blksInKillSet then (pre.length, pre ++ [x]) else (pre.length + 1, pre ++ [x] ++ [[]]) := by
  induction d with
  | zero =>
    intro fuel ks hks hfuel
    obtain ⟨f, rfl⟩ : ∃ f, fuel = f + 2 := ⟨fuel - 2, by omega⟩
    have hks' : ks = pre.length := by omega
    subst hks'
    have hget : (pre ++ [x]).getD pre.length [] = x := by simp
    by_cases hfull : blksInKillSet ≤ x.length
    · rw [SgmInfo.findRoom, hget, if_pos hfull, if_neg (by simp), if_neg (by omega), SgmInfo.findRoom]
      simp [blksInKillSet]
    · rw [SgmInfo.findRoom, hget, if_neg hfull, if_pos (by omega)]
  | succ d ih =>
    intro fuel ks hks hfuel
    obtain ⟨f, rfl⟩ : ∃ f, fuel = f + 1 := ⟨fuel - 1, by omega⟩
    have hlt : ks < pre.length := by omega
    have hget : (pre ++ [x]).getD ks [] = pre[ks] := by
      rw [List.getD_eq_getElem?_getD, List.getElem?_append_left hlt, List.getElem?_eq_getElem hlt, Option.getD_some]
    rw [SgmInfo.findRoom, hget, hpre _ (List.getElem_mem hlt), if_pos (Nat.le_refl _), if_pos (by simp; omega)]
    exact ih f (ks + 1) (by omega) (by omega)

theorem modify_length_append {α : Type*} (l : List α) (x : α) (f : α → α) : (l ++ [x]).modify l.length f = l ++ [f x] := by
  rw [List.modify_eq_take_cons_drop (by simp)]
  simp

/-- A block put into the kill sets stands after the others. -/
theorem deleteBlk_spec (si : SgmInfo) (e : BlkIdent) (h : KillNodes si.killSets) (ht : si.killSetTail = none ↔ si.killSets = [])
    (htail : ∀ k, si.killSetTail = some k → k < si.killSets.length) :
    KillNodes (si.deleteBlk e).killSets ∧ (si.deleteBlk e).killSets.flatten = si.killSets.flatten ++ [e] ∧
      ∃ k, (si.deleteBlk e).killSetTail = some k ∧ k < (si.deleteBlk e).killSets.length := by
  cases hk : si.killSetTail with
  | none =>
    have hnil := ht.mp hk
    have hroom : SgmInfo.findRoom 2 0 [[]] = (0, [[]]) := by
      rw [SgmInfo.findRoom, if_neg (by decide)]
    have hsets : (si.deleteBlk e).killSets = [[e]] := by
      simp only [SgmInfo.deleteBlk, hk, Option.getD_none, if_true, List.length_singleton, hroom]
      rfl
    rw [hsets, hnil]
    have hnodes : KillNodes ([] ++ [[e]]) :=
      killNodes_append (fun y hy => absurd hy List.not_mem_nil) (Nat.one_pos : 0 < [e].length) (by simp [blksInKillSet])
    exact ⟨hnodes, rfl, 0, by simp [SgmInfo.deleteBlk, hk], Nat.one_pos⟩
  | some k =>
    have hlt := htail k hk
    obtain ⟨pre, x, post, he, hpl, hfull, -, h2, -⟩ := h.split (show si.killSets.length - 1 < si.killSets.length by omega)
    have hpost : post = [] := by
      have := congrArg List.length he
      simp only [List.length_append, List.length_cons] at this
      exact List.length_eq_zero_iff.mp (by omega)
    subst hpost
    have hroom := findRoom_eq hfull h2 (pre.length - k) (si.killSets.length + 1) k (by omega) (by omega)
    have hsets : (si.deleteBlk e).killSets = if x.length < blksInKillSet then pre ++ [x ++ [e]] else pre ++ [x] ++ [[e]] := by
      simp only [SgmInfo.deleteBlk, hk, Option.getD_some, reduceCtorEq, if_false]
      rw [he] at hroom ⊢
      rw [hroom]
      by_cases hx : x.length < blksInKillSet
      · simp only [if_pos hx]
        exact modify_length_append pre x _
      · simp only [if_neg hx]
        have := modify_length_append (pre ++ [x]) ([] : List BlkIdent) (fun ks => ks ++ [e])
        rw [List.length_append] at this
        exact this
    have htl : (si.deleteBlk e).killSetTail = some k := by simp [SgmInfo.deleteBlk, hk]
    rw [hsets, htl]
    by_cases hx : x.length < blksInKillSet
    · rw [if_pos hx]
      refine ⟨killNodes_append hfull (by simp) (by simp; omega), ?_, k, rfl, by simp; omega⟩
      rw [he]
      simp
    · rw [if_neg hx]
      refine ⟨killNodes_append (fun y hy => ?_) (by simp) (by simp [blksInKillSet]), ?_, k, rfl, by simp; omega⟩
      · rcases List.mem_append.mp hy with hy | hy
        · exact hfull y hy
        · rw [List.mem_singleton.mp hy]
          omega
      · rw [he]
        simp

end TlevelAux
end Gtm

/-!
## The notes of a region

The list of notes of a region that was first used at level `L` has one element for each level above `L`, in the order of the buddy
list. A region whose list has no element below the innermost level was first used no earlier than the one before it in the list of
regions; that is what makes it harmless that `tp_incr_commit` keeps its previous element from one region to the next.
-/

namespace Gtm
namespace TlevelAux

/-- The pointer to element `i` of `n`. -/
def ptr (n i : Nat) : Option Nat := if i < n then some i else none

/-- The list of notes at level `T` of a region first used at level `L`. -/
structure Linked (T L : Nat) (si : SgmInfo) : Prop where
  le : L ≤ T
  elems : si.tlvlElems = T - L
  head : si.tlvlInfoHead = ptr (T - L) 0
  level : ∀ i, i < T - L → (si.tlvlInfo i).tLevel = L + 1 + i
  next : ∀ i, i < T - L → (si.tlvlInfo i).nextTlevelInfo = ptr (T - L) (i + 1)

variable {T L : Nat} {si : SgmInfo}

theorem tLevel_setNext (si : SgmInfo) (k i : Nat) (next : Option Nat) : ((si.setNext k next).tlvlInfo i).tLevel = (si.tlvlInfo i).tLevel := by
  by_cases h : i = k
  · subst h
    simp [SgmInfo.setNext]
  · simp [SgmInfo.setNext, h]

theorem next_setNext (si : SgmInfo) (k i : Nat) (next : Option Nat) :
    ((si.setNext k next).tlvlInfo i).nextTlevelInfo = if i = k then next else (si.tlvlInfo i).nextTlevelInfo := by
  by_cases h : i = k
  · subst h
    simp [SgmInfo.setNext]
  · simp [SgmInfo.setNext, h]

theorem tlvlInfo_newElement (si : SgmInfo) (t : TlevelInfo) (i : Nat) :
    (si.newElement t).tlvlInfo i = if i = si.tlvlElems then t else si.tlvlInfo i := by
  by_cases h : i = si.tlvlElems
  · subst h
    simp [SgmInfo.newElement]
  · simp [SgmInfo.newElement, h]

theorem Linked.tlvlWalk (h : Linked T L si) (d : Nat) :
    ∀ fuel i, i + d = T - L → d < fuel → si.tlvlWalk fuel (ptr (T - L) i) = List.range' i d := by
  induction d with
  | zero =>
    intro fuel i hi hf
    obtain ⟨f, rfl⟩ : ∃ f, fuel = f + 1 := ⟨fuel - 1, by omega⟩
    rw [ptr, if_neg (by omega)]
    rfl
  | succ d ih =>
    intro fuel i hi hf
    obtain ⟨f, rfl⟩ : ∃ f, fuel = f + 1 := ⟨fuel - 1, by omega⟩
    rw [ptr, if_pos (by omega), SgmInfo.tlvlWalk, h.next i (by omega), ih f (i + 1) (by omega) (by omega)]
    rfl

/-- The list has the elements of the buddy list. -/
theorem Linked.tlvlList (h : Linked T L si) : si.tlvlList = List.range si.tlvlElems := by
  rw [SgmInfo.tlvlList, h.head, h.tlvlWalk (T - L) _ 0 (by omega) (by rw [h.elems]; omega), h.elems, List.range_eq_range']

variable {bound : Nat} {d : SgmData}

section
variable (h : Linked T L si)
include h

/-- A walk that stops at once. -/
theorem Linked.walkBelow_stop (hb : bound ≤ L + 1) (fuel : Nat) (prev : Option Nat) :
    si.walkBelow bound (fuel + 1) si.tlvlInfoHead prev = (prev, ptr (T - L) 0) := by
  rw [h.head, ptr]
  by_cases h0 : 0 < T - L
  · rw [if_pos h0, SgmInfo.walkBelow, h.level 0 h0, if_pos (by omega)]
  · rw [if_neg h0]
    rfl

/-- A walk past some levels. -/
theorem Linked.walkBelow_some (hT : bound ≤ T) (d : Nat) : ∀ fuel i prev, L + 1 + i + (d + 1) = bound → d + 1 < fuel →
      si.walkBelow bound fuel (some i) prev = (some (bound - L - 2), some (bound - L - 1)) := by
  induction d with
  | zero =>
    intro fuel i prev hi hf
    obtain ⟨f, rfl⟩ : ∃ f, fuel = f + 2 := ⟨fuel - 2, by omega⟩
    rw [SgmInfo.walkBelow, h.level i (by omega), if_neg (by omega), h.next i (by omega), ptr, if_pos (by omega),
      SgmInfo.walkBelow, h.level (i + 1) (by omega), if_pos (by omega)]
    exact Prod.ext (congrArg some (by omega)) (congrArg some (by omega))
  | succ d ih =>
    intro fuel i prev hi hf
    obtain ⟨f, rfl⟩ : ∃ f, fuel = f + 1 := ⟨fuel - 1, by omega⟩
    rw [SgmInfo.walkBelow, h.level i (by omega), if_neg (by omega), h.next i (by omega), ptr, if_pos (by omega)]
    exact ih f (i + 1) (some i) (by omega) (by omega)

theorem Linked.walkBelow_pass (hb : L + 1 < bound) (hT : bound ≤ T) :
    si.walkBelow bound (si.tlvlElems + 1) si.tlvlInfoHead none = (some (bound - L - 2), some (bound - L - 1)) := by
  rw [h.head, ptr, if_pos (by omega)]
  exact h.walkBelow_some hT (bound - L - 2) _ 0 none (by omega) (by rw [h.elems]; omega)

/-- What a rollback or a commit leaves of a list: the elements below some level. -/
theorem Linked.cutAfter {si' : SgmInfo} {prev : Option Nat} {T' : Nat} (hT' : T' ≤ T)
    (hprev : prev = if L < T' then some (T' - L - 1) else none)
    (hinfo : si'.tlvlInfo = si.tlvlInfo) (hhead : si'.tlvlInfoHead = si.tlvlInfoHead) (helems : si'.tlvlElems = T' - L) :
    Linked T' (min L T') (si'.cutAfter prev) := by
  rw [hprev]
  by_cases hL : L < T'
  · have hmin : min L T' = L := by omega
    rw [if_pos hL, hmin]
    simp only [SgmInfo.cutAfter]
    refine ⟨by omega, helems, ?_, fun i hi => ?_, fun i hi => ?_⟩
    · have hh : (si'.setNext (T' - L - 1) none).tlvlInfoHead = si'.tlvlInfoHead := rfl
      rw [hh, hhead, h.head, ptr, ptr, if_pos (by omega), if_pos (by omega)]
    · rw [tLevel_setNext, hinfo]
      exact h.level i (by omega)
    · rw [next_setNext, hinfo]
      by_cases hk : i = T' - L - 1
      · rw [if_pos hk, ptr, if_neg (by omega)]
      · rw [if_neg hk, h.next i (by omega), ptr, ptr, if_pos (by omega), if_pos (by omega)]
  · have hmin : min L T' = T' := by omega
    rw [if_neg hL, hmin]
    simp only [SgmInfo.cutAfter]
    refine ⟨Nat.le_refl _, by rw [helems]; omega, by simp [ptr], fun i hi => by omega, fun i hi => by omega⟩

/-! ## The start of a level -/

/-- The notes made at the start of a level. -/
theorem Linked.tstart : Linked (T + 1) L (si.tstart (T + 1)) := by
  have hle := h.le
  have hn : T + 1 - L = T - L + 1 := by omega
  have hlevel : ∀ i, i < T + 1 - L → ((si.newElement (si.notes (T + 1))).tlvlInfo i).tLevel = L + 1 + i := by
    intro i hi
    rw [tlvlInfo_newElement, h.elems]
    by_cases hk : i = T - L
    · rw [if_pos hk]
      exact (show T + 1 = L + 1 + i by omega)
    · rw [if_neg hk]
      exact h.level i (by omega)
  have hnew : ((si.newElement (si.notes (T + 1))).tlvlInfo (T - L)).nextTlevelInfo = none := by
    rw [tlvlInfo_newElement, h.elems, if_pos rfl]
    rfl
  have helems : (si.newElement (si.notes (T + 1))).tlvlElems = T + 1 - L := by
    rw [hn, ← h.elems]
    rfl
  unfold SgmInfo.tstart
  rw [h.tlvlList, h.elems]
  by_cases h0 : T - L = 0
  · rw [h0, List.range_zero]
    refine ⟨by omega, helems, by simp [ptr, hn], hlevel, fun i hi => ?_⟩
    have hi0 : i = T - L := by omega
    rw [hi0, ptr, if_neg (by omega)]
    exact hnew
  · have hlast : (List.range (T - L)).getLast? = some (T - L - 1) := by
      obtain ⟨m, hm⟩ : ∃ m, T - L = m + 1 := ⟨T - L - 1, by omega⟩
      rw [hm, List.range_succ, List.getLast?_append]
      rfl
    rw [hlast]
    refine ⟨by omega, helems, ?_, fun i hi => ?_, fun i hi => ?_⟩
    · have hh : ((si.newElement (si.notes (T + 1))).setNext (T - L - 1) (some (T - L))).tlvlInfoHead = si.tlvlInfoHead := rfl
      rw [hh, h.head, ptr, ptr, if_pos (by omega), if_pos (by omega)]
    · rw [tLevel_setNext]
      exact hlevel i hi
    · rw [next_setNext]
      by_cases hk : i = T - L - 1
      · rw [if_pos hk, ptr, if_pos (by omega)]
        exact congrArg some (by omega)
      · rw [if_neg hk]
        by_cases hk' : i = T - L
        · rw [hk', hnew, ptr, if_neg (by omega)]
        · rw [tlvlInfo_newElement, h.elems, if_neg hk', h.next i (by omega), ptr, ptr, if_pos (by omega), if_pos (by omega)]

end

/-! ## What the notes say -/

/-- The fields of the notes that a rollback uses. -/
def saved (t : TlevelInfo) : Option Nat × Nat × Nat × Nat := (t.tlvlKillSet, t.tlvlKillUsed, t.tlvlTpHistInfo, t.updateTrans)

theorem saved_setNext (si : SgmInfo) (k i : Nat) (next : Option Nat) : saved ((si.setNext k next).tlvlInfo i) = saved (si.tlvlInfo i) := by
  simp only [SgmInfo.setNext]
  by_cases h : i = k
  · subst h
    rw [Function.update_self]
    rfl
  · rw [Function.update_of_ne h]

theorem saved_cutAfter (si : SgmInfo) (prev : Option Nat) (i : Nat) : saved ((si.cutAfter prev).tlvlInfo i) = saved (si.tlvlInfo i) := by
  cases prev with
  | none => rfl
  | some k => exact saved_setNext si k i none

/-- The notes describe the region as it was. -/
structure Encodes (d : SgmData) (n : Option Nat × Nat × Nat × Nat) : Prop where
  kills : KillPos d.kills n.1 n.2.1
  hist : n.2.2.1 = d.tpHist.length
  update : n.2.2.2 = d.updateTrans

/-- The table of blocks in use has the blocks of the read set, each once, with their places. -/
structure Consistent (d : SgmData) : Prop where
  nodup : d.tpHist.Nodup
  table : ∀ blk i, d.blksInUse blk = some i ↔ d.tpHist[i]? = some blk
  count : d.numOfBlks = d.tpHist.length

/-- Work has only been added since. -/
structure Before (d d' : SgmData) : Prop where
  hist : d.tpHist <+: d'.tpHist
  kills : d.kills <+: d'.kills

theorem Before.refl (d : SgmData) : Before d d := ⟨List.prefix_refl _, List.prefix_refl _⟩

theorem Before.trans {d' d'' : SgmData} (h : Before d d') (h' : Before d' d'') : Before d d'' :=
  ⟨h.hist.trans h'.hist, h.kills.trans h'.kills⟩

theorem consistent_empty : Consistent .empty := ⟨List.nodup_nil, fun blk i => by simp [SgmData.empty], rfl⟩

/-- The invariant of a region first used at level `L`, next to its copies. -/
structure RegionOk (T : Nat) (started : Nat → Option SgmData) (L : Nat) (si : SgmInfo) : Prop where
  pos : 0 < L
  linked : Linked T L si
  nodes : KillNodes si.killSets
  tailNone : si.killSetTail = none ↔ si.killSets = []
  tail : ∀ k, si.killSetTail = some k → k < si.killSets.length
  data : Consistent si.data
  notes : ∀ l, L < l → l ≤ T → ∃ d, started l = some d ∧ Encodes d (saved (si.tlvlInfo (l - L - 1))) ∧ Consistent d ∧
    Before d si.data
  mono : ∀ l l' d d', L < l → l ≤ l' → l' ≤ T → started l = some d → started l' = some d' → Before d d'
  unused : ∀ l, 1 < l → l ≤ L → started l = none

variable {started : Nat → Option SgmData}

/-- A region at its first use. -/
theorem regionOk_fresh (r : Nat) (hT : 0 < T) (h : ∀ l, 1 < l → l ≤ T → started l = none) : RegionOk T started T { region := r } where
  pos := hT
  linked := ⟨Nat.le_refl _, (Nat.sub_self T).symm, by simp [ptr], fun i hi => by omega, fun i hi => by omega⟩
  nodes := killNodes_nil
  tailNone := ⟨fun _ => rfl, fun _ => rfl⟩
  tail := fun k hk => by cases hk
  data := consistent_empty
  notes := fun l h1 h2 => by omega
  mono := fun l l' d d' h1 h2 h3 => by omega
  unused := h

/-- Work on a region keeps its notes right, as it only adds. -/
theorem RegionOk.work (h : RegionOk T started L si) {si' : SgmInfo} (hinfo : si'.tlvlInfo = si.tlvlInfo)
    (hhead : si'.tlvlInfoHead = si.tlvlInfoHead) (helems : si'.tlvlElems = si.tlvlElems) (hnodes : KillNodes si'.killSets)
    (hnone : si'.killSetTail = none ↔ si'.killSets = []) (htail : ∀ k, si'.killSetTail = some k → k < si'.killSets.length)
    (hdata : Consistent si'.data) (hbefore : Before si.data si'.data) : RegionOk T started L si' where
  pos := h.pos
  linked := by
    obtain ⟨h1, h2, h3, h4, h5⟩ := h.linked
    exact ⟨h1, by rw [helems, h2], by rw [hhead, h3], by rw [hinfo]; exact h4, by rw [hinfo]; exact h5⟩
  nodes := hnodes
  tailNone := hnone
  tail := htail
  data := hdata
  notes := by
    intro l h1 h2
    obtain ⟨d, hd, he, hc, hb⟩ := h.notes l h1 h2
    exact ⟨d, hd, by rw [hinfo]; exact he, hc, hb.trans hbefore⟩
  mono := h.mono
  unused := h.unused

theorem consistent_addHist (h : Consistent d) {blk : Nat} (hb : d.blksInUse blk = none) :
    Consistent { d with blksInUse := Function.update d.blksInUse blk (some d.tpHist.length), numOfBlks := d.numOfBlks + 1,
                        tpHist := d.tpHist ++ [blk] } := by
  have hnot : blk ∉ d.tpHist := by
    intro hmem
    obtain ⟨i, hi⟩ := List.mem_iff_getElem?.mp hmem
    rw [← h.table, hb] at hi
    cases hi
  refine ⟨?_, ?_, by simp [h.count]⟩
  · rw [List.nodup_append]
    refine ⟨h.nodup, List.pairwise_singleton _ _, fun a ha b hb' he => ?_⟩
    rw [he, List.mem_singleton.mp hb'] at ha
    exact hnot ha
  · intro b i
    simp only
    by_cases hbb : b = blk
    · subst hbb
      rw [Function.update_self]
      constructor
      · intro he
        cases he
        simp
      · intro he
        rcases Nat.lt_trichotomy i d.tpHist.length with hlt | rfl | hgt
        · rw [List.getElem?_append_left hlt] at he
          exact absurd (List.mem_of_getElem? he) hnot
        · rfl
        · rw [List.getElem?_eq_none (by simp; omega)] at he
          cases he
    · rw [Function.update_of_ne hbb, h.table]
      constructor
      · intro he
        rw [List.getElem?_append_left (List.getElem?_eq_some_iff.mp he).1]
        exact he
      · intro he
        rcases Nat.lt_or_ge i d.tpHist.length with hlt | hge
        · rwa [List.getElem?_append_left hlt] at he
        · rw [List.getElem?_append_right hge] at he
          have := List.mem_of_getElem? he
          exact absurd (List.mem_singleton.mp this) hbb

theorem RegionOk.addHist (h : RegionOk T started L si) (blk : Nat) : RegionOk T started L (si.addHist blk) := by
  unfold SgmInfo.addHist
  cases hb : si.blksInUse blk with
  | some i => exact h
  | none =>
    exact h.work rfl rfl rfl h.nodes h.tailNone h.tail (consistent_addHist h.data hb)
      ⟨List.prefix_append _ _, List.prefix_refl _⟩

theorem RegionOk.deleteBlk (h : RegionOk T started L si) (e : BlkIdent) :
    RegionOk T started L (si.deleteBlk e) ∧ (si.deleteBlk e).data = { si.data with kills := si.data.kills ++ [e] } := by
  obtain ⟨hn, hf, k, hk, hlt⟩ := deleteBlk_spec si e h.nodes h.tailNone h.tail
  have hdata : (si.deleteBlk e).data = { si.data with kills := si.data.kills ++ [e] } := by
    simp only [SgmInfo.data, hf]
    rfl
  refine ⟨h.work rfl rfl rfl hn ?_ ?_ ?_ ?_, hdata⟩
  · refine ⟨fun h' => (by cases h'), fun h' => ?_⟩
    rw [h'] at hlt
    cases hlt
  · intro k' hk'
    rw [hk] at hk'
    cases hk'
    exact hlt
  · exact ⟨h.data.nodup, h.data.table, h.data.count⟩
  · rw [hdata]
    exact ⟨List.prefix_refl _, List.prefix_append _ _⟩

/-! ## The start of a level -/

theorem saved_tstart (si : SgmInfo) (T i : Nat) :
    saved ((si.tstart T).tlvlInfo i) = if i = si.tlvlElems then saved (si.notes T) else saved (si.tlvlInfo i) := by
  have hnew : saved ((si.newElement (si.notes T)).tlvlInfo i) =
      if i = si.tlvlElems then saved (si.notes T) else saved (si.tlvlInfo i) := by
    rw [tlvlInfo_newElement]
    exact apply_ite saved _ _ _
  unfold SgmInfo.tstart
  cases si.tlvlList.getLast? with
  | none => exact hnew
  | some k => rw [saved_setNext, hnew]

/-- What `op_tstart` leaves as it is. -/
theorem tstart_frame (T : Nat) (si : SgmInfo) :
    (si.tstart T).data = si.data ∧ (si.tstart T).killSets = si.killSets ∧ (si.tstart T).killSetTail = si.killSetTail ∧
      (si.tstart T).region = si.region := by
  unfold SgmInfo.tstart
  cases si.tlvlList.getLast? <;> exact ⟨rfl, rfl, rfl, rfl⟩

theorem RegionOk.tstart (h : RegionOk T started L si) :
    RegionOk (T + 1) (Function.update started (T + 1) (some si.data)) L (si.tstart (T + 1)) := by
  obtain ⟨hdata, hsets, htail, -⟩ := tstart_frame (T + 1) si
  have hle := h.linked.le
  refine ⟨h.pos, h.linked.tstart, by rw [hsets]; exact h.nodes, by rw [hsets, htail]; exact h.tailNone,
    by rw [hsets, htail]; exact h.tail, by rw [hdata]; exact h.data, ?_, ?_, ?_⟩
  · intro l h1 h2
    rw [hdata]
    by_cases hl : l = T + 1
    · subst hl
      refine ⟨si.data, by rw [Function.update_self], ?_, h.data, Before.refl _⟩
      have hi : T + 1 - L - 1 = T - L := by omega
      rw [hi, saved_tstart, h.linked.elems, if_pos rfl]
      exact ⟨h.nodes.pos, rfl, rfl⟩
    · obtain ⟨d, hd, he, hc, hb⟩ := h.notes l h1 (by omega)
      refine ⟨d, by rw [Function.update_of_ne hl]; exact hd, ?_, hc, hb⟩
      rw [saved_tstart, h.linked.elems, if_neg (by omega)]
      exact he
  · intro l l' d d' h1 h2 h3 hd hd'
    by_cases hl' : l' = T + 1
    · subst hl'
      rw [Function.update_self] at hd'
      cases hd'
      by_cases hl : l = T + 1
      · subst hl
        rw [Function.update_self] at hd
        cases hd
        exact Before.refl _
      · rw [Function.update_of_ne hl] at hd
        obtain ⟨d', hd', -, -, hb⟩ := h.notes l h1 (by omega)
        rw [hd] at hd'
        cases hd'
        exact hb
    · rw [Function.update_of_ne hl'] at hd'
      rw [Function.update_of_ne (by omega)] at hd
      exact h.mono l l' d d' h1 h2 (by omega) hd hd'
  · intro l h1 h2
    rw [Function.update_of_ne (by omega)]
    exact h.unused l h1 h2

/-! ## A commit -/

/-- What cutting the list leaves as it is. -/
theorem cutAfter_frame (si : SgmInfo) (prev : Option Nat) : (si.cutAfter prev).data = si.data ∧ (si.cutAfter prev).killSets = si.killSets ∧
      (si.cutAfter prev).killSetTail = si.killSetTail ∧ (si.cutAfter prev).region = si.region ∧
      (si.cutAfter prev).tlvlElems = si.tlvlElems := by
  cases prev <;> exact ⟨rfl, rfl, rfl, rfl, rfl⟩

/-- What `tp_incr_commit` is to do to a region, with a previous element of its own. -/
def commitOne (T : Nat) (si : SgmInfo) : SgmInfo :=
  let w := si.walkBelow T (si.tlvlElems + 1) si.tlvlInfoHead none
  (if w.2.isSome then si.freeLast 1 else si).cutAfter w.1

/-- The walk of a commit. -/
theorem Linked.walk_commit (h : Linked T L si) :
    si.walkBelow T (si.tlvlElems + 1) si.tlvlInfoHead none =
      (if L + 1 < T then some (T - L - 2) else none, if L < T then some (T - L - 1) else none) := by
  by_cases h1 : L + 1 < T
  · rw [h.walkBelow_pass h1 (Nat.le_refl T), if_pos h1, if_pos (by omega)]
  · rw [h.walkBelow_stop (by omega), if_neg h1, ptr]
    by_cases h2 : L < T
    · rw [if_pos (by omega), if_pos h2]
      exact Prod.ext rfl (congrArg some (by omega))
    · rw [if_neg (by omega), if_neg h2]

/-- A region with a lower element has at least two. -/
theorem Linked.elems_ge (h : Linked T L si) : 2 ≤ si.tlvlElems ↔ (si.walkBelow T (si.tlvlElems + 1) si.tlvlInfoHead none).1 ≠ none := by
  rw [h.walk_commit, h.elems]
  by_cases h1 : L + 1 < T
  · simp only [if_pos h1, ne_eq, reduceCtorEq, not_false_eq_true, iff_true]
    omega
  · simp only [if_neg h1, ne_eq, not_true_eq_false, iff_false]
    omega

/-- The previous element that is kept from one region to the next is used only where a region has its own. -/
theorem incrCommitLoop_eq (todo : List SgmInfo) : ∀ (done : List SgmInfo) (prev : Option (Nat × Nat)), (∀ si ∈ todo, ∃ L, Linked T L si) →
      todo.Pairwise (fun x y => x.tlvlElems ≤ y.tlvlElems) → (prev ≠ none → ∀ si ∈ todo, 2 ≤ si.tlvlElems) →
      incrCommitLoop T done prev todo = done ++ todo.map (commitOne T) := by
  induction todo with
  | nil =>
    intro done prev _ _ _
    rw [incrCommitLoop, List.map_nil, List.append_nil]
  | cons si rest ih =>
    intro done prev hl hp hprev
    obtain ⟨L, hL⟩ := hl si List.mem_cons_self
    have hge := hL.elems_ge
    obtain ⟨hp1, hp2⟩ := List.pairwise_cons.mp hp
    have hl' : ∀ sj ∈ rest, ∃ L, Linked T L sj := fun sj hsj => hl sj (List.mem_cons_of_mem _ hsj)
    rw [List.map_cons, List.append_cons done, incrCommitLoop]
    cases hw : (si.walkBelow T (si.tlvlElems + 1) si.tlvlInfoHead none).1 with
    | some k =>
      -- the region has an element of its own, and so have all that were used before it
      have h2 : 2 ≤ si.tlvlElems := hge.mpr (by rw [hw]; exact Option.some_ne_none k)
      simp only [modify_length_append]
      rw [ih _ (some (done.length, k)) hl' hp2 fun _ sj hsj => Nat.le_trans h2 (hp1 sj hsj)]
      simp only [commitOne, hw, SgmInfo.cutAfter]
    | none =>
      have hnone : prev = none := by
        by_contra hne
        exact hge.mp (hprev hne si List.mem_cons_self) hw
      simp only [hnone, modify_length_append]
      rw [ih _ none hl' hp2 fun h => absurd rfl h]
      simp only [commitOne, hw, SgmInfo.cutAfter]

/-- What a commit leaves as it is. -/
theorem commitOne_frame (T : Nat) (si : SgmInfo) :
    (commitOne T si).data = si.data ∧ (commitOne T si).killSets = si.killSets ∧ (commitOne T si).killSetTail = si.killSetTail ∧
      (commitOne T si).region = si.region := by
  obtain ⟨h1, h2, h3, h4, -⟩ := cutAfter_frame
    (if (si.walkBelow T (si.tlvlElems + 1) si.tlvlInfoHead none).2.isSome then si.freeLast 1 else si)
    (si.walkBelow T (si.tlvlElems + 1) si.tlvlInfoHead none).1
  unfold commitOne
  rw [h1, h2, h3, h4]
  split <;> exact ⟨rfl, rfl, rfl, rfl⟩

theorem saved_commitOne (T : Nat) (si : SgmInfo) (i : Nat) : saved ((commitOne T si).tlvlInfo i) = saved (si.tlvlInfo i) := by
  unfold commitOne
  rw [saved_cutAfter]
  split <;> rfl

theorem Linked.commitOne (h : Linked T L si) (hT : 1 < T) : Linked (T - 1) (min L (T - 1)) (commitOne T si) := by
  have hle := h.le
  unfold TlevelAux.commitOne
  rw [h.walk_commit]
  have hprev : (if L + 1 < T then some (T - L - 2) else none) = if L < T - 1 then some (T - 1 - L - 1) else none := by
    by_cases h1 : L + 1 < T
    · rw [if_pos h1, if_pos (by omega)]
      exact congrArg some (by omega)
    · rw [if_neg h1, if_neg (by omega)]
  by_cases h2 : L < T
  · simp only [if_pos h2, Option.isSome_some, if_true]
    refine h.cutAfter (by omega) hprev rfl rfl ?_
    simp only [SgmInfo.freeLast, h.elems]
    omega
  · simp only [if_neg h2, Option.isSome_none, Bool.false_eq_true, if_false]
    refine h.cutAfter (by omega) hprev rfl rfl ?_
    rw [h.elems]
    omega

theorem RegionOk.commitOne (h : RegionOk T started L si) (hT : 1 < T) : RegionOk (T - 1) started (min L (T - 1)) (commitOne T si) := by
  obtain ⟨hdata, hsets, htail, -⟩ := commitOne_frame T si
  have hpos := h.pos
  refine ⟨by omega, h.linked.commitOne hT, by rw [hsets]; exact h.nodes, by rw [hsets, htail]; exact h.tailNone,
    by rw [hsets, htail]; exact h.tail, by rw [hdata]; exact h.data, ?_, ?_, ?_⟩
  · intro l h1 h2
    have hL : min L (T - 1) = L := by omega
    rw [hL] at h1 ⊢
    rw [hdata, saved_commitOne]
    exact h.notes l h1 (by omega)
  · intro l l' d d' h1 h2 h3
    exact h.mono l l' d d' (by omega) h2 (by omega)
  · exact fun l h1 h2 => h.unused l h1 (by omega)

/-! ## A rollback -/

/-- The table of blocks in use without the blocks of a list. -/
theorem foldl_update_none (l : List Nat) (t : Nat → Option Nat) (b : Nat) :
    l.foldl (fun t blk => Function.update t blk none) t b = if b ∈ l then none else t b := by
  induction l generalizing t with
  | nil => rfl
  | cons x xs ih =>
    rw [List.foldl_cons, ih]
    by_cases hb : b ∈ xs
    · rw [if_pos hb, if_pos (List.mem_cons_of_mem _ hb)]
    · rw [if_neg hb]
      by_cases hx : b = x
      · rw [hx, Function.update_self, if_pos List.mem_cons_self]
      · rw [Function.update_of_ne hx, if_neg (by simp [hx, hb])]

/-- A table is known by the read set. -/
theorem Consistent.table_eq {d' : SgmData} (h : Consistent d) (h' : Consistent d') (he : d.tpHist = d'.tpHist) :
    d.blksInUse = d'.blksInUse := by
  funext b
  have hiff : ∀ i, d.blksInUse b = some i ↔ d'.blksInUse b = some i := fun i => by rw [h.table, h'.table, he]
  cases hb : d.blksInUse b with
  | some i => exact ((hiff i).mp hb).symm
  | none =>
    cases hb' : d'.blksInUse b with
    | none => rfl
    | some i =>
      rw [(hiff i).mpr hb'] at hb
      cases hb

/-- The read set cut back. -/
theorem consistent_dropHist (h : Consistent si.data) (k : Nat) : Consistent (si.dropHist k).data := by
  have hnd : (si.tpHist.take k ++ si.tpHist.drop k).Nodup := by
    rw [List.take_append_drop k si.tpHist]
    exact h.nodup
  obtain ⟨hnt, -, hdisj⟩ := List.nodup_append.mp hnd
  refine ⟨hnt, ?_, ?_⟩
  · intro b i
    have htab : si.blksInUse b = some i ↔ si.tpHist[i]? = some b := h.table b i
    simp only [SgmInfo.dropHist, SgmInfo.data, foldl_update_none]
    by_cases hb : b ∈ si.tpHist.drop k
    · rw [if_pos hb]
      refine ⟨fun h' => (by cases h'), fun h' => ?_⟩
      exact absurd rfl (hdisj b (List.mem_of_getElem? h') b hb)
    · rw [if_neg hb, htab]
      constructor
      · intro hi
        have hik : i < k := by
          by_contra hge
          refine hb (List.mem_iff_getElem?.mpr ⟨i - k, ?_⟩)
          rw [List.getElem?_drop, Nat.add_sub_cancel' (by omega)]
          exact hi
        rw [List.getElem?_take_of_lt hik]
        exact hi
      · intro hi
        have hik : i < k := by
          have := (List.getElem?_eq_some_iff.mp hi).1
          rw [List.length_take] at this
          omega
        rwa [List.getElem?_take_of_lt hik] at hi
  · have hc : si.numOfBlks = si.tpHist.length := h.count
    simp only [SgmInfo.dropHist, SgmInfo.data, List.length_drop, List.length_take, hc]
    omega

/-- A region taken back to notes that describe `d` is as `d`. -/
theorem RegionOk.undoTo (h : RegionOk T started L si) {tli : TlevelInfo} (he : Encodes d (saved tli))
    (hc : Consistent d) (hb : Before d si.data) : (si.undoTo tli).data = d ∧ KillNodes (si.undoTo tli).killSets ∧
      ((si.undoTo tli).killSetTail = none ↔ (si.undoTo tli).killSets = []) ∧
      ∀ k, (si.undoTo tli).killSetTail = some k → k < (si.undoTo tli).killSets.length := by
  have hhist : (si.undoTo tli).tpHist = d.tpHist := by
    have hl : tli.tlvlTpHistInfo = d.tpHist.length := he.hist
    rw [List.prefix_iff_eq_take.mp hb.hist, ← hl]
    rfl
  have hcons : Consistent (si.dropHist tli.tlvlTpHistInfo).data := consistent_dropHist h.data _
  have htable : (si.undoTo tli).blksInUse = d.blksInUse := hcons.table_eq hc hhist
  have hcount : (si.undoTo tli).numOfBlks = d.numOfBlks := by
    rw [hc.count, ← hhist]
    exact hcons.count
  have hupd : (si.undoTo tli).updateTrans = d.updateTrans := he.update
  have hkills := he.kills
  have hdata : (si.undoTo tli).killSets.flatten = d.kills → (si.undoTo tli).data = d := by
    intro hk
    unfold SgmInfo.data
    rw [hhist, htable, hcount, hupd, hk]
  cases hks : tli.tlvlKillSet with
  | none =>
    have hnil : d.kills = [] := by
      simp only [saved, hks] at hkills
      exact hkills
    have hsets : (si.undoTo tli).killSets = [] := by simp only [SgmInfo.undoTo, hks]
    have htail : (si.undoTo tli).killSetTail = none := hks
    refine ⟨hdata (by rw [hsets, hnil]; rfl), by rw [hsets]; exact killNodes_nil, by rw [hsets, htail]; simp, fun k hk => ?_⟩
    rw [htail] at hk
    cases hk
  | some ks =>
    have hpos : KillPos d.kills (some ks) tli.tlvlKillUsed := by
      simp only [saved, hks] at hkills
      exact hkills
    obtain ⟨hn, hf, hlt⟩ := h.nodes.cut hb.kills hpos
    have hsets : (si.undoTo tli).killSets = (si.killSets.take (ks + 1)).modify ks (fun e => e.take tli.tlvlKillUsed) := by
      simp only [SgmInfo.undoTo, hks]
    have htail : (si.undoTo tli).killSetTail = some ks := hks
    rw [hsets, htail]
    refine ⟨hdata (by rw [hsets]; exact hf), hn, ⟨fun h' => (by cases h'), fun h' => ?_⟩, fun k hk => ?_⟩
    · rw [h'] at hlt
      cases hlt
    · cases hk
      exact hlt

/-- The two cases of a rollback. -/
theorem Linked.rollbk_cases (h : Linked T L si) {n : Nat} (hn : n < T) : (L ≤ n ∧ si.rollbkTlvlInfo n =
        ((si.undoTo (si.tlvlInfo (n - L))).freeLast (T - n)).cutAfter (if L < n then some (n - L - 1) else none)) ∨
      (n < L ∧ si.rollbkTlvlInfo n = (si.undoAll.freeLast (T - L)).cutAfter none) := by
  have hwalk : ∀ i, i ≤ T - L → (si.tlvlWalk (si.tlvlElems + 1) (ptr (T - L) i)).length = T - L - i := by
    intro i hi
    rw [h.tlvlWalk (T - L - i) _ i (by omega) (by rw [h.elems]; omega), List.length_range']
  unfold SgmInfo.rollbkTlvlInfo
  rcases Nat.lt_or_ge n L with hlt | hge
  · refine Or.inr ⟨hlt, ?_⟩
    rw [h.walkBelow_stop (by omega)]
    simp only [hwalk 0 (Nat.zero_le _), Nat.sub_zero]
    by_cases h0 : 0 < T - L
    · have hlev := h.level 0 h0
      simp only [ptr, if_pos h0]
      rw [if_neg (by omega)]
    · simp only [ptr, if_neg h0]
  · refine Or.inl ⟨hge, ?_⟩
    have hlev : (si.tlvlInfo (n - L)).tLevel = n + 1 := by
      rw [h.level (n - L) (by omega)]
      omega
    have hw : si.walkBelow (n + 1) (si.tlvlElems + 1) si.tlvlInfoHead none =
        (if L < n then some (n - L - 1) else none, ptr (T - L) (n - L)) := by
      rcases Nat.eq_or_lt_of_le hge with rfl | hlt
      · rw [h.walkBelow_stop (Nat.le_refl _), if_neg (Nat.lt_irrefl _), Nat.sub_self]
      · rw [h.walkBelow_pass (by omega) (by omega), if_pos hlt, ptr, if_pos (by omega)]
        exact Prod.ext (congrArg some (by omega)) (congrArg some (by omega))
    rw [hw]
    simp only [hwalk (n - L) (by omega)]
    have hp : ptr (T - L) (n - L) = some (n - L) := if_pos (by omega)
    have hd : T - L - (n - L) = T - n := by omega
    simp only [hp, hlev, if_true, hd]

/-- A rollback takes a region back to its copy at the start of the level above. -/
theorem RegionOk.rollbk (h : RegionOk T started L si) {n : Nat} (hn : n < T) (hn0 : 0 < n) :
    RegionOk n started (min L n) (si.rollbkTlvlInfo n) ∧ (si.rollbkTlvlInfo n).data = (started (n + 1)).getD .empty ∧
      (si.rollbkTlvlInfo n).region = si.region := by
  have hpos := h.pos
  rcases h.linked.rollbk_cases hn with ⟨hge, he⟩ | ⟨hlt, he⟩
  · obtain ⟨d, hd, henc, hc, hb⟩ := h.notes (n + 1) (by omega) (by omega)
    have hi : n + 1 - L - 1 = n - L := by omega
    rw [hi] at henc
    obtain ⟨hdata, hnodes, hnone, htail⟩ := h.undoTo henc hc hb
    obtain ⟨h1, h2, h3, h4, -⟩ := cutAfter_frame ((si.undoTo (si.tlvlInfo (n - L))).freeLast (T - n))
      (if L < n then some (n - L - 1) else none)
    have hlinked : Linked n (min L n) (si.rollbkTlvlInfo n) := by
      rw [he]
      refine h.linked.cutAfter (by omega) rfl rfl rfl ?_
      have : (si.undoTo (si.tlvlInfo (n - L))).tlvlElems = si.tlvlElems := rfl
      simp only [SgmInfo.freeLast, this, h.linked.elems]
      omega
    have hmin : min L n = L := by omega
    rw [hmin] at hlinked ⊢
    have hsaved : ∀ i, saved ((si.rollbkTlvlInfo n).tlvlInfo i) = saved (si.tlvlInfo i) := by
      intro i
      rw [he, saved_cutAfter]
      rfl
    have hdata' : (si.rollbkTlvlInfo n).data = d := by
      rw [he, h1]
      exact hdata
    refine ⟨⟨hpos, hlinked, ?_, ?_, ?_, by rw [hdata']; exact hc, ?_, ?_, h.unused⟩, by rw [hdata', hd]; rfl, by rw [he, h4]; rfl⟩
    · rw [he, h2]
      exact hnodes
    · rw [he, h2, h3]
      exact hnone
    · rw [he, h2, h3]
      exact htail
    · intro l hl1 hl2
      obtain ⟨dl, hdl, hel, hcl, -⟩ := h.notes l hl1 (by omega)
      refine ⟨dl, hdl, by rw [hsaved]; exact hel, hcl, ?_⟩
      rw [hdata']
      exact h.mono l (n + 1) dl d hl1 (by omega) (by omega) hdl hd
    · exact fun l l' d d' hl1 hl2 hl3 => h.mono l l' d d' hl1 hl2 (by omega)
  · obtain ⟨h1, h2, h3, h4, -⟩ := cutAfter_frame (si.undoAll.freeLast (T - L)) none
    have hnone : started (n + 1) = none := h.unused (n + 1) (by omega) (by omega)
    have hlinked : Linked n (min L n) (si.rollbkTlvlInfo n) := by
      rw [he]
      refine h.linked.cutAfter (by omega) (by rw [if_neg (by omega)]) rfl rfl ?_
      have : si.undoAll.tlvlElems = si.tlvlElems := rfl
      simp only [SgmInfo.freeLast, this, h.linked.elems]
      omega
    have hmin : min L n = n := by omega
    rw [hmin] at hlinked ⊢
    refine ⟨⟨hn0, hlinked, ?_, ?_, ?_, ?_, fun l hl1 hl2 => by omega, fun l l' d d' hl1 hl2 hl3 => by omega,
      fun l hl1 hl2 => h.unused l hl1 (by omega)⟩, ?_, by rw [he, h4]; rfl⟩
    · rw [he]
      exact killNodes_nil
    · rw [he, h3]
      exact ⟨fun _ => rfl, fun _ => rfl⟩
    · rw [he]
      exact fun k hk => by cases hk
    · rw [he]
      exact consistent_empty
    · rw [he, hnone]
      rfl

end TlevelAux
end Gtm
