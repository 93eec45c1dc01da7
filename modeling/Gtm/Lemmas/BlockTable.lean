import Gtm.Db.TEnd

/-!
# The block table and the updates it remembers

The table holds the last update of every block it has a record of, and what it has lost is not younger than its oldest record.
-/

namespace Gtm

/-- What holds of the block table between two `bt_put`s, for the updates done so far (transaction number and block): each block has
at most one record, on its own chain; the records in use stand behind the others in the queue, in the order of their numbers; a
record is as young as each update of its block, and a block without a record was updated before every record of the queue. -/
structure BlockTable.Inv (t : BlockTable) (updates : List (Nat × Nat)) (currTn : Nat) : Prop where
  queue_nodup : t.tnque.Nodup
  queue_length : t.tnque.length = t.nBts
  queue_pos : 0 < t.nBts
  chain_nodup : ∀ c, (t.chain c).Nodup
  chain_sub : ∀ c, ∀ i ∈ t.chain c, i ∈ t.tnque
  placed : ∀ i ∈ t.tnque, ∀ b, (t.recs i).blk = some b → i ∈ t.chain (t.bucket b)
  unique : ∀ i ∈ t.tnque, ∀ j ∈ t.tnque, ∀ b, (t.recs i).blk = some b → (t.recs j).blk = some b → i = j
  sorted : t.tnque.Pairwise fun i j => (t.recs i).blk ≠ none → (t.recs j).blk ≠ none ∧ (t.recs i).tn ≤ (t.recs j).tn
  tn_le : ∀ i ∈ t.tnque, (t.recs i).tn ≤ currTn
  update_le : ∀ u b, (u, b) ∈ updates → u ≤ currTn
  rec_tn : ∀ i ∈ t.tnque, ∀ u b, (t.recs i).blk = some b → (u, b) ∈ updates → u ≤ (t.recs i).tn
  evicted : ∀ u b, (u, b) ∈ updates → (∀ i ∈ t.tnque, (t.recs i).blk ≠ some b) →
    ∀ i ∈ t.tnque, (t.recs i).blk ≠ none ∧ u ≤ (t.recs i).tn

namespace BlockTable

/-- A walk that is not cut off finds what the chain holds. -/
theorem findChain_eq_find? (recs : Nat → BtRec) (block : Nat) (lcnt : Nat) (l : List Nat) (h : l.length < lcnt) :
    findChain recs block lcnt l = some (l.find? fun i => (recs i).blk = some block) := by
  induction l generalizing lcnt with
  | nil =>
    cases lcnt with
    | zero => simp at h
    | succ lcnt => rfl
  | cons i l ih =>
    cases lcnt with
    | zero => simp at h
    | succ lcnt =>
      rw [List.length_cons] at h
      rw [findChain]
      by_cases hi : (recs i).blk = some block
      · simp [hi]
      · simp [hi, ih lcnt (by omega)]

/-- A walk as long as the chain is cut off only when nothing is found. -/
theorem findChain_join (recs : Nat → BtRec) (block : Nat) (lcnt : Nat) (l : List Nat) (h : l.length ≤ lcnt) :
    (findChain recs block lcnt l).join = l.find? fun i => (recs i).blk = some block := by
  induction l generalizing lcnt with
  | nil => cases lcnt <;> rfl
  | cons i l ih =>
    cases lcnt with
    | zero => simp at h
    | succ lcnt =>
      rw [List.length_cons] at h
      rw [findChain]
      by_cases hi : (recs i).blk = some block
      · simp [hi]
      · simp [hi, ih lcnt (by omega)]

variable {t : BlockTable} {updates : List (Nat × Nat)} {currTn : Nat}

section
variable (h : t.Inv updates currTn)
include h

/-- No chain is longer than the table. -/
theorem Inv.chain_length (c : Nat) : (t.chain c).length ≤ t.nBts := by
  rw [← h.queue_length]
  exact ((h.chain_nodup c).subperm fun i hi => h.chain_sub c i hi).length_le

/-- A record that the search of a block's chain finds is the block's. -/
theorem Inv.find_some {b i : Nat} (hf : ((t.chain (t.bucket b)).find? fun i => (t.recs i).blk = some b) = some i) :
    i ∈ t.tnque ∧ (t.recs i).blk = some b := by
  refine ⟨h.chain_sub _ i (List.mem_of_find?_eq_some hf), ?_⟩
  have := List.find?_some hf
  simpa using this

/-- When the search finds nothing, no record is the block's. -/
theorem Inv.find_none {b : Nat} (hf : ((t.chain (t.bucket b)).find? fun i => (t.recs i).blk = some b) = none) :
    ∀ i ∈ t.tnque, (t.recs i).blk ≠ some b := by
  intro i hi hb
  have := List.find?_eq_none.1 hf i (h.placed i hi b hb)
  exact this (by simpa using hb)

/-- What a block's record says about its updates. -/
theorem Inv.le_of_btGet_some {b i u : Nat} (hg : t.btGet b = some i) (hu : (u, b) ∈ updates) : u ≤ (t.recs i).tn := by
  rw [btGet, findChain_join _ _ _ _ (h.chain_length _)] at hg
  obtain ⟨hi, hb⟩ := h.find_some hg
  exact h.rec_tn i hi u b hb hu

/-- What the oldest record says about the updates of a block without one. -/
theorem Inv.le_of_btGet_none {b u : Nat} (hg : t.btGet b = none) (hu : (u, b) ∈ updates) : u ≤ t.oldestHistTn := by
  rw [btGet, findChain_join _ _ _ _ (h.chain_length _)] at hg
  have habs := h.find_none hg
  cases hq : t.tnque with
  | nil =>
    have := h.queue_length
    have := h.queue_pos
    simp_all
  | cons i rest =>
    have hi : i ∈ t.tnque := by simp [hq]
    have := (h.evicted u b hu habs i hi).2
    simpa [oldestHistTn, hq] using this

/-- A block that passes its test has no update from its transaction number on. -/
theorem Inv.lt_of_checkBlk {lost modified : CdbSc} (hl : lost ≠ .normal) (hm : modified ≠ .normal)
    {t1 : SrchBlk} (hc : checkBlk t t.oldestHistTn lost modified t1 = .normal) {u : Nat} (hu : (u, t1.blkNum) ∈ updates) : u < t1.tn := by
  unfold checkBlk at hc
  cases hg : t.btGet t1.blkNum with
  | none =>
    have hle := h.le_of_btGet_none hg hu
    simp only [hg] at hc
    by_contra hlt
    rw [if_pos (by omega)] at hc
    exact hl hc
  | some i =>
    have hle := h.le_of_btGet_some hg hu
    simp only [hg] at hc
    by_contra hlt
    rw [if_pos (by omega)] at hc
    exact hm hc

/-- The invariant goes on to hold at later transaction numbers. -/
theorem Inv.mono {tn : Nat} (htn : currTn ≤ tn) : t.Inv updates tn := { h with
    tn_le := fun i hi => Nat.le_trans (h.tn_le i hi) htn
    update_le := fun u b hu => Nat.le_trans (h.update_le u b hu) htn }

end

/-- An update is an old one or the one just done. -/
theorem mem_updates_concat {b u c : Nat} (hu : (u, c) ∈ updates ++ [(currTn, b)]) : (u, c) ∈ updates ∨ u = currTn ∧ c = b := by
  simpa using hu

section
variable (h : t.Inv updates currTn)
include h

/-- `bt_put` of a block that has a record. -/
theorem Inv.touch {b i : Nat} (hi : i ∈ t.tnque) (hb : (t.recs i).blk = some b) :
    Inv { t with
      recs := Function.update t.recs i { t.recs i with tn := currTn }
      tnque := t.tnque.erase i ++ [i] } (updates ++ [(currTn, b)]) currTn := by
  have hmem : ∀ j, j ∈ t.tnque.erase i ++ [i] ↔ j ∈ t.tnque := by
    intro j
    grind
  have hne : ∀ j ∈ t.tnque.erase i, j ≠ i := fun j hj => (h.queue_nodup.mem_erase_iff.1 hj).1
  have hblk : ∀ j, (Function.update t.recs i { t.recs i with tn := currTn } j).blk = (t.recs j).blk := by
    intro j
    by_cases hj : j = i
    · subst hj
      simp
    · rw [Function.update_of_ne hj]
  have htn : ∀ j ∈ t.tnque, (t.recs j).tn ≤ (Function.update t.recs i { t.recs i with tn := currTn } j).tn := by
    intro j hj
    by_cases hji : j = i
    · subst hji
      simpa using h.tn_le j hj
    · simp [Function.update_of_ne hji]
  constructor
  case queue_nodup =>
    refine List.nodup_append.2 ⟨h.queue_nodup.erase i, List.nodup_singleton i, ?_⟩
    intro j hj k hk
    rw [List.mem_singleton.1 hk]
    exact hne j hj
  case queue_length =>
    have := h.queue_pos
    have := h.queue_length
    simp only [List.length_append, List.length_erase_of_mem hi, List.length_singleton]
    omega
  case queue_pos => exact h.queue_pos
  case chain_nodup => exact h.chain_nodup
  case chain_sub =>
    intro c j hj
    exact (hmem j).2 (h.chain_sub c j hj)
  case placed =>
    intro j hj c hc
    exact h.placed j ((hmem j).1 hj) c ((hblk j).symm.trans hc)
  case unique =>
    intro j hj k hk c hjc hkc
    exact h.unique j ((hmem j).1 hj) k ((hmem k).1 hk) c ((hblk j).symm.trans hjc) ((hblk k).symm.trans hkc)
  case sorted =>
    refine List.pairwise_append.2 ⟨?_, List.pairwise_singleton _ i, ?_⟩
    · refine (h.sorted.sublist List.erase_sublist).imp_of_mem ?_
      intro j k hj hk hjk
      simp only [Function.update_of_ne (hne j hj), Function.update_of_ne (hne k hk)]
      exact hjk
    · intro j hj k hk _
      simp only [List.mem_singleton.1 hk, Function.update_of_ne (hne j hj), Function.update_self]
      simp [hb, h.tn_le j (List.mem_of_mem_erase hj)]
  case tn_le =>
    intro j hj
    by_cases hji : j = i
    · subst hji
      simp
    · simp only [Function.update_of_ne hji]
      exact h.tn_le j ((hmem j).1 hj)
  case update_le =>
    intro u c hu
    rcases mem_updates_concat hu with hu | ⟨rfl, _⟩
    · exact h.update_le u c hu
    · exact Nat.le_refl _
  case rec_tn =>
    intro j hj u c hc hu
    have hj' := (hmem j).1 hj
    have hc' := (hblk j).symm.trans hc
    rcases mem_updates_concat hu with hu | ⟨rfl, rfl⟩
    · exact Nat.le_trans (h.rec_tn j hj' u c hc' hu) (htn j hj')
    · simp [h.unique j hj' i hi c hc' hb]
  case evicted =>
    intro u c hu habs j hj
    have hj := (hmem j).1 hj
    have habs' : ∀ k ∈ t.tnque, (t.recs k).blk ≠ some c := fun k hk hkc => habs k ((hmem k).2 hk) ((hblk k).trans hkc)
    rcases mem_updates_concat hu with hu | ⟨rfl, rfl⟩
    · obtain ⟨hv, hle⟩ := h.evicted u c hu habs' j hj
      exact ⟨fun hn => hv ((hblk j).symm.trans hn), Nat.le_trans hle (htn j hj)⟩
    · exact absurd hb (habs' i hi)

/-- `bt_put` of a block that has none: the oldest record is reused. -/
theorem Inv.reuse {b i : Nat} {rest : List Nat} (hq : t.tnque = i :: rest)
    (habs : ∀ j ∈ t.tnque, (t.recs j).blk ≠ some b) :
    Inv { t with
      recs := Function.update t.recs i { blk := some b, tn := currTn, killtn := currTn }
      chain := fun c => (t.chain c).erase i ++ if c = t.bucket b then [i] else []
      tnque := rest ++ [i] } (updates ++ [(currTn, b)]) currTn := by
  have hnd := h.queue_nodup
  rw [hq, List.nodup_cons] at hnd
  have hmem : ∀ j, j ∈ rest ++ [i] ↔ j ∈ t.tnque := by
    intro j
    simp [hq, or_comm]
  have hne : ∀ j ∈ rest, j ≠ i := fun j hj hji => hnd.1 (hji ▸ hj)
  have hi : i ∈ t.tnque := by simp [hq]
  have hsorted := h.sorted
  rw [hq, List.pairwise_cons] at hsorted
  have hother : ∀ {j}, j ≠ i → Function.update t.recs i { blk := some b, tn := currTn, killtn := currTn } j = t.recs j :=
    fun hj => Function.update_of_ne hj _ _
  constructor
  case queue_nodup =>
    refine List.nodup_append.2 ⟨hnd.2, List.nodup_singleton i, ?_⟩
    intro j hj k hk
    rw [List.mem_singleton.1 hk]
    exact hne j hj
  case queue_length =>
    rw [← h.queue_length, hq]
    simp
  case queue_pos => exact h.queue_pos
  case chain_nodup =>
    intro c
    refine List.nodup_append.2 ⟨(h.chain_nodup c).erase i, by split <;> simp, ?_⟩
    intro j hj k hk
    have hk : k = i := by
      split at hk
      · simpa using hk
      · simp at hk
    rw [hk]
    exact ((h.chain_nodup c).mem_erase_iff.1 hj).1
  case chain_sub =>
    intro c j hj
    rcases List.mem_append.1 hj with hj | hj
    · exact (hmem j).2 (h.chain_sub c j (List.mem_of_mem_erase hj))
    · split at hj
      · rw [List.mem_singleton.1 hj]
        simp
      · simp at hj
  case placed =>
    intro j hj c hc
    by_cases hji : j = i
    · subst hji
      have hcb : c = b := by simpa [eq_comm] using hc
      subst hcb
      simp [bucket]
    · simp only [hother hji] at hc
      have := h.placed j ((hmem j).1 hj) c hc
      exact List.mem_append_left _ ((h.chain_nodup _).mem_erase_iff.2 ⟨hji, this⟩)
  case unique =>
    intro j hj k hk c hjc hkc
    have hj := (hmem j).1 hj
    have hk := (hmem k).1 hk
    by_cases hji : j = i <;> by_cases hki : k = i
    · rw [hji, hki]
    · simp only [hji, Function.update_self, Option.some.injEq] at hjc
      simp only [hother hki] at hkc
      exact absurd (hjc ▸ hkc) (habs k hk)
    · simp only [hki, Function.update_self, Option.some.injEq] at hkc
      simp only [hother hji] at hjc
      exact absurd (hkc ▸ hjc) (habs j hj)
    · simp only [hother hji] at hjc
      simp only [hother hki] at hkc
      exact h.unique j hj k hk c hjc hkc
  case sorted =>
    refine List.pairwise_append.2 ⟨?_, List.pairwise_singleton _ i, ?_⟩
    · refine hsorted.2.imp_of_mem ?_
      intro j k hj hk hjk
      simp only [hother (hne j hj), hother (hne k hk)]
      exact hjk
    · intro j hj k hk _
      simp only [List.mem_singleton.1 hk, hother (hne j hj), Function.update_self]
      simp [h.tn_le j (by simp [hq, hj])]
  case tn_le =>
    intro j hj
    by_cases hji : j = i
    · subst hji
      simp
    · simp only [hother hji]
      exact h.tn_le j ((hmem j).1 hj)
  case update_le =>
    intro u c hu
    rcases mem_updates_concat hu with hu | ⟨rfl, _⟩
    · exact h.update_le u c hu
    · exact Nat.le_refl _
  case rec_tn =>
    intro j hj u c hc hu
    have hule : u ≤ currTn := by
      rcases mem_updates_concat hu with hu | ⟨rfl, _⟩
      · exact h.update_le u c hu
      · exact Nat.le_refl _
    by_cases hji : j = i
    · subst hji
      simpa using hule
    · simp only [hother hji] at hc ⊢
      rcases mem_updates_concat hu with hu | ⟨rfl, rfl⟩
      · exact h.rec_tn j ((hmem j).1 hj) u c hc hu
      · exact absurd hc (habs j ((hmem j).1 hj))
  case evicted =>
    intro u c hu habs' j hj
    have hcb : c ≠ b := by
      rintro rfl
      exact habs' i (by simp) (by simp)
    have hu : (u, c) ∈ updates := by
      rcases mem_updates_concat hu with hu | ⟨_, rfl⟩
      · exact hu
      · exact absurd rfl hcb
    have hrest : ∀ k ∈ rest, (t.recs k).blk ≠ some c := by
      intro k hk hkc
      refine habs' k (by simp [hk]) ?_
      simpa [hother (hne k hk)] using hkc
    by_cases hji : j = i
    · subst hji
      simpa using h.update_le u c hu
    have hj : j ∈ rest := by
      rcases List.mem_append.1 hj with hj | hj
      · exact hj
      · exact absurd (List.mem_singleton.1 hj) hji
    simp only [hother hji]
    by_cases hic : (t.recs i).blk = some c
    · -- the record just given up was the one of this block, and the oldest
      obtain ⟨hv, hle⟩ := hsorted.1 j hj (by simp [hic])
      exact ⟨hv, Nat.le_trans (h.rec_tn i hi u c hic hu) hle⟩
    · refine h.evicted u c hu ?_ j (by simp [hq, hj])
      intro k hk
      rcases List.mem_cons.1 (hq ▸ hk) with rfl | hk
      · exact hic
      · exact hrest k hk

/-- `bt_put` does not fail, and remembers the update. -/
theorem Inv.btPut (b : Nat) : ∃ t', t.btPut b currTn = some t' ∧ t'.Inv (updates ++ [(currTn, b)]) currTn := by
  have hlen := h.chain_length (t.bucket b)
  unfold BlockTable.btPut
  rw [findChain_eq_find? _ _ _ _ (by omega)]
  cases hf : (t.chain (t.bucket b)).find? fun i => (t.recs i).blk = some b with
  | some i =>
    obtain ⟨hi, hb⟩ := h.find_some hf
    exact ⟨_, rfl, h.touch hi hb⟩
  | none =>
    cases hq : t.tnque with
    | nil =>
      have := h.queue_length
      have := h.queue_pos
      simp_all
    | cons i rest => exact ⟨_, rfl, h.reuse hq (h.find_none hf)⟩

/-- The write set of one transaction goes in without failure. -/
theorem Inv.btPutAll (bs : List Nat) : ∃ t', t.btPutAll currTn bs = some t' ∧ t'.Inv (updates ++ bs.map fun b => (currTn, b)) currTn := by
  induction bs generalizing t updates with
  | nil => exact ⟨t, rfl, by simpa using h⟩
  | cons b bs ih =>
    obtain ⟨t1, ht1, h1⟩ := h.btPut b
    obtain ⟨t2, ht2, h2⟩ := ih h1
    refine ⟨t2, ?_, by simpa using h2⟩
    rw [BlockTable.btPutAll, ht1]
    exact ht2

end

/-- The table of a database just opened. -/
theorem inv_btRefresh (nBts btBuckets : Nat) (bt1 : Nat → Nat) (currTn : Nat) (hn : 0 < nBts) :
    (btRefresh nBts btBuckets bt1 currTn).Inv [] currTn := by
  constructor
  case queue_nodup => exact List.nodup_range
  case queue_length => exact List.length_range
  case queue_pos => exact hn
  case chain_nodup => exact fun c => List.nodup_range.filter _
  case chain_sub => exact fun c i hi => List.mem_of_mem_filter hi
  case placed => simp [btRefresh]
  case unique => simp [btRefresh]
  case sorted => exact List.pairwise_of_forall fun i j hi => absurd rfl hi
  case tn_le =>
    intro i _
    simp only [btRefresh]
    split <;> omega
  case update_le => simp
  case rec_tn => simp
  case evicted => simp

end BlockTable

/-- A list of tests without a failure passes each of them. -/
theorem firstFailure_normal {check : SrchBlk → CdbSc} {l : List SrchBlk} (h : firstFailure check l = .normal) :
    ∀ t1 ∈ l, check t1 = .normal := by
  induction l with
  | nil => simp
  | cons t1 l ih =>
    rw [firstFailure] at h
    split at h
    · rename_i h1
      intro x hx
      rcases List.mem_cons.1 hx with rfl | hx
      · exact h1
      · exact ih h x hx
    · rename_i h1
      exact absurd h h1

/-- A transaction that passes the validation read no block that was updated from the number of its read on. -/
theorem BlockTable.Inv.lt_of_tEndValidate {t : BlockTable} {updates : List (Nat × Nat)} {currTn : Nat} (h : t.Inv updates currTn)
    {hist bitmaps : List SrchBlk} (hv : tEndValidate t hist bitmaps = .normal) {t1 : SrchBlk} (ht : t1 ∈ hist ∨ t1 ∈ bitmaps)
    {u : Nat} (hu : (u, t1.blkNum) ∈ updates) : u < t1.tn := by
  unfold tEndValidate at hv
  simp only at hv
  split at hv
  · rename_i hh
    rcases ht with ht | ht
    · exact h.lt_of_checkBlk (by decide) (by decide) (firstFailure_normal hh t1 ht) hu
    · exact h.lt_of_checkBlk (by decide) (by decide) (firstFailure_normal hv t1 ht) hu
  · rename_i hh
    exact absurd hv hh

end Gtm
