import Gtm.Mlk.Pvtblk

/-!
# Levels of locks

The chain of a process keeps one block for each nref, and `op_lkname` moves blocks to its head without a change of any level. So the
operation finds the nrefs of its argument list at the head, each with the number of times it was named, and the rest behind them.
-/

namespace Gtm

section LockLevel

variable {ρ : Type} [DecidableEq ρ]

/-! ## Chains -/

/-- A chain as the incremental commands leave it: one block for each nref, no `ZALLOCATE`, and no level without the lock. -/
structure ChainOk (chain : List (MlkPvtblk ρ)) : Prop where
  nodup : (chain.map MlkPvtblk.value).Nodup
  zalloc : ∀ p ∈ chain, p.zalloc = false
  idle : ∀ p ∈ chain, p.granted = false → p.level = 0

variable {chain chain' back front done rest : List (MlkPvtblk ρ)} {p : MlkPvtblk ρ} {r : ρ} {s : MlkPvt ρ} {refs : List ρ}
variable {L : ρ → BitVec 9}

/-- The level of an nref is that of its block. -/
theorem chainLevel_of_mem (h : (chain.map MlkPvtblk.value).Nodup) (hp : p ∈ chain) : chainLevel chain p.value = p.level := by
  induction chain with
  | nil => nomatch hp
  | cons q chain ih =>
    rw [List.map_cons, List.nodup_cons] at h
    unfold chainLevel
    rw [List.find?_cons]
    rcases List.mem_cons.1 hp with rfl | hp
    · simp
    · have hne : q.value ≠ p.value := fun he => h.1 (he ▸ List.mem_map_of_mem hp)
      simp only [hne, decide_false]
      exact ih h.2 hp

/-- An nref without a block has level 0. -/
theorem chainLevel_of_not_mem (h : r ∉ chain.map MlkPvtblk.value) : chainLevel chain r = 0 := by
  unfold chainLevel
  rw [List.find?_eq_none.2]
  intro p hp
  simp only [decide_eq_true_eq]
  rintro rfl
  exact h (List.mem_map_of_mem hp)

/-- A chain behind one that has no block of the nref. -/
theorem chainLevel_append_right {l l' : List (MlkPvtblk ρ)} (h : r ∉ l.map MlkPvtblk.value) : chainLevel (l ++ l') r = chainLevel l' r := by
  unfold chainLevel
  rw [List.find?_append, List.find?_eq_none.2, Option.none_or]
  intro p hp
  simp only [decide_eq_true_eq]
  rintro rfl
  exact h (List.mem_map_of_mem hp)

/-- A chain before one that has no block of the nref. -/
theorem chainLevel_append_left {l l' : List (MlkPvtblk ρ)} (h : r ∉ l'.map MlkPvtblk.value) : chainLevel (l ++ l') r = chainLevel l r := by
  unfold chainLevel
  rw [List.find?_append, (List.find?_eq_none (l := l')).2, Option.or_none]
  intro p hp
  simp only [decide_eq_true_eq]
  rintro rfl
  exact h (List.mem_map_of_mem hp)

/-- With one block for each nref, taking out the first block of an nref takes out all of them. -/
theorem eraseP_eq_filter (h : (chain.map MlkPvtblk.value).Nodup) (r : ρ) :
    chain.eraseP (fun p => p.value = r) = chain.filter (fun p => p.value ≠ r) := by
  induction chain with
  | nil => rfl
  | cons q chain ih =>
    rw [List.map_cons, List.nodup_cons] at h
    by_cases hq : q.value = r
    · have hall : chain.filter (fun p => p.value ≠ r) = chain := by
        refine List.filter_eq_self.2 fun p hp => ?_
        simp only [decide_eq_true_eq]
        rintro rfl
        exact h.1 (hq ▸ List.mem_map_of_mem hp)
      rw [List.eraseP_cons_of_pos (by simpa using hq), List.filter_cons_of_neg (by simpa using hq), hall]
    · rw [List.eraseP_cons_of_neg (by simpa using hq), List.filter_cons_of_pos (by simpa using hq), ih h.2]

/-- Two blocks of one nref with the same level and the same count. -/
structure MlkPvtblk.Alike (p q : MlkPvtblk ρ) : Prop where
  value : q.value = p.value
  level : q.level = p.level
  zalloc : q.zalloc = p.zalloc
  translev : q.translev = p.translev
  idle : (p.granted = false → p.level = 0) → q.granted = false → q.level = 0

theorem MlkPvtblk.Alike.refl (p : MlkPvtblk ρ) : p.Alike p := ⟨rfl, rfl, rfl, rfl, id⟩

/-- Chains of blocks that are alike have the same nrefs. -/
theorem map_value_of_alike (h : List.Forall₂ MlkPvtblk.Alike chain chain') : chain'.map MlkPvtblk.value = chain.map MlkPvtblk.value := by
  induction h with
  | nil => rfl
  | cons hpq _ ih => rw [List.map_cons, List.map_cons, hpq.value, ih]

/-- Chains of blocks that are alike have the same levels. -/
theorem chainLevel_of_alike (h : List.Forall₂ MlkPvtblk.Alike chain chain') (r : ρ) : chainLevel chain' r = chainLevel chain r := by
  unfold chainLevel
  induction h with
  | nil => rfl
  | @cons p q chain chain' hpq _ ih =>
    rw [List.find?_cons, hpq.value]
    by_cases hp : p.value = r
    · simpa [hp] using hpq.level
    · simpa [hp] using ih

/-- What blocks that are alike say of each other holds along chains of them. -/
theorem forall_of_alike {P Q : MlkPvtblk ρ → Prop}
    (h : List.Forall₂ MlkPvtblk.Alike chain chain') (hPQ : ∀ p q : MlkPvtblk ρ, p.Alike q → P p → Q q)
    (hP : ∀ p ∈ chain, P p) : ∀ q ∈ chain', Q q := by
  induction h with
  | nil => simp
  | @cons p q chain chain' hpq _ ih =>
    rw [List.forall_mem_cons] at hP ⊢
    exact ⟨hPQ p q hpq hP.1, ih hP.2⟩

theorem ChainOk.of_alike (h : ChainOk chain) (ha : List.Forall₂ MlkPvtblk.Alike chain chain') : ChainOk chain' where
  nodup := by
    rw [map_value_of_alike ha]
    exact h.nodup
  zalloc := forall_of_alike ha (fun _ _ hpq hp => hpq.zalloc.trans hp) h.zalloc
  idle := forall_of_alike ha (fun _ _ hpq hp => hpq.idle hp) h.idle

/-! ## Naming -/

/-- What `mlk_pvtblk_insert` puts at the head of the chain. -/
structure Headed (chain : List (MlkPvtblk ρ)) (r : ρ) (q : MlkPvtblk ρ) : Prop where
  value : q.value = r
  level : q.level = chainLevel chain r
  zalloc : q.zalloc = false
  idle : q.granted = false → q.level = 0
  trans : q.trans = true
  /-- The block was marked as named, and is counted once more. -/
  again : ∀ p ∈ chain, p.value = r → p.trans = true → q.translev = p.translev + 1
  /-- The block is counted for the first time. -/
  first : (∀ p ∈ chain, p.value = r → p.trans = false) → q.translev = 1

/-- Naming an nref brings its block to the head of the chain, and leaves the others where they are. -/
theorem opLkname_spec (h : ChainOk s.mlkPvtRoot) (r : ρ) :
    ∃ q, Headed s.mlkPvtRoot r q ∧ opLkname r s = ⟨q :: s.mlkPvtRoot.filter (fun p => p.value ≠ r),
        if q.translev = 1 then s.lksThisCmd + 1 else s.lksThisCmd⟩ := by
  unfold opLkname mlkPvtblkInsert
  rw [eraseP_eq_filter h.nodup]
  cases hf : s.mlkPvtRoot.find? (fun p => p.value = r) with
  | none =>
    have hno : ∀ p ∈ s.mlkPvtRoot, p.value ≠ r := by simpa using List.find?_eq_none.1 hf
    have hall : s.mlkPvtRoot.filter (fun p => p.value ≠ r) = s.mlkPvtRoot := List.filter_eq_self.2 fun p hp => by simpa using hno p hp
    refine ⟨{ value := r, translev := 1, trans := true }, ?_, ?_⟩
    · exact {
        value := rfl
        level := by simp [chainLevel, hf]
        zalloc := rfl
        idle := fun _ => rfl
        trans := rfl
        again := fun p hp hpr => absurd hpr (hno p hp)
        first := fun _ => rfl }
    · rw [hall]
      simp
  | some p =>
    have hp : p ∈ s.mlkPvtRoot := List.mem_of_find?_eq_some hf
    have hpr : p.value = r := by simpa using List.find?_some hf
    have hone : ∀ p' ∈ s.mlkPvtRoot, p'.value = r → p' = p := fun p' hp' hpr' =>
      List.inj_on_of_nodup_map h.nodup hp' hp (hpr'.trans hpr.symm)
    refine ⟨p.again, ?_, by simp⟩
    have hl : p.level = chainLevel s.mlkPvtRoot r := by simp [chainLevel, hf]
    unfold MlkPvtblk.again
    by_cases ht : p.trans = true
    · rw [if_pos ht]
      exact {
        value := hpr
        level := hl
        zalloc := h.zalloc p hp
        idle := h.idle p hp
        trans := ht
        again := fun p' hp' hpr' _ => by rw [hone p' hp' hpr']
        first := fun hno => by simp [hno p hp hpr] at ht }
    · rw [if_neg ht]
      exact {
        value := hpr
        level := hl
        zalloc := h.zalloc p hp
        idle := h.idle p hp
        trans := rfl
        again := fun p' hp' hpr' ht' => absurd (hone p' hp' hpr' ▸ ht') ht
        first := fun _ => rfl }

/-- Naming an nref keeps the chain in order. -/
theorem chainOk_opLkname (h : ChainOk s.mlkPvtRoot) (r : ρ) : ChainOk (opLkname r s).mlkPvtRoot := by
  obtain ⟨q, hq, he⟩ := opLkname_spec h r
  rw [he]
  refine ⟨?_, ?_, ?_⟩
  · rw [List.map_cons, List.nodup_cons, hq.value]
    refine ⟨fun hr => ?_, h.nodup.sublist (List.filter_sublist.map _)⟩
    obtain ⟨p, hp, hpr⟩ := List.mem_map.1 hr
    simpa [hpr] using (List.mem_filter.1 hp).2
  · exact List.forall_mem_cons.2 ⟨hq.zalloc, fun p hp => h.zalloc p (List.mem_filter.1 hp).1⟩
  · exact List.forall_mem_cons.2 ⟨hq.idle, fun p hp => h.idle p (List.mem_filter.1 hp).1⟩

/-- Naming an nref changes no level. -/
theorem levelOf_opLkname (h : ChainOk s.mlkPvtRoot) (r x : ρ) : (opLkname r s).levelOf x = s.levelOf x := by
  obtain ⟨q, hq, he⟩ := opLkname_spec h r
  unfold MlkPvt.levelOf
  rw [he]
  by_cases hx : x = r
  · subst hx
    rw [← hq.level, chainLevel, List.find?_cons_of_pos (by simpa using hq.value)]
  · unfold chainLevel
    rw [List.find?_cons_of_neg (by simpa [hq.value] using Ne.symm hx), List.find?_filter]
    congr 2
    funext p
    by_cases hp : p.value = x
    · simp [hp, hx]
    · simp [hp]

/-- A chain whose first blocks are those of the nrefs of an argument list, each with the number of times it was named, and whose
levels are as told. -/
structure Fronted (L : ρ → BitVec 9) (refs : List ρ) (front back : List (MlkPvtblk ρ)) : Prop where
  ok : ChainOk (front ++ back)
  order : front.map MlkPvtblk.value = lockOrder refs
  counted : ∀ p ∈ front, p.translev.toNat = refs.count p.value
  level : ∀ r, chainLevel (front ++ back) r = L r

/-- One more nref in an argument list. -/
theorem lockOrder_append (refs : List ρ) (r : ρ) : lockOrder (refs ++ [r]) = r :: (lockOrder refs).filter (· ≠ r) := by
  rw [lockOrder, List.foldl_append]
  rfl

theorem mem_lockOrder : r ∈ lockOrder refs ↔ r ∈ refs := by
  induction refs using List.reverseRecOn with
  | nil => simp [lockOrder]
  | append_singleton refs x ih =>
    rw [lockOrder_append, List.mem_cons, List.mem_filter, ih]
    by_cases hx : r = x <;> simp [hx]

theorem nodup_lockOrder (refs : List ρ) : (lockOrder refs).Nodup := by
  induction refs using List.reverseRecOn with
  | nil => exact List.nodup_nil
  | append_singleton refs x ih =>
    rw [lockOrder_append, List.nodup_cons]
    exact ⟨by simp, ih.filter _⟩

/-- The state while an argument list is gone through. -/
def Naming (s₀ : MlkPvt ρ) (refs : List ρ) (s : MlkPvt ρ) : Prop :=
  ∃ front back, s.mlkPvtRoot = front ++ back ∧ s.lksThisCmd = front.length ∧
    Fronted s₀.levelOf refs front back ∧ (∀ p ∈ front, p.trans = true) ∧ ∀ p ∈ back, p ∈ s₀.mlkPvtRoot

/-- The number of nrefs in a list after one of them is taken out. -/
theorem length_filter_ne {l : List ρ} (h : l.Nodup) (r : ρ) : (l.filter (· ≠ r)).length + (if r ∈ l then 1 else 0) = l.length := by
  have he : l.filter (· ≠ r) = l.erase r := by
    rw [h.erase_eq_filter r]
    exact List.filter_congr fun x _ => by by_cases hx : x = r <;> simp [hx]
  rw [he]
  by_cases hr : r ∈ l
  · have := List.length_pos_of_mem hr
    rw [if_pos hr, List.length_erase_of_mem hr]
    omega
  · rw [if_neg hr, List.erase_of_not_mem hr]
    rfl

/-- Naming one more nref. -/
theorem Naming.snoc {s₀ : MlkPvt ρ} (h : Naming s₀ refs s) (hc : (refs ++ [r]).count r < 256)
    (hs : ∀ p ∈ s₀.mlkPvtRoot, p.value = r → p.trans = false) : Naming s₀ (refs ++ [r]) (opLkname r s) := by
  obtain ⟨front, back, hsplit, hlks, hf, htrans, hback⟩ := h
  have hok : ChainOk s.mlkPvtRoot := hsplit ▸ hf.ok
  obtain ⟨q, hq, he⟩ := opLkname_spec hok r
  have hcount : (refs ++ [r]).count r = refs.count r + 1 := by simp
  have hroot : (opLkname r s).mlkPvtRoot = (q :: front.filter (fun p => p.value ≠ r)) ++ back.filter (fun p => p.value ≠ r) := by
    rw [he, hsplit, List.filter_append]
    rfl
  have hvalues : (front.filter (fun p => p.value ≠ r)).map MlkPvtblk.value = (lockOrder refs).filter (· ≠ r) := by
    rw [← hf.order, List.filter_map]
    rfl
  -- the count of the nref, by whether it has been named before
  have hlev : q.translev.toNat = refs.count r + 1 ∧ (q.translev = 1 ↔ r ∉ lockOrder refs) := by
    by_cases hr : r ∈ lockOrder refs
    · obtain ⟨p, hp, hpr⟩ := List.mem_map.1 (hf.order ▸ hr)
      have hqp := hq.again p (hsplit ▸ List.mem_append_left _ hp) hpr (htrans p hp)
      have hcp : p.translev.toNat = refs.count r := hpr ▸ hf.counted p hp
      have hpos : 0 < refs.count r := List.count_pos_iff.2 (mem_lockOrder.1 hr)
      have hn : q.translev.toNat = refs.count r + 1 := by
        rw [hqp, BitVec.toNat_add, hcp]
        exact Nat.mod_eq_of_lt (by simp; omega)
      refine ⟨hn, ⟨fun h1 => ?_, fun hno => absurd hr hno⟩⟩
      rw [h1] at hn
      simp at hn
      omega
    · have hfirst : q.translev = 1 := by
        refine hq.first fun p hp hpr => hs p ?_ hpr
        rcases List.mem_append.1 (hsplit ▸ hp) with hp | hp
        · exact absurd (hf.order ▸ List.mem_map.2 ⟨p, hp, hpr⟩) hr
        · exact hback p hp
      have hzero : refs.count r = 0 := List.count_eq_zero.2 (fun hm => hr (mem_lockOrder.2 hm))
      exact ⟨by rw [hfirst, hzero]; rfl, ⟨fun _ => hr, fun _ => hfirst⟩⟩
  have hlength := length_filter_ne (nodup_lockOrder refs) r
  have hlen : (front.filter (fun p => p.value ≠ r)).length + (if r ∈ lockOrder refs then 1 else 0) = front.length := by
    rw [← hvalues, List.length_map, ← hf.order, List.length_map, hf.order] at hlength
    exact hlength
  refine ⟨_, _, hroot, ?_, ⟨hroot ▸ chainOk_opLkname hok r, ?_, ?_, ?_⟩, ?_, ?_⟩
  · rw [he, List.length_cons, hlks]
    by_cases hr : r ∈ lockOrder refs
    · rw [if_neg (fun h1 => hlev.2.1 h1 hr)]
      simp only [hr, if_true] at hlen
      exact hlen.symm
    · rw [if_pos (hlev.2.2 hr)]
      simp only [hr, if_false, Nat.add_zero] at hlen
      rw [hlen]
  · rw [List.map_cons, hq.value, hvalues, lockOrder_append]
  · refine List.forall_mem_cons.2 ⟨?_, fun p hp => ?_⟩
    · rw [hq.value, hcount]
      exact hlev.1
    · obtain ⟨hp, hpr⟩ := List.mem_filter.1 hp
      have hne : p.value ≠ r := by simpa using hpr
      rw [hf.counted p hp, List.count_append]
      simp [Ne.symm hne]
  · intro x
    have := levelOf_opLkname hok r x
    rw [MlkPvt.levelOf, hroot, MlkPvt.levelOf, hsplit, hf.level] at this
    exact this
  · exact List.forall_mem_cons.2 ⟨hq.trans, fun p hp => htrans p (List.mem_filter.1 hp).1⟩
  · exact fun p hp => hback p (List.mem_filter.1 hp).1

/-- The state at the end of an argument list that is counted right. -/
theorem naming_opLknames (h : ChainOk s.mlkPvtRoot) (hlks : s.lksThisCmd = 0) (hc : s.Countable refs) : Naming s refs (opLknames refs s) := by
  induction refs using List.reverseRecOn with
  | nil =>
    refine ⟨[], s.mlkPvtRoot, rfl, hlks, ⟨h, rfl, by simp, fun _ => rfl⟩, by simp, fun _ hp => hp⟩
  | append_singleton refs r ih =>
    have hcount : ∀ x, refs.count x ≤ (refs ++ [r]).count x := fun x => by simp
    rw [opLknames, List.foldl_append]
    refine Naming.snoc (ih fun x hx => ?_) (hc r (by simp)).1 (hc r (by simp)).2
    have hx' := hc x (List.mem_append_left _ hx)
    exact ⟨Nat.lt_of_le_of_lt (hcount x) hx'.1, hx'.2⟩

/-- An argument list changes no level. -/
theorem opLknames_spec (h : ChainOk s.mlkPvtRoot) (refs : List ρ) :
    ChainOk (opLknames refs s).mlkPvtRoot ∧ ∀ r, (opLknames refs s).levelOf r = s.levelOf r := by
  induction refs using List.reverseRecOn with
  | nil => exact ⟨h, fun _ => rfl⟩
  | append_singleton refs r ih =>
    rw [opLknames, List.foldl_append]
    exact ⟨chainOk_opLkname ih.1 r, fun x => (levelOf_opLkname ih.1 r x).trans (ih.2 x)⟩

/-! ## Passes over the locks -/

/-- The block of a lock that is got, when its level can be raised. -/
def MlkPvtblk.raised (p : MlkPvtblk ρ) : MlkPvtblk ρ :=
  { p with granted := true, level := p.level + p.translev.setWidth 9 }

/-- Where a pass ends among the blocks it is about. -/
inductive Passed (front back : List (MlkPvtblk ρ)) : PassEnd ρ → Prop where
  | all : (∀ p ∈ front, p.level < 511) → Passed front back (.all (front.map MlkPvtblk.raised ++ back))
  | blocked (done rest : List (MlkPvtblk ρ)) : front = done ++ rest →
    Passed front back (.blocked done.length (done.map MlkPvtblk.raised ++ rest ++ back))
  | levelErr (done rest : List (MlkPvtblk ρ)) (p : MlkPvtblk ρ) : front = done ++ p :: rest →
    (∀ q ∈ done, q.level < 511) → ¬ p.level < 511 →
    Passed front back (.levelErr (done.map MlkPvtblk.raised ++ { p with granted := true } :: rest ++ back))

/-- A pass over one more block before the others. -/
theorem Passed.behind {e : PassEnd ρ} (h : Passed front back e) (hp : p.level < 511) : Passed (p :: front) back (e.behind p.raised) := by
  cases h with
  | all h => exact .all (List.forall_mem_cons.2 ⟨hp, h⟩)
  | blocked done rest hf => exact .blocked (p :: done) rest (by rw [hf]; rfl)
  | levelErr done rest q hf hd hq =>
    exact .levelErr (p :: done) rest q (by rw [hf]; rfl) (List.forall_mem_cons.2 ⟨hp, hd⟩) hq

/-- A pass over the blocks at the head of the chain. -/
theorem lockLoop_spec (mlkLock : Nat → Bool) (front back : List (MlkPvtblk ρ)) (i : Nat) :
    ∃ e, lockLoop .incremental mlkLock front.length i (front ++ back) = .ok e ∧ Passed front back e := by
  induction front generalizing i with
  | nil => exact ⟨_, rfl, .all (by simp)⟩
  | cons p front ih =>
    rw [List.length_cons, List.cons_append, lockLoop]
    by_cases hb : mlkLock i = true
    · rw [if_pos hb]
      exact ⟨_, rfl, .blocked [] _ rfl⟩
    · rw [if_neg hb]
      by_cases hp : p.level < 511
      · obtain ⟨e, he, hpass⟩ := ih (i + 1)
        have hr : p.raise .incremental = some p.raised := if_pos hp
        rw [hr]
        exact ⟨_, by simp only [he]; rfl, hpass.behind hp⟩
      · have hr : p.raise .incremental = none := if_neg hp
        rw [hr]
        exact ⟨_, rfl, .levelErr [] _ _ rfl (by simp) hp⟩

/-- Backing out a lock brings its level back, also when it had gone round. -/
theorem alike_mlkBckout (hz : p.zalloc = false) : p.Alike (mlkBckout p.raised .incremental) := by
  have hlevel : p.raised.level - p.raised.translev.setWidth 9 = p.level := BitVec.add_sub_cancel _ _
  have hgranted : p.raised.granted = true := rfl
  have hzalloc : p.raised.zalloc = false := hz
  unfold mlkBckout
  simp only [hgranted, hlevel, hzalloc, Bool.not_true, Bool.false_eq_true, if_false, Bool.not_false, and_true]
  split
  · rename_i h0
    have h0 : p.level = 0 := BitVec.eq_of_toNat_eq (by simpa using h0)
    exact ⟨rfl, h0.symm, hz.symm, rfl, fun _ _ => rfl⟩
  · exact ⟨rfl, rfl, hz.symm, rfl, fun _ h => by simp at h⟩

/-- Blocks that are alike are named and counted the same. -/
theorem Fronted.of_alike {front' : List (MlkPvtblk ρ)}
    (h : Fronted L refs front back) (ha : List.Forall₂ MlkPvtblk.Alike front front') : Fronted L refs front' back := by
  have hall : List.Forall₂ MlkPvtblk.Alike (front ++ back) (front' ++ back) := List.rel_append ha (List.forall₂_same.2 fun p _ => .refl p)
  refine ⟨h.ok.of_alike hall, (map_value_of_alike ha).trans h.order, ?_, fun r => (chainLevel_of_alike hall r).trans (h.level r)⟩
  exact forall_of_alike ha (fun p q hpq hp => by rw [hpq.translev, hpq.value, hp]) h.counted

/-- A pass that is blocked and backed out has changed no level. -/
theorem Fronted.bckout (h : Fronted L refs (done ++ rest) back) :
    ∃ front', bckoutLoop .incremental done.length (done.map MlkPvtblk.raised ++ rest ++ back) = front' ++ back ∧
      front'.length = (done ++ rest).length ∧ Fronted L refs front' back := by
  refine ⟨done.map (fun p => mlkBckout p.raised .incremental) ++ rest, ?_, by simp, h.of_alike ?_⟩
  · rw [bckoutLoop, List.append_assoc, List.take_left' (by simp), List.drop_left' (by simp), List.map_map, List.append_assoc]
    rfl
  · refine List.rel_append (List.forall₂_map_right_iff.2 (List.forall₂_same.2 fun p hp => ?_))
      (List.forall₂_same.2 fun p _ => .refl p)
    exact alike_mlkBckout (h.ok.zalloc p (by simp [hp]))

omit [DecidableEq ρ] in
/-- `lckclr` takes the marks of the blocks at the head of the chain. -/
theorem lckclr_spec (front back : List (MlkPvtblk ρ)) :
    lckclr front.length (front ++ back) = .ok (front.map (fun p => { p with trans := false }) ++ back) := by
  induction front with
  | nil => rfl
  | cons p front ih =>
    rw [List.length_cons, List.cons_append, lckclr, ih]
    rfl

/-- Taking the marks changes no level. -/
theorem Fronted.lckclr (h : Fronted L refs front back) : Fronted L refs (front.map fun p => { p with trans := false }) back :=
  h.of_alike (List.forall₂_map_right_iff.2 (List.forall₂_same.2 fun _ _ => ⟨rfl, rfl, rfl, rfl, fun h => h⟩))

/-! ## Commands -/

/-- How a chain and its levels come out of an operation: in order, with each level as told. -/
def Leveled (chain : List (MlkPvtblk ρ)) (N : ρ → Nat) : Prop :=
  ChainOk chain ∧ ∀ r, (chainLevel chain r).toNat = N r

/-- Blocks at the head of a chain that are changed or taken out. -/
theorem leveled_replace {front' : List (MlkPvtblk ρ)} {N : ρ → Nat} (h : ChainOk (front ++ back))
    (hsub : (front'.map MlkPvtblk.value).Sublist (front.map MlkPvtblk.value)) (hz : ∀ q ∈ front', q.zalloc = false)
    (hi : ∀ q ∈ front', q.granted = false → q.level = 0) (hfront : ∀ p ∈ front, (chainLevel front' p.value).toNat = N p.value)
    (hback : ∀ r ∉ front.map MlkPvtblk.value, (chainLevel (front ++ back) r).toNat = N r) : Leveled (front' ++ back) N := by
  have hnd := h.nodup
  rw [List.map_append] at hnd
  refine ⟨⟨?_, ?_, ?_⟩, fun r => ?_⟩
  · rw [List.map_append]
    exact hnd.sublist (hsub.append (List.Sublist.refl _))
  · exact fun q hq => (List.mem_append.1 hq).elim (hz q) fun hq => h.zalloc q (List.mem_append_right _ hq)
  · exact fun q hq => (List.mem_append.1 hq).elim (hi q) fun hq => h.idle q (List.mem_append_right _ hq)
  · by_cases hr : r ∈ front.map MlkPvtblk.value
    · have hrb : r ∉ back.map MlkPvtblk.value := (List.nodup_append.1 hnd).2.2 r hr |> fun hne hb => hne r hb rfl
      obtain ⟨p, hp, rfl⟩ := List.mem_map.1 hr
      rw [chainLevel_append_left hrb]
      exact hfront p hp
    · rw [chainLevel_append_right (fun hr' => hr (hsub.subset hr')), ← hback r hr, chainLevel_append_right hr]

/-- The locks that were never got have no level. -/
theorem leveled_filter_granted (h : ChainOk chain) : Leveled (chain.filter (·.granted)) fun r => (chainLevel chain r).toNat := by
  have hnd : ((chain.filter (·.granted)).map MlkPvtblk.value).Nodup := h.nodup.sublist (List.filter_sublist.map _)
  have hok : ChainOk (chain ++ []) := (List.append_nil chain).symm ▸ h
  rw [← List.append_nil (chain.filter (·.granted))]
  refine leveled_replace hok (List.filter_sublist.map _) (fun p hp => h.zalloc p (List.mem_filter.1 hp).1)
    (fun p hp => h.idle p (List.mem_filter.1 hp).1) (fun p hp => ?_) (fun r _ => by rw [List.append_nil])
  · rw [chainLevel_of_mem h.nodup hp]
    by_cases hg : p.granted = true
    · rw [chainLevel_of_mem hnd (List.mem_filter.2 ⟨hp, hg⟩)]
    · rw [chainLevel_of_not_mem, h.idle p hp (by simpa using hg)]
      intro hr
      obtain ⟨q, hq, hqp⟩ := List.mem_map.1 hr
      obtain ⟨hq, hqg⟩ := List.mem_filter.1 hq
      exact hg (List.inj_on_of_nodup_map h.nodup hq hp hqp ▸ hqg)

omit [DecidableEq ρ] in
/-- The level of a lock that is raised within its field. -/
theorem toNat_level_raised (h : p.level.toNat + p.translev.toNat ≤ 511) : p.raised.level.toNat = p.level.toNat + p.translev.toNat := by
  rw [MlkPvtblk.raised, BitVec.toNat_add, BitVec.toNat_setWidth]
  omega

/-- The level of a block at the head of the chain. -/
theorem Fronted.level_of_mem (h : Fronted L refs front back) (hp : p ∈ front) : L p.value = p.level := by
  rw [← h.level, chainLevel_of_mem h.ok.nodup (List.mem_append_left _ hp)]

/-- A block at the head of the chain is of an nref of the argument list. -/
theorem Fronted.mem_refs (h : Fronted L refs front back) (hp : p ∈ front) : p.value ∈ refs :=
  mem_lockOrder.1 (h.order ▸ List.mem_map_of_mem hp)

/-- The first blocks of a chain are got, and the others are not. -/
theorem Fronted.raised
    (h : Fronted L refs (done ++ rest) back) (hfit : ∀ p ∈ done, p.level.toNat + refs.count p.value ≤ 511) :
    Leveled (done.map MlkPvtblk.raised ++ (rest ++ back)) fun r =>
      (L r).toNat + if r ∈ done.map MlkPvtblk.value then refs.count r else 0 := by
  have hok : ChainOk (done ++ (rest ++ back)) := List.append_assoc done rest back ▸ h.ok
  have hvalues : (done.map MlkPvtblk.raised).map MlkPvtblk.value = done.map MlkPvtblk.value := by
    rw [List.map_map]
    rfl
  have hnd : ((done.map MlkPvtblk.raised).map MlkPvtblk.value).Nodup := by
    have := hok.nodup
    rw [List.map_append] at this
    exact hvalues ▸ (List.nodup_append.1 this).1
  refine leveled_replace hok (hvalues ▸ List.Sublist.refl _) ?_ ?_ ?_ ?_
  · intro q hq
    obtain ⟨p, hp, rfl⟩ := List.mem_map.1 hq
    exact hok.zalloc p (List.mem_append_left _ hp)
  · intro q hq hg
    obtain ⟨p, hp, rfl⟩ := List.mem_map.1 hq
    nomatch hg
  · intro p hp
    have hcount : p.translev.toNat = refs.count p.value := h.counted p (List.mem_append_left _ hp)
    have hraised : chainLevel (done.map MlkPvtblk.raised) p.value = p.raised.level :=
      chainLevel_of_mem hnd (p := p.raised) (List.mem_map_of_mem hp)
    rw [hraised, toNat_level_raised (hcount ▸ hfit p hp), hcount, h.level_of_mem (List.mem_append_left _ hp),
      if_pos (List.mem_map_of_mem hp)]
  · intro r hr
    rw [if_neg hr, Nat.add_zero, ← h.level, List.append_assoc]

/-- The nrefs before the first one that is at the highest level. -/
theorem takeWhile_lockOrder {held : ρ → Nat}
    (h : (done ++ p :: rest).map MlkPvtblk.value = lockOrder refs) (hdone : ∀ q ∈ done, held q.value < 511) (hp : ¬ held p.value < 511) :
    (lockOrder refs).takeWhile (fun r => held r < 511) = done.map MlkPvtblk.value := by
  rw [← h, List.map_append, List.takeWhile_append_of_pos, List.map_cons, List.takeWhile_cons_of_neg (by simpa using hp), List.append_nil]
  intro r hr
  obtain ⟨q, hq, rfl⟩ := List.mem_map.1 hr
  simpa using hdone q hq

/-- The passes of an incremental lock command over the blocks at the head of the chain. The induction is on the passes: each one that
does not end the command leaves the levels as they were. -/
theorem lockPasses_spec (hfit : ∀ r ∈ refs, L r = 511 ∨ (L r).toNat + refs.count r ≤ 511) (passes₀ passes : List LockPass)
    (already : Bool) (front back : List (MlkPvtblk ρ)) (h : Fronted L refs front back) :
    lockPasses .incremental front.length already passes (front ++ back) = .error .waiting ∨
    ∃ res s', lockPasses .incremental front.length already passes (front ++ back) = .ok (res, s') ∧
      (Leveled s'.mlkPvtRoot fun r => (L r).toNat + (LockCommand.incr refs passes₀).made (fun r => (L r).toNat) res r) ∧
      (res = .success → ∀ r ∈ refs, (L r).toNat < 511) := by
  have hroom : ∀ p : MlkPvtblk ρ, L p.value = p.level → p.value ∈ refs → p.level < 511 → p.level.toNat + refs.count p.value ≤ 511 := by
    intro p hl hm hp
    rcases hfit _ hm with h5 | h5
    · rw [← hl, h5] at hp
      exact absurd hp (by decide)
    · rwa [hl] at h5
  induction passes generalizing already front with
  | nil => exact .inl rfl
  | cons pass passes ih =>
    obtain ⟨e, he, hpass⟩ := lockLoop_spec (fun i => pass.mlkLock i && !(already && i == 0)) front back 0
    rw [lockPasses, he]
    cases hpass with
    | all hall =>
      refine .inr ⟨.success, { mlkPvtRoot := front.map MlkPvtblk.raised ++ back }, rfl, ?_, fun _ r hr => ?_⟩
      have hf : Fronted L refs (front ++ []) back := (List.append_nil front).symm ▸ h
      · obtain ⟨hok, hlev⟩ := hf.raised fun p hp => hroom p (h.level_of_mem hp) (h.mem_refs hp) (hall p hp)
        refine ⟨hok, fun r => ?_⟩
        rw [List.nil_append] at hlev
        rw [hlev r]
        simp only [h.order, mem_lockOrder, LockCommand.made]
        by_cases hr : r ∈ refs
        · rw [if_pos hr]
        · rw [if_neg hr, List.count_eq_zero.2 hr]
      · obtain ⟨p, hp, rfl⟩ := List.mem_map.1 (h.order ▸ mem_lockOrder.2 hr)
        rw [h.level_of_mem hp]
        exact hall p hp
    | levelErr done rest p hf hdone hp =>
      refine .inr ⟨.levelErr, { mlkPvtRoot := done.map MlkPvtblk.raised ++ { p with granted := true } :: rest ++ back }, rfl, ?_, nofun⟩
      subst hf
      have hmem : p ∈ done ++ p :: rest := by simp
      have hg : Fronted L refs (done ++ { p with granted := true } :: rest) back := by
        refine h.of_alike (List.rel_append (List.forall₂_same.2 fun q _ => .refl q) (.cons ?_ ?_))
        · exact ⟨rfl, rfl, rfl, rfl, fun _ h => nomatch h⟩
        · exact List.forall₂_same.2 fun q _ => .refl q
      have hlow : ∀ q ∈ done, (L q.value).toNat < 511 := fun q hq => by
        rw [h.level_of_mem (List.mem_append_left _ hq)]
        exact hdone q hq
      have hhigh : ¬ (L p.value).toNat < 511 := by
        rw [h.level_of_mem hmem]
        exact hp
      obtain ⟨hok, hlev⟩ := hg.raised fun q hq =>
        hroom q (h.level_of_mem (List.mem_append_left _ hq)) (h.mem_refs (List.mem_append_left _ hq)) (hdone q hq)
      have htake : (lockOrder refs).takeWhile (fun r => (L r).toNat < 511) = done.map MlkPvtblk.value :=
        takeWhile_lockOrder h.order hlow hhigh
      rw [List.append_assoc]
      refine ⟨hok, fun r => ?_⟩
      rw [hlev r]
      simp only [LockCommand.made, htake]
    | blocked done rest hf =>
      subst hf
      obtain ⟨front', hb, hlen, hf'⟩ := h.bckout
      simp only [bind, Except.bind, hb]
      cases pass.wait with
      | obtained =>
        rw [← hlen]
        exact ih _ front' hf'
      | outofband => exact .inr ⟨.outofband, _, rfl, ⟨hf'.ok, fun r => congrArg BitVec.toNat (hf'.level r)⟩, nofun⟩
      | timedOut =>
        obtain ⟨hok, hlev⟩ := leveled_filter_granted hf'.ok
        exact .inr ⟨.timedOut, _, rfl, ⟨hok, fun r => (hlev r).trans (congrArg BitVec.toNat (hf'.level r))⟩, nofun⟩

/-- `LOCK +`. -/
theorem opLock2_spec (h : ChainOk s.mlkPvtRoot) (hlks : s.lksThisCmd = 0)
    (hc : s.Countable refs) (hfit : ∀ r ∈ refs, s.levelOf r = 511 ∨ (s.levelOf r).toNat + refs.count r ≤ 511) (passes : List LockPass) :
    opLock2 .incremental passes (opLknames refs s) = .error .waiting ∨
    ∃ res s', opLock2 .incremental passes (opLknames refs s) = .ok (res, s') ∧ (Leveled s'.mlkPvtRoot fun r =>
        (s.levelOf r).toNat + (LockCommand.incr refs passes).made (fun r => (s.levelOf r).toNat) res r) ∧
      (res = .success → ∀ r ∈ refs, (s.levelOf r).toNat < 511) := by
  obtain ⟨front, back, hsplit, hlen, hf, -, -⟩ := naming_opLknames h hlks hc
  have := lockPasses_spec hfit passes passes false _ back hf.lckclr
  rw [List.length_map] at this
  rw [opLock2, hsplit, hlen, lckclr_spec]
  exact this

/-- What `op_decrlock` leaves of a block. -/
def MlkPvtblk.lowered (p : MlkPvtblk ρ) : Option (MlkPvtblk ρ) :=
  if p.granted = true ∧ ¬(p.lower.zalloc = false ∧ p.lower.level = 0) then some p.lower else none

omit [DecidableEq ρ] in
/-- The loop of `op_decrlock` over the blocks at the head of the chain. -/
theorem decrLoop_spec (front back : List (MlkPvtblk ρ)) :
    decrLoop front.length (front ++ back) = .ok (front.filterMap MlkPvtblk.lowered ++ back) := by
  induction front with
  | nil => rfl
  | cons p front ih =>
    rw [List.length_cons, List.cons_append, decrLoop, ih, List.filterMap_cons]
    unfold MlkPvtblk.lowered
    by_cases hg : p.granted = true
    · by_cases hz : p.lower.zalloc = false ∧ p.lower.level = 0
      · simp [hg, hz]
      · simp only [hg, hz, Bool.not_true, Bool.false_eq_true, if_false, not_false_eq_true, and_self, if_true, Bool.not_eq_true']
        rfl
    · simp [hg]

omit [DecidableEq ρ] in
/-- The level of a lock that is lowered. -/
theorem toNat_level_lower (p : MlkPvtblk ρ) : p.lower.level.toNat = p.level.toNat - p.translev.toNat := by
  have h9 : (p.translev.setWidth 9).toNat = p.translev.toNat := by
    rw [BitVec.toNat_setWidth]
    exact Nat.mod_eq_of_lt (by have := p.translev.isLt; omega)
  unfold MlkPvtblk.lower
  by_cases h : p.translev.setWidth 9 > p.level
  · rw [if_pos h]
    rw [gt_iff_lt, BitVec.lt_def] at h
    simp
    omega
  · rw [if_neg h]
    rw [gt_iff_lt, BitVec.lt_def, Nat.not_lt] at h
    rw [BitVec.toNat_sub_of_le (BitVec.le_def.2 (by rwa [h9])), h9]

omit [DecidableEq ρ] in
/-- What is left of a block is the block with its level lowered. -/
theorem lowered_eq_some {q : MlkPvtblk ρ} : p.lowered = some q ↔
    (p.granted = true ∧ ¬(p.lower.zalloc = false ∧ p.lower.level = 0)) ∧ q = p.lower := by
  unfold MlkPvtblk.lowered
  split
  · rename_i h
    rw [Option.some.injEq]
    exact ⟨fun hq => ⟨h, hq.symm⟩, fun hq => hq.2.symm⟩
  · rename_i h
    exact ⟨nofun, fun hq => absurd hq.1 h⟩

omit [DecidableEq ρ] in
/-- The nrefs that are left after `op_decrlock` are some of those before, in their order. -/
theorem values_lowered (front : List (MlkPvtblk ρ)) :
    ((front.filterMap MlkPvtblk.lowered).map MlkPvtblk.value).Sublist (front.map MlkPvtblk.value) := by
  induction front with
  | nil => exact List.Sublist.refl _
  | cons p front ih =>
    rw [List.filterMap_cons]
    cases hp : p.lowered with
    | none => exact ih.cons _
    | some q =>
      have hq : q.value = p.value := by
        rw [(lowered_eq_some.1 hp).2]
        rfl
      rw [List.map_cons, hq]
      exact ih.cons_cons _

/-- `LOCK -`. -/
theorem opDecrlock_spec (h : ChainOk s.mlkPvtRoot) (hlks : s.lksThisCmd = 0) (hc : s.Countable refs) :
    ∃ s', opDecrlock (opLknames refs s) = .ok (.success, s') ∧
      Leveled s'.mlkPvtRoot fun r => (s.levelOf r).toNat - min (refs.count r) (s.levelOf r).toNat := by
  obtain ⟨front₀, back, hsplit, hlen, hf₀, -, -⟩ := naming_opLknames h hlks hc
  have hf := hf₀.lckclr
  generalize hfront : front₀.map (fun p => { p with trans := false }) = front at hf
  have hlen' : front₀.length = front.length := by rw [← hfront, List.length_map]
  have hdecr : opDecrlock (opLknames refs s) = .ok (.success, { mlkPvtRoot := front.filterMap MlkPvtblk.lowered ++ back }) := by
    rw [opDecrlock, hsplit, hlen, lckclr_spec, hfront, hlen']
    simp only [bind, Except.bind, decrLoop_spec]
    rfl
  have hnd : (front.map MlkPvtblk.value).Nodup := by
    rw [hf.order]
    exact nodup_lockOrder refs
  refine ⟨_, hdecr, leveled_replace hf.ok (values_lowered front) ?_ ?_ ?_ ?_⟩
  · intro q hq
    obtain ⟨p, hp, hpq⟩ := List.mem_filterMap.1 hq
    rw [(lowered_eq_some.1 hpq).2]
    exact hf.ok.zalloc p (List.mem_append_left _ hp)
  · intro q hq hg
    obtain ⟨p, hp, hpq⟩ := List.mem_filterMap.1 hq
    obtain ⟨⟨hgp, -⟩, rfl⟩ := lowered_eq_some.1 hpq
    exact absurd (hgp.symm.trans hg) (by decide)
  · intro p hp
    have hlevel : (s.levelOf p.value).toNat = p.level.toNat := by rw [hf.level_of_mem hp]
    have hcount : p.translev.toNat = refs.count p.value := hf.counted p hp
    have hgoal : (s.levelOf p.value).toNat - min (refs.count p.value) (s.levelOf p.value).toNat = p.lower.level.toNat := by
      rw [toNat_level_lower, hcount]
      omega
    rw [hgoal]
    by_cases hk : p.granted = true ∧ ¬(p.lower.zalloc = false ∧ p.lower.level = 0)
    · have hmem : p.lower ∈ front.filterMap MlkPvtblk.lowered := List.mem_filterMap.2 ⟨p, hp, lowered_eq_some.2 ⟨hk, rfl⟩⟩
      exact congrArg BitVec.toNat (chainLevel_of_mem (hnd.sublist (values_lowered front)) hmem)
    · -- the block is taken out, and its level is 0
      have hzero : p.lower.level.toNat = 0 := by
        by_cases hg : p.granted = true
        · have hz : p.lower.zalloc = false ∧ p.lower.level = 0 := by
            by_contra hz
            exact hk ⟨hg, hz⟩
          rw [hz.2]
          rfl
        · rw [toNat_level_lower, hf.ok.idle p (List.mem_append_left _ hp) (by simpa using hg)]
          exact Nat.zero_sub _
      rw [hzero, chainLevel_of_not_mem]
      · rfl
      · intro hm
        obtain ⟨q, hq, hqp⟩ := List.mem_map.1 hm
        obtain ⟨p', hp', hpq⟩ := List.mem_filterMap.1 hq
        obtain ⟨hk', rfl⟩ := lowered_eq_some.1 hpq
        exact hk (List.inj_on_of_nodup_map hnd hp' hp hqp ▸ hk')
  · intro r hr
    have hno : r ∉ refs := fun hm => hr (hf.order ▸ mem_lockOrder.2 hm)
    rw [hf.level, List.count_eq_zero.2 hno, Nat.zero_min, Nat.sub_zero]

/-- What a command leaves: the levels with its increments and decrements. One that would go above the highest level does not
succeed. -/
def LockCommand.Outcome (s : MlkPvt ρ) (c : LockCommand ρ) (res : LockResult) (s' : MlkPvt ρ) : Prop :=
  (Leveled s'.mlkPvtRoot fun r => (s.levelOf r).toNat + c.made (fun r => (s.levelOf r).toNat) res r -
    c.taken (fun r => (s.levelOf r).toNat) res r) ∧
  (s.lksThisCmd = 0 → ∀ refs passes, c = .incr refs passes → res = .success → ∀ r ∈ refs, (s.levelOf r).toNat < 511)

/-- A command that fits, unless it is still waiting. -/
theorem LockCommand.exec_spec (h : ChainOk s.mlkPvtRoot) {c : LockCommand ρ} (hc : c.Fits s) :
    c.exec s = .error .waiting ∨ ∃ res s', c.exec s = .ok (res, s') ∧ c.Outcome s res s' := by
  unfold LockCommand.exec
  by_cases hlks : s.lksThisCmd = 0
  · rw [if_neg (by simpa using hlks)]
    cases c with
    | incr refs passes =>
      obtain ⟨hcount, hfit⟩ := hc hlks
      rcases opLock2_spec h hlks hcount hfit passes with hw | ⟨res, s', he, hlev, hlow⟩
      · exact .inl hw
      · refine .inr ⟨res, s', he, hlev, fun _ refs' passes' hcc hres => ?_⟩
        cases hcc
        exact hlow hres
    | decr refs =>
      obtain ⟨s', he, hlev⟩ := opDecrlock_spec h hlks (hc hlks)
      exact .inr ⟨.success, s', he, hlev, nofun⟩
    | abandoned refs =>
      obtain ⟨hok, hlev⟩ := opLknames_spec h refs
      exact .inr ⟨.abandoned, _, rfl, ⟨hok, fun r => congrArg BitVec.toNat (hlev r)⟩, nofun⟩
  · rw [if_pos (by simpa using hlks)]
    refine .inr ⟨.badLockNest, _, rfl, ⟨h, fun r => ?_⟩, fun h0 => absurd h0 hlks⟩
    cases c <;> rfl

end LockLevel

end Gtm

/-!
## Incremental locks are counted

The level of an nref counts its increments less its decrements, as long as no count is too large for its field. Two fields can be too
small. `op_lock2` lets a lock be incremented when its level is below 511 and then adds the number of times it was named, so a level
of 9 bits goes round when the lock was named more than once. And `mlk_pvtblk_insert` counts the names of one command in 8 bits, and
takes a block for one that it has counted already when an argument list that an error ended has left it marked.
-/

namespace Gtm

section LockLevels

variable {ρ : Type} [DecidableEq ρ]

/-- The state of a process and its ledger agree. -/
def Ledgered (s : MlkPvt ρ) (led : LockLedger ρ) : Prop :=
  ChainOk s.mlkPvtRoot ∧ ∀ r, led.decs r ≤ led.incs r ∧ (s.levelOf r).toNat = led.held r

/-- A command keeps the state and the ledger in agreement. -/
theorem Ledgered.step {s s' : MlkPvt ρ} {led : LockLedger ρ} (h : Ledgered s led) {c : LockCommand ρ} {res : LockResult}
    (ho : c.Outcome s res s') : Ledgered s' (led.enter c res) := by
  obtain ⟨hok, hlev⟩ := ho.1
  refine ⟨hok, fun r => ?_⟩
  have hheld : (fun r => (s.levelOf r).toNat) = led.held := funext fun r => (h.2 r).2
  have htaken : c.taken led.held res r ≤ led.held r := by
    unfold LockCommand.taken
    split
    · exact Nat.min_le_right _ _
    · exact Nat.zero_le _
  have hle := (h.2 r).1
  have hlevel : (s'.levelOf r).toNat = led.held r + c.made led.held res r - c.taken led.held res r := by
    rw [MlkPvt.levelOf, hlev r]
    simp only [hheld, (h.2 r).2]
  rw [hlevel]
  simp only [LockLedger.enter, LockLedger.held] at htaken ⊢
  omega

/-- A run whose commands fit keeps the state and the ledger in agreement. -/
theorem ledgered_of_run {s : MlkPvt ρ} {led : LockLedger ρ} (h : LockRun LockCommand.Fits s led) : Ledgered s led := by
  induction h with
  | start => exact ⟨⟨List.nodup_nil, by simp, by simp⟩, fun _ => ⟨Nat.le_refl _, rfl⟩⟩
  | step _ hc he ih =>
    rcases LockCommand.exec_spec ih.1 hc with hw | ⟨res, s', he', ho⟩
    · rw [hw] at he
      nomatch he
    · rw [he'] at he
      cases he
      exact ih.step ho

/-- In every run of `LOCK +` and `LOCK -` commands that the fields of the blocks have room for, the level of each nref is the number of
its increments less that of its decrements; no command goes past the end of the chain; and one that would increment an nref whose
level is the highest does not succeed, and leaves that level as it is. -/
theorem lockLevel_counts {s : MlkPvt ρ} {led : LockLedger ρ} (h : LockRun LockCommand.Fits s led) :
    (∀ r, led.decs r ≤ led.incs r ∧ (s.levelOf r).toNat = led.incs r - led.decs r) ∧
    (∀ c : LockCommand ρ, c.Fits s → c.exec s ≠ .error .nullPointer) ∧
    ∀ refs passes res s', (LockCommand.incr refs passes).Fits s →
      (LockCommand.incr refs passes).exec s = .ok (res, s') → ∀ r ∈ refs, s.levelOf r = 511 →
        res ≠ .success ∧ s'.levelOf r = 511 := by
  have hl := ledgered_of_run h
  refine ⟨hl.2, fun c hc hn => ?_, fun refs passes res s' hc he r hr hmax => ?_⟩
  · rcases LockCommand.exec_spec hl.1 hc with hw | ⟨res, s', he', -⟩
    · rw [hw] at hn
      nomatch hn
    · rw [he'] at hn
      nomatch hn
  · have hmax' : (s.levelOf r).toNat = 511 := by rw [hmax]; rfl
    obtain ⟨⟨-, hlev⟩, hlow⟩ : (LockCommand.incr refs passes).Outcome s res s' := by
      rcases LockCommand.exec_spec hl.1 hc with hw | ⟨res', s'', he', ho⟩
      · rw [hw] at he
        nomatch he
      · rw [he'] at he
        cases he
        exact ho
    have hns : res ≠ .success := by
      intro hs
      by_cases hlks : s.lksThisCmd = 0
      · have := hlow hlks refs passes rfl hs r hr
        omega
      · rw [LockCommand.exec, if_pos (by simpa using hlks)] at he
        cases he
        nomatch hs
    refine ⟨hns, BitVec.eq_of_toNat_eq ?_⟩
    have hmade : (LockCommand.incr refs passes).made (fun r => (s.levelOf r).toNat) res r = 0 := by
      unfold LockCommand.made
      split
      · exact absurd rfl hns
      · rw [if_neg]
        intro hm
        have := List.mem_takeWhile_imp hm
        simp only [decide_eq_true_eq] at this
        omega
      · rfl
    rw [MlkPvt.levelOf, hlev r]
    simp only [hmade, hmax', LockCommand.taken]
    rfl

end LockLevels

/-- A process that is not blocked. -/
def unblocked : List LockPass := [⟨fun _ => false, .obtained⟩]

/-- A `LOCK +` that names 0 twice, and a `LOCK -` of it. -/
theorem lockLevel_counts_two :
    ∃ s led, LockRun LockCommand.Fits s led ∧ led.incs (0 : Nat) = 2 ∧ led.decs 0 = 1 ∧
      (s.levelOf 0).toNat = led.incs 0 - led.decs 0 := by
  have hincr : (LockCommand.incr [0, 1, 0] unblocked).exec ({} : MlkPvt Nat) = .ok (.success,
      ⟨[{ value := 0, level := 2, granted := true, translev := 2 },
        { value := 1, level := 1, granted := true, translev := 1 }], 0⟩) := rfl
  have hdecr : (LockCommand.decr [0]).exec (⟨[{ value := 0, level := 2, granted := true, translev := 2 },
        { value := 1, level := 1, granted := true, translev := 1 }], 0⟩ : MlkPvt Nat) = .ok (.success,
      ⟨[{ value := 0, level := 1, granted := true, translev := 1, old := true },
        { value := 1, level := 1, granted := true, translev := 1 }], 0⟩) := rfl
  have hfit : (LockCommand.incr [0, 1, 0] unblocked).Fits ({} : MlkPvt Nat) := fun _ => by decide
  have hrun := (LockRun.start.step hfit hincr).step (c := .decr [0]) (fun _ => by decide) hdecr
  exact ⟨_, _, hrun, rfl, rfl, ((lockLevel_counts hrun).1 0).2⟩

/-- An nref that is held 510 times and then named three times in one `LOCK +` has level 1, and has been incremented 513 times. -/
theorem lockLevel_counts_wraps :
    ∃ s led, LockRun (fun _ _ => True) s led ∧ s.levelOf () = 1 ∧ led.incs () = 513 ∧ led.decs () = 0 := by
  have h255 : (LockCommand.incr (List.replicate 255 ()) unblocked).exec {} =
      .ok (.success, ⟨[{ value := (), level := 255, granted := true, translev := 255 }], 0⟩) := by decide +kernel
  have h510 : (LockCommand.incr (List.replicate 255 ()) unblocked).exec
        ⟨[{ value := (), level := 255, granted := true, translev := 255 }], 0⟩ =
      .ok (.success, ⟨[{ value := (), level := 510, granted := true, translev := 255, old := true }], 0⟩) := by
    decide +kernel
  have h513 : (LockCommand.incr (List.replicate 3 ()) unblocked).exec
        ⟨[{ value := (), level := 510, granted := true, translev := 255, old := true }], 0⟩ =
      .ok (.success, ⟨[{ value := (), level := 1, granted := true, translev := 3, old := true }], 0⟩) := by
    decide +kernel
  exact ⟨_, _, ((LockRun.start.step trivial h255).step trivial h510).step trivial h513, rfl, by decide +kernel, rfl⟩

end Gtm
