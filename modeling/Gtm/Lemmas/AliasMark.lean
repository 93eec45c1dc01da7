import Gtm.Lv.AliasGc

/-!
# Killing trees of variables

What `lv_killarray` and `DECR_BASE_REF_NOSYM` do to the counts. A tree that was cut off is no longer below a variable, but its
containers still count until they are killed: they are the pending references of `Counted`. One more reference to the variable whose
array is being killed is an extra reference. A variable goes to the free list when nothing refers to it any more, and the one whose
count is zero while its own tree is killed is not touched, since no pending container points to it.
-/

namespace Gtm
namespace AliasAux

open LvStore

variable {α : Type} {held cheld : Nat → Nat} {s s' s'' : LvStore α} {p e : List Nat} {K : Nat → Prop}

/-! ## Containers -/

theorem lv_modify (s : LvStore α) (a b : Nat) (f : LvVal α → LvVal α) :
    (s.modify a f).lv b = if b = a then f (s.lv a) else s.lv b := by
  by_cases h : b = a
  · subst h
    simp [LvStore.modify]
  · simp [LvStore.modify, h]

variable {b a fuel : Nat} {f : LvVal α → LvVal α}

theorem treeConts_congr (h1 : (s'.lv b).symval = (s.lv b).symval) (h2 : (s'.lv b).child = (s.lv b).child) :
    s'.treeConts b = s.treeConts b := by
  rw [treeConts, treeConts, h1, h2]

theorem cntnrs_congr (h0 : s'.slots = s.slots) (h : ∀ b, s'.treeConts b = s.treeConts b) (x : Nat) : s'.cntnrs x = s.cntnrs x := by
  rw [cntnrs, h0]
  exact Finset.sum_congr rfl fun b _ => by rw [h b]

/-- A change of the tree of one slot. -/
theorem cntnrs_change (h0 : s'.slots = s.slots) (ha : a < s.slots) (h : ∀ b, b ≠ a → s'.treeConts b = s.treeConts b)
    (x : Nat) : s'.cntnrs x + (s.treeConts a).count x = s.cntnrs x + (s'.treeConts a).count x := by
  have ha' : a ∈ Finset.range s.slots := Finset.mem_range.mpr ha
  have hrest : ∑ b ∈ (Finset.range s.slots).erase a, (s'.treeConts b).count x =
      ∑ b ∈ (Finset.range s.slots).erase a, (s.treeConts b).count x :=
    Finset.sum_congr rfl fun b hb => by rw [h b (Finset.ne_of_mem_erase hb)]
  rw [cntnrs, cntnrs, h0, ← Finset.add_sum_erase _ _ ha', ← Finset.add_sum_erase _ (fun b => (s.treeConts b).count x) ha']
  omega

theorem count_le_cntnrs (hb : b < s.slots) (x : Nat) : (s.treeConts b).count x ≤ s.cntnrs x :=
  Finset.single_le_sum (f := fun b => (s.treeConts b).count x) (fun _ _ => Nat.zero_le _) (Finset.mem_range.mpr hb)

theorem exists_of_cntnrs_pos {x : Nat} (h : 0 < s.cntnrs x) : ∃ b, x ∈ s.treeConts b := by
  by_contra hn
  push Not at hn
  have h0 : s.cntnrs x = 0 := Finset.sum_eq_zero fun b _ => List.count_eq_zero.mpr (hn b)
  omega

theorem symval_of_mem_treeConts {x : Nat} (h : x ∈ s.treeConts b) : (s.lv b).symval = true := by
  by_contra hn
  rw [treeConts, if_neg hn] at h
  exact absurd h List.not_mem_nil

/-! ## The counts while trees are killed -/

/-- The counts are right when `p` are containers in trees that were cut off and `e` are extra references. -/
structure Counted (held cheld : Nat → Nat) (s : LvStore α) (p e : List Nat) : Prop where
  slots : ∀ a, (s.lv a).symval = true → a < s.slots
  cref : ∀ a, (s.lv a).symval = true → (s.lv a).crefcnt = ((s.cntnrs a + p.count a + cheld a : Nat) : Int)
  tref : ∀ a, (s.lv a).symval = true → (s.lv a).trefcnt = ((s.cntnrs a + p.count a + held a + e.count a : Nat) : Int)
  target : ∀ a, 0 < s.cntnrs a + p.count a → (s.lv a).symval = true

/-- What may happen to the variables while trees are killed. Only a variable not in `K` may lose its tree and stay. -/
structure Shrunk (held : Nat → Nat) (K : Nat → Prop) (s s' : LvStore α) : Prop where
  slots : s'.slots = s.slots
  cycle : s'.lvtaskcycle = s.lvtaskcycle
  v : ∀ b, (s'.lv b).v = (s.lv b).v
  aliascont : ∀ b, (s'.lv b).hasAliascont = (s.lv b).hasAliascont
  mark : ∀ b, (s'.lv b).lvtaskcycle = (s.lv b).lvtaskcycle
  live : ∀ b, (s'.lv b).symval = true → (s.lv b).symval = true
  child : ∀ b, (s'.lv b).symval = true → (s'.lv b).child = (s.lv b).child ∨ (¬ K b ∧ (s'.lv b).child = .nil)
  freed : ∃ fs, s'.lvFlist = fs ++ s.lvFlist ∧ fs.Nodup ∧ ∀ b, b ∈ fs ↔ (s.lv b).symval = true ∧ (s'.lv b).symval = false
  unheld : ∀ b, (s.lv b).symval = true → (s'.lv b).symval = false → held b = 0 ∧ s'.cntnrs b = 0

theorem Shrunk.treeConts_le (h : Shrunk held K s s') (b x : Nat) : (s'.treeConts b).count x ≤ (s.treeConts b).count x := by
  by_cases hb : (s'.lv b).symval = true
  · rw [treeConts, treeConts, if_pos hb, if_pos (h.live b hb)]
    rcases h.child b hb with hc | ⟨_, hc⟩
    · rw [hc]
    · rw [hc]
      exact Nat.zero_le _
  · rw [treeConts, if_neg hb]
    exact Nat.zero_le _

theorem Shrunk.cntnrs_le (h : Shrunk held K s s') (x : Nat) : s'.cntnrs x ≤ s.cntnrs x := by
  rw [cntnrs, h.slots]
  exact Finset.sum_le_sum fun b _ => h.treeConts_le b x

theorem Shrunk.refl (held : Nat → Nat) (K : Nat → Prop) (s : LvStore α) : Shrunk held K s s where
  slots := rfl
  cycle := rfl
  v := fun _ => rfl
  aliascont := fun _ => rfl
  mark := fun _ => rfl
  live := fun _ hb => hb
  child := fun _ _ => .inl rfl
  freed := ⟨[], rfl, List.nodup_nil, fun b => by cases (s.lv b).symval <;> simp⟩
  unheld := fun b h1 h2 => by rw [h1] at h2; cases h2

theorem Shrunk.mono {K' : Nat → Prop} (h : Shrunk held K s s') (hK : ∀ b, (s'.lv b).symval = true → K' b → K b) : Shrunk held K' s s' :=
  { h with child := fun b hb => (h.child b hb).imp_right fun hc => ⟨fun hk => hc.1 (hK b hb hk), hc.2⟩ }

theorem Shrunk.trans (h : Shrunk held K s s') (h' : Shrunk held K s' s'') : Shrunk held K s s'' where
  slots := h'.slots.trans h.slots
  cycle := h'.cycle.trans h.cycle
  v := fun b => (h'.v b).trans (h.v b)
  aliascont := fun b => (h'.aliascont b).trans (h.aliascont b)
  mark := fun b => (h'.mark b).trans (h.mark b)
  live := fun b hb => h.live b (h'.live b hb)
  child := by
    intro b hb
    rcases h'.child b hb with hc | hc
    · rcases h.child b (h'.live b hb) with hc' | hc'
      · exact .inl (hc.trans hc')
      · exact .inr ⟨hc'.1, hc.trans hc'.2⟩
    · exact .inr hc
  freed := by
    obtain ⟨fs, h1, h2, h3⟩ := h.freed
    obtain ⟨fs', h1', h2', h3'⟩ := h'.freed
    refine ⟨fs' ++ fs, by rw [h1', h1, List.append_assoc], ?_, ?_⟩
    · refine List.nodup_append.mpr ⟨h2', h2, ?_⟩
      intro b hb c hc hbc
      subst hbc
      have hlive := ((h3' b).mp hb).1
      rw [((h3 b).mp hc).2] at hlive
      cases hlive
    · intro b
      have hmono := h'.live b
      have hmono' := h.live b
      cases hs : (s.lv b).symval <;> cases hs' : (s'.lv b).symval <;> cases hs'' : (s''.lv b).symval <;> simp_all
  unheld := by
    intro b hb hb''
    cases hb' : (s'.lv b).symval with
    | true => exact h'.unheld b hb' hb''
    | false =>
      obtain ⟨h1, h2⟩ := h.unheld b hb hb'
      exact ⟨h1, Nat.le_zero.mp (h2 ▸ h'.cntnrs_le b)⟩

/-- What killing a tree does: every variable that stays keeps its tree and, if it was referred to, stays referred to. -/
structure Released (held : Nat → Nat) (s s' : LvStore α) : Prop extends Shrunk held (fun _ => True) s s' where
  tref_le : ∀ b, (s'.lv b).symval = true → (s'.lv b).trefcnt ≤ (s.lv b).trefcnt
  pos : ∀ b, (s'.lv b).symval = true → 0 < (s.lv b).trefcnt → 0 < (s'.lv b).trefcnt
  zero : ∀ b, (s.lv b).symval = true → (s.lv b).trefcnt = 0 → s'.lv b = s.lv b

theorem Released.refl (held : Nat → Nat) (s : LvStore α) : Released held s s where
  toShrunk := Shrunk.refl held _ s
  tref_le := fun _ _ => Int.le_refl _
  pos := fun _ _ h => h
  zero := fun _ _ _ => rfl

theorem Released.trans (h : Released held s s') (h' : Released held s' s'') : Released held s s'' where
  toShrunk := h.toShrunk.trans h'.toShrunk
  tref_le := fun b hb => Int.le_trans (h'.tref_le b hb) (h.tref_le b (h'.live b hb))
  pos := fun b hb h0 => h'.pos b hb (h.pos b (h'.live b hb) h0)
  zero := by
    intro b hb h0
    have h1 := h.zero b hb h0
    rw [h'.zero b (by rw [h1]; exact hb) (by rw [h1]; exact h0), h1]

/-! ## How deep the deletions nest -/

/-- The number of variables that are referred to. -/
def posCount (s : LvStore α) : Nat :=
  ((Finset.range s.slots).filter (fun b => (s.lv b).symval = true ∧ 0 < (s.lv b).trefcnt)).card

theorem Released.posCount_le (h : Released held s s') : posCount s' ≤ posCount s := by
  refine Finset.card_le_card fun b hb => ?_
  rw [Finset.mem_filter] at hb ⊢
  obtain ⟨h1, h2, h3⟩ := hb
  exact ⟨h.slots ▸ h1, h.live b h2, Int.lt_of_lt_of_le h3 (h.tref_le b h2)⟩

theorem posCount_le_slots (s : LvStore α) : posCount s ≤ s.slots := (Finset.card_filter_le _ _).trans_eq (Finset.card_range _)

/-- A variable that is no longer referred to makes the number smaller. -/
theorem posCount_lt (h0 : s'.slots = s.slots) (ha : a < s.slots) (hl : (s.lv a).symval = true)
    (hp : 0 < (s.lv a).trefcnt) (hz : (s'.lv a).trefcnt = 0)
    (h : ∀ b, b ≠ a → (s'.lv b).symval = (s.lv b).symval ∧ (s'.lv b).trefcnt = (s.lv b).trefcnt) : posCount s' < posCount s := by
  refine Finset.card_lt_card ⟨fun b hb => ?_, fun hsub => ?_⟩
  · rw [Finset.mem_filter] at hb ⊢
    have hba : b ≠ a := by
      rintro rfl
      omega
    rw [← (h b hba).1, ← (h b hba).2, ← h0]
    exact hb
  · have hmem := hsub (Finset.mem_filter.mpr ⟨Finset.mem_range.mpr ha, hl, hp⟩)
    have := (Finset.mem_filter.mp hmem).2.2
    omega

/-! ## One step -/

/-- A change of one slot that keeps it in use. -/
theorem shrunk_modify (hs : (f (s.lv a)).symval = (s.lv a).symval)
    (hv : (f (s.lv a)).v = (s.lv a).v) (hh : (f (s.lv a)).hasAliascont = (s.lv a).hasAliascont)
    (hm : (f (s.lv a)).lvtaskcycle = (s.lv a).lvtaskcycle)
    (hc : (f (s.lv a)).child = (s.lv a).child ∨ (¬ K a ∧ (f (s.lv a)).child = .nil)) : Shrunk held K s (s.modify a f) := by
  have hsym : ∀ b, ((s.modify a f).lv b).symval = (s.lv b).symval := by
    intro b
    rw [lv_modify]
    split
    · next hb => rw [hb, hs]
    · rfl
  refine ⟨rfl, rfl, ?_, ?_, ?_, ?_, ?_, ⟨[], rfl, List.nodup_nil, ?_⟩, ?_⟩
  · intro b
    rw [lv_modify]
    split
    · next hb => rw [hb, hv]
    · rfl
  · intro b
    rw [lv_modify]
    split
    · next hb => rw [hb, hh]
    · rfl
  · intro b
    rw [lv_modify]
    split
    · next hb => rw [hb, hm]
    · rfl
  · intro b hb
    rw [← hsym b]
    exact hb
  · intro b _
    rw [lv_modify]
    split
    · next hb =>
      rw [hb]
      exact hc
    · exact .inl rfl
  · intro b
    rw [hsym]
    cases (s.lv b).symval <;> simp
  · intro b h1 h2
    rw [hsym, h1] at h2
    cases h2

/-- A change of the counts of one slot. -/
theorem cntnrs_modify (hs : (f (s.lv a)).symval = (s.lv a).symval)
    (hc : (f (s.lv a)).child = (s.lv a).child) (x : Nat) : (s.modify a f).cntnrs x = s.cntnrs x := by
  have h0 : (s.modify a f).slots = s.slots := rfl
  refine cntnrs_congr h0 (fun b => ?_) x
  by_cases hb : b = a
  · subst hb
    exact treeConts_congr (by rw [lv_modify, if_pos rfl, hs]) (by rw [lv_modify, if_pos rfl, hc])
  · exact treeConts_congr (by rw [lv_modify, if_neg hb]) (by rw [lv_modify, if_neg hb])

/-- The counts of one slot changed to what they are with other pending and extra references. -/
theorem Counted.modify {p' e' : List Nat} (h : Counted held cheld s p e)
    (hs : (f (s.lv a)).symval = (s.lv a).symval) (hc : (f (s.lv a)).child = (s.lv a).child)
    (hp : ∀ b, p'.count b ≤ p.count b) (hne : ∀ b, b ≠ a → p'.count b = p.count b ∧ e'.count b = e.count b)
    (hcref : (f (s.lv a)).crefcnt = ((s.cntnrs a + p'.count a + cheld a : Nat) : Int))
    (htref : (f (s.lv a)).trefcnt = ((s.cntnrs a + p'.count a + held a + e'.count a : Nat) : Int)) :
    Counted held cheld (s.modify a f) p' e' := by
  have hcn := cntnrs_modify (s := s) hs hc
  have hsym : ∀ b, ((s.modify a f).lv b).symval = (s.lv b).symval := by
    intro b
    rw [lv_modify]
    split
    · next hb => rw [hb, hs]
    · rfl
  refine ⟨?_, ?_, ?_, ?_⟩
  · intro b hb
    rw [hsym] at hb
    exact h.slots b hb
  · intro b hb
    rw [hsym] at hb
    rw [hcn, lv_modify]
    split
    · next hba =>
      rw [hba]
      exact hcref
    · next hba =>
      rw [(hne b hba).1]
      exact h.cref b hb
  · intro b hb
    rw [hsym] at hb
    rw [hcn, lv_modify]
    split
    · next hba =>
      rw [hba]
      exact htref
    · next hba =>
      rw [(hne b hba).1, (hne b hba).2]
      exact h.tref b hb
  · intro b hb
    rw [hcn] at hb
    rw [hsym]
    have := hp b
    exact h.target b (by omega)

/-- A change of the counts of one slot, the total count of which was positive and stays so. -/
theorem released_modify (hs : (f (s.lv a)).symval = (s.lv a).symval)
    (hv : (f (s.lv a)).v = (s.lv a).v) (hh : (f (s.lv a)).hasAliascont = (s.lv a).hasAliascont)
    (hm : (f (s.lv a)).lvtaskcycle = (s.lv a).lvtaskcycle) (hc : (f (s.lv a)).child = (s.lv a).child)
    (hp : 0 < (f (s.lv a)).trefcnt) (hle : (f (s.lv a)).trefcnt ≤ (s.lv a).trefcnt) : Released held s (s.modify a f) := by
  refine ⟨shrunk_modify hs hv hh hm (.inl hc), ?_, ?_, ?_⟩
  · intro b _
    rw [lv_modify]
    split
    · next hba =>
      rw [hba]
      exact hle
    · exact Int.le_refl _
  · intro b _ h0
    rw [lv_modify]
    split
    · exact hp
    · exact h0
  · intro b _ hz
    rw [lv_modify, if_neg]
    rintro rfl
    omega

/-- `DECR_CREFCNT` of the target of a pending container. -/
theorem Counted.decrCrefcnt (hch : ∀ b, cheld b ≤ held b) (h : Counted held cheld s (a :: p) e) :
    (0 < (s.lv a).crefcnt ∧ 0 < (s.lv a).trefcnt) ∧
      ∃ s1, s.decrCrefcnt a = some s1 ∧ (s1.lv a).symval = true ∧ Counted held cheld s1 p (a :: e) ∧ Released held s s1 := by
  have hl : (s.lv a).symval = true := h.target a (by simp)
  have hc := h.cref a hl
  have ht := h.tref a hl
  rw [List.count_cons_self] at hc ht
  have hle := hch a
  refine ⟨⟨by omega, by omega⟩, _, if_pos ⟨hl, by omega, by omega⟩, ?_, ?_, ?_⟩
  · rw [lv_modify, if_pos rfl]
    exact hl
  · refine h.modify rfl rfl (fun b => ?_) (fun b hb => ?_) (by dsimp only; omega) ?_
    · rw [List.count_cons]
      omega
    · rw [List.count_cons_of_ne (Ne.symm hb), List.count_cons_of_ne (Ne.symm hb)]
      exact ⟨rfl, rfl⟩
    · rw [List.count_cons_self]
      dsimp only
      omega
  · exact released_modify rfl rfl rfl rfl rfl (by dsimp only; omega) (Int.le_refl _)

/-- `DECR_TREFCNT` of a variable with an extra reference. -/
theorem Counted.decrTrefcnt (hch : ∀ b, cheld b ≤ held b) (h : Counted held cheld s p (a :: e))
    (hl : (s.lv a).symval = true) :
    s.decrTrefcnt a = some (s.modify a (fun l => { l with trefcnt := (s.lv a).trefcnt - 1 })) ∧
      Counted held cheld (s.modify a (fun l => { l with trefcnt := (s.lv a).trefcnt - 1 })) p e := by
  have hc := h.cref a hl
  have ht := h.tref a hl
  rw [List.count_cons_self] at ht
  have hle := hch a
  refine ⟨if_pos ⟨hl, by omega, by omega⟩, ?_⟩
  refine h.modify rfl rfl (fun b => Nat.le_refl _) (fun b hb => ⟨rfl, ?_⟩) hc (by dsimp only; omega)
  rw [List.count_cons_of_ne (Ne.symm hb)]

/-- A tree that is cut off: its containers become pending. -/
theorem Counted.detach (h : Counted held cheld s p e) (hl : (s.lv a).symval = true) :
    Counted held cheld (s.detach a) ((s.lv a).child.conts ++ p) e := by
  have hsym : ∀ b, ((s.detach a).lv b).symval = (s.lv b).symval := by
    intro b
    rw [LvStore.detach, lv_modify]
    split
    · next hb => rw [hb]
    · rfl
  have hcn : ∀ x, (s.detach a).cntnrs x + (s.lv a).child.conts.count x = s.cntnrs x := by
    intro x
    have h0 : (s.detach a).slots = s.slots := rfl
    have hch := cntnrs_change h0 (h.slots a hl) (fun b hb => treeConts_congr (hsym b) (by rw [LvStore.detach, lv_modify, if_neg hb])) x
    have hnew : (s.detach a).treeConts a = [] := by
      rw [treeConts, hsym, hl, if_pos rfl, LvStore.detach, lv_modify, if_pos rfl]
      rfl
    have hold : s.treeConts a = (s.lv a).child.conts := if_pos hl
    rw [hnew, hold] at hch
    exact hch
  refine ⟨?_, ?_, ?_, ?_⟩
  · intro b hb
    exact h.slots b (hsym b ▸ hb)
  · intro b hb
    have hcr : ((s.detach a).lv b).crefcnt = (s.lv b).crefcnt := by
      rw [LvStore.detach, lv_modify]
      split
      · next hb => rw [hb]
      · rfl
    rw [hcr, h.cref b (hsym b ▸ hb), ← hcn b, List.count_append]
    omega
  · intro b hb
    have htr : ((s.detach a).lv b).trefcnt = (s.lv b).trefcnt := by
      rw [LvStore.detach, lv_modify]
      split
      · next hb => rw [hb]
      · rfl
    rw [htr, h.tref b (hsym b ▸ hb), ← hcn b, List.count_append]
    omega
  · intro b hb
    rw [List.count_append] at hb
    rw [hsym]
    have := hcn b
    exact h.target b (by omega)

/-- `LV_FREESLOT` of a variable that nothing refers to and that has no tree. -/
theorem Counted.freeslot (h : Counted held cheld s p e) (hl : (s.lv a).symval = true)
    (hc : (s.lv a).child = .nil) (hz : (s.lv a).trefcnt = 0) :
    ∃ s', s.freeslot a = some s' ∧ (∀ b, b ≠ a → s'.lv b = s.lv b) ∧ (s'.lv a).symval = false ∧
      Counted held cheld s' p e ∧ Shrunk held K s s' := by
  refine ⟨_, if_pos ⟨hl, by rw [hc]; rfl⟩, ?_⟩
  generalize hs' : ({ s.modify a (fun l => { l with symval := false }) with lvFlist := a :: s.lvFlist } : LvStore α) = s'
  have hlv : ∀ b, s'.lv b = if b = a then { s.lv a with symval := false } else s.lv b := by
    intro b
    rw [← hs']
    exact lv_modify s a b (fun l => { l with symval := false })
  have hne : ∀ b, b ≠ a → s'.lv b = s.lv b := fun b hb => by rw [hlv, if_neg hb]
  have ha : (s'.lv a).symval = false := by rw [hlv, if_pos rfl]
  have hslots : s'.slots = s.slots := by rw [← hs']; rfl
  have hcn : ∀ x, s'.cntnrs x = s.cntnrs x := by
    refine cntnrs_congr hslots fun b => ?_
    by_cases hb : b = a
    · subst hb
      rw [treeConts, treeConts, ha, hl, hc]
      rfl
    · rw [treeConts, treeConts, hne b hb]
  have ht := h.tref a hl
  have hlive : ∀ b, (s'.lv b).symval = true → b ≠ a ∧ (s.lv b).symval = true := by
    intro b hb
    have hba : b ≠ a := by
      rintro rfl
      rw [ha] at hb
      cases hb
    exact ⟨hba, hne b hba ▸ hb⟩
  refine ⟨hne, ha, ⟨?_, ?_, ?_, ?_⟩, ⟨hslots, by rw [← hs']; rfl, ?_, ?_, ?_, ?_, ?_, ⟨[a], by rw [← hs']; rfl, List.nodup_singleton a, ?_⟩, ?_⟩⟩
  · intro b hb
    rw [hslots]
    exact h.slots b (hlive b hb).2
  · intro b hb
    rw [hne b (hlive b hb).1, hcn]
    exact h.cref b (hlive b hb).2
  · intro b hb
    rw [hne b (hlive b hb).1, hcn]
    exact h.tref b (hlive b hb).2
  · intro b hb
    rw [hcn] at hb
    have hba : b ≠ a := by
      rintro rfl
      omega
    rw [hne b hba]
    exact h.target b hb
  · intro b
    rw [hlv]
    split
    · next hb => rw [hb]
    · rfl
  · intro b
    rw [hlv]
    split
    · next hb => rw [hb]
    · rfl
  · intro b
    rw [hlv]
    split
    · next hb => rw [hb]
    · rfl
  · intro b hb
    exact (hlive b hb).2
  · intro b hb
    rw [hne b (hlive b hb).1]
    exact .inl rfl
  · intro b
    rw [List.mem_singleton]
    constructor
    · rintro rfl
      exact ⟨hl, ha⟩
    · rintro ⟨h1, h2⟩
      by_contra hb
      rw [hne b hb, h1] at h2
      cases h2
  · intro b h1 h2
    have hba : b = a := by
      by_contra hb
      rw [hne b hb, h1] at h2
      cases h2
    subst hba
    rw [hcn]
    omega

/-! ## Killing a tree -/

/-- What `DECR_BASE_REF_NOSYM` has to do when deletions may nest `fuel` deep. -/
def DecrSpec (held cheld : Nat → Nat) (fuel : Nat) (decr : Nat → LvStore α → Option (LvStore α)) : Prop :=
  ∀ s p e a, Counted held cheld s p (a :: e) → (s.lv a).symval = true → posCount s ≤ fuel →
    ∃ s', decr a s = some s' ∧ Counted held cheld s' p e ∧ Released held s s'

theorem decrAcRef_spec {decr : Nat → LvStore α → Option (LvStore α)} (hch : ∀ b, cheld b ≤ held b)
    (hd : DecrSpec held cheld fuel decr) (h : Counted held cheld s (a :: p) e) (hf : posCount s ≤ fuel) :
    ∃ s', decrAcRef decr a s = some s' ∧ Counted held cheld s' p e ∧ Released held s s' := by
  obtain ⟨hpos, s1, h1, hl1, hc1, hr1⟩ := h.decrCrefcnt hch
  obtain ⟨s2, h2, hc2, hr2⟩ := hd s1 p e a hc1 hl1 (hr1.posCount_le.trans hf)
  refine ⟨s2, ?_, hc2, hr1.trans hr2⟩
  rw [decrAcRef, if_pos hpos, h1]
  exact h2

/-- Killing a tree that was cut off releases its containers. -/
theorem lvKillarray_spec {decr : Nat → LvStore α → Option (LvStore α)} (hch : ∀ b, cheld b ≤ held b)
    (hd : DecrSpec held cheld fuel decr) (t : LvTree α) : ∀ s p, Counted held cheld s (t.conts ++ p) e → posCount s ≤ fuel →
      ∃ s', lvKillarray decr t s = some s' ∧ Counted held cheld s' p e ∧ Released held s s' := by
  induction t with
  | nil =>
    intro s p h _
    exact ⟨s, rfl, h, Released.refl held s⟩
  | node left v cont child right ihl ihc ihr =>
    intro s p h hf
    rw [LvTree.conts, List.append_assoc, List.append_assoc, List.append_assoc] at h
    obtain ⟨s1, h1, hc1, hr1⟩ := ihl s _ h hf
    have hf1 := hr1.posCount_le.trans hf
    obtain ⟨s2, h2, hc2, hr2⟩ := ihr s1 _ hc1 hf1
    have hf2 := hr2.posCount_le.trans hf1
    obtain ⟨s3, h3, hc3, hr3⟩ := ihc s2 _ hc2 hf2
    have hf3 := hr3.posCount_le.trans hf2
    have hr := (hr1.trans hr2).trans hr3
    simp only [lvKillarray, h1, h2, h3, Option.bind_eq_bind, Option.bind_some]
    cases cont with
    | none => exact ⟨s3, rfl, hc3, hr⟩
    | some a =>
      obtain ⟨s4, h4, hc4, hr4⟩ := decrAcRef_spec hch hd hc3 hf3
      exact ⟨s4, h4, hc4, hr.trans hr4⟩

/-- `DECR_BASE_REF_NOSYM` drops an extra reference. -/
theorem decrBaseRefNosym_spec (hch : ∀ b, cheld b ≤ held b) (fuel : Nat) : DecrSpec (α := α) held cheld fuel (decrBaseRefNosym fuel) := by
  induction fuel with
  | zero =>
    intro s p e a h hl hf
    -- a variable with an extra reference counts as referred to
    have ht := h.tref a hl
    rw [List.count_cons_self] at ht
    have hmem : a ∈ (Finset.range s.slots).filter (fun b => (s.lv b).symval = true ∧ 0 < (s.lv b).trefcnt) :=
      Finset.mem_filter.mpr ⟨Finset.mem_range.mpr (h.slots a hl), hl, by omega⟩
    have := Finset.card_pos.mpr ⟨a, hmem⟩
    rw [posCount] at hf
    omega
  | succ fuel ih =>
    intro s p e a h hl hf
    obtain ⟨hd, hc1⟩ := h.decrTrefcnt hch hl
    have ht := h.tref a hl
    rw [List.count_cons_self] at ht
    generalize hs1 : s.modify a (fun l => { l with trefcnt := (s.lv a).trefcnt - 1 }) = s1 at hd hc1
    have hlv1 : s1.lv a = { s.lv a with trefcnt := (s.lv a).trefcnt - 1 } := by rw [← hs1, lv_modify, if_pos rfl]
    have hl1 : (s1.lv a).symval = true := by rw [hlv1]; exact hl
    have hcref := hc1.cref a hl1
    have htref := hc1.tref a hl1
    have hle := hch a
    simp only [decrBaseRefNosym, hd, Option.bind_eq_bind, Option.bind_some]
    by_cases hz : (s1.lv a).trefcnt = 0
    · have hz1 : (s.lv a).trefcnt - 1 = 0 := by rw [hlv1] at hz; exact hz
      rw [if_pos hz, if_pos (by omega)]
      have hc2 := hc1.detach hl1
      have hlv2 : (s1.detach a).lv a = { s1.lv a with child := .nil } := by rw [LvStore.detach, lv_modify, if_pos rfl]
      have hne2 : ∀ b, b ≠ a → (s1.detach a).lv b = s.lv b := by
        intro b hb
        rw [LvStore.detach, lv_modify, if_neg hb, ← hs1, lv_modify, if_neg hb]
      have hf2 : posCount (s1.detach a) ≤ fuel := by
        have hlt : posCount (s1.detach a) < posCount s := by
          refine posCount_lt (by rw [← hs1]; rfl) (h.slots a hl) hl (by omega) (by rw [hlv2]; exact hz) fun b hb => ?_
          rw [hne2 b hb]
          exact ⟨rfl, rfl⟩
        omega
      obtain ⟨s3, h3, hc3, hr3⟩ := lvKillarray_spec hch ih (s1.lv a).child (s1.detach a) p hc2 hf2
      -- the variable itself is not touched by the killing of its tree
      have hlv3 : s3.lv a = { s1.lv a with child := .nil } := by
        rw [hr3.zero a (by rw [hlv2]; exact hl1) (by rw [hlv2]; exact hz), hlv2]
      obtain ⟨s4, h4, hne4, ha4, hc4, hsh4⟩ := hc3.freeslot (K := fun b => b ≠ a) (by rw [hlv3]; exact hl1) (by rw [hlv3])
        (by rw [hlv3]; exact hz)
      rw [h3, Option.bind_some, h4]
      refine ⟨s4, rfl, hc4, ?_, ?_, ?_, ?_⟩
      · have hsh1 : Shrunk held (fun b => b ≠ a) s s1 := by
          rw [← hs1]
          exact shrunk_modify rfl rfl rfl rfl (.inl rfl)
        have hsh2 : Shrunk held (fun b => b ≠ a) s1 (s1.detach a) := shrunk_modify rfl rfl rfl rfl (.inr ⟨fun hn => hn rfl, rfl⟩)
        refine (((hsh1.trans hsh2).trans (hr3.toShrunk.mono fun _ _ _ => trivial)).trans hsh4).mono fun b hb _ => ?_
        rintro rfl
        rw [ha4] at hb
        cases hb
      · intro b hb
        have hba : b ≠ a := by
          rintro rfl
          rw [ha4] at hb
          cases hb
        rw [hne4 b hba] at hb ⊢
        rw [← hne2 b hba]
        exact hr3.tref_le b hb
      · intro b hb h0
        have hba : b ≠ a := by
          rintro rfl
          rw [ha4] at hb
          cases hb
        rw [hne4 b hba] at hb ⊢
        rw [← hne2 b hba] at h0
        exact hr3.pos b hb h0
      · intro b hb h0
        have hba : b ≠ a := by
          rintro rfl
          omega
        rw [hne4 b hba, hr3.zero b (by rw [hne2 b hba]; exact hb) (by rw [hne2 b hba]; exact h0), hne2 b hba]
    · rw [if_neg hz, if_pos (by omega)]
      refine ⟨s1, rfl, hc1, ?_⟩
      have hp1 : (s.lv a).trefcnt - 1 ≠ 0 := by rw [hlv1] at hz; exact hz
      rw [← hs1]
      exact released_modify rfl rfl rfl rfl rfl (by dsimp only; omega) (by dsimp only; omega)

/-! ## The final scan -/

/-- An extra reference is as good as a counted one. -/
theorem counted_hold : Counted held cheld s p (a :: e) ↔ Counted (fun b => held b + [a].count b) cheld s p e := by
  have hcount : ∀ b, (a :: e).count b = [a].count b + e.count b := fun b => by rw [← List.count_append]; rfl
  constructor
  · intro h
    refine ⟨h.slots, h.cref, fun b hb => ?_, h.target⟩
    rw [h.tref b hb, hcount]
    omega
  · intro h
    refine ⟨h.slots, h.cref, fun b hb => ?_, h.target⟩
    rw [h.tref b hb, hcount]
    omega

/-- The orphan that is being killed loses its tree and an extra count keeps it until then. -/
theorem killOrphan_spec (hch : ∀ b, cheld b ≤ held b) (h : Counted held cheld s [] []) (hl : (s.lv a).symval = true)
    (hh : held a = 0) (hK : ¬ K a) (hf : s.slots ≤ fuel) :
    ∃ s', s.killOrphan fuel a = some s' ∧ Counted held cheld s' [] [] ∧ Shrunk held K s s' ∧
      ((s'.lv a).symval = true → (s'.lv a).child = .nil ∧ 0 < (s'.lv a).trefcnt) ∧
      ∀ b, (s'.lv b).symval = true → 0 < (s.lv b).trefcnt → 0 < (s'.lv b).trefcnt := by
  have hle := hch a
  have hc := h.cref a hl
  have ht := h.tref a hl
  simp only [List.count_nil] at hc ht
  rw [killOrphan, if_pos (by omega)]
  have hincr : s.incrTrefcnt a = some (s.modify a (fun l => { l with trefcnt := (s.lv a).trefcnt + 1 })) :=
    if_pos ⟨hl, by omega, by omega⟩
  have hc1 : Counted held cheld (s.modify a (fun l => { l with trefcnt := (s.lv a).trefcnt + 1 })) [] [a] := by
    refine h.modify rfl rfl (fun b => Nat.le_refl _) (fun b hb => ⟨rfl, ?_⟩) hc ?_
    · rw [List.count_cons_of_ne (Ne.symm hb)]
    · simp only [List.count_cons_self, List.count_nil]
      omega
  have hsh1 : Shrunk held K s (s.modify a (fun l => { l with trefcnt := (s.lv a).trefcnt + 1 })) :=
    shrunk_modify rfl rfl rfl rfl (.inl rfl)
  generalize hs1 : s.modify a (fun l => { l with trefcnt := (s.lv a).trefcnt + 1 }) = s1 at hincr hc1 hsh1
  have hlv1 : s1.lv a = { s.lv a with trefcnt := (s.lv a).trefcnt + 1 } := by rw [← hs1, lv_modify, if_pos rfl]
  have hl1 : (s1.lv a).symval = true := by rw [hlv1]; exact hl
  have hsh2 : Shrunk held K s1 (s1.detach a) := shrunk_modify rfl rfl rfl rfl (.inr ⟨hK, rfl⟩)
  have hlv2 : (s1.detach a).lv a = { s1.lv a with child := .nil } := by rw [LvStore.detach, lv_modify, if_pos rfl]
  have hne2 : ∀ b, b ≠ a → (s1.detach a).lv b = s.lv b := by
    intro b hb
    rw [LvStore.detach, lv_modify, if_neg hb, ← hs1, lv_modify, if_neg hb]
  have hslots2 : (s1.detach a).slots = s.slots := by rw [← hs1]; rfl
  have hf2 : posCount (s1.detach a) ≤ fuel := (posCount_le_slots _).trans (hslots2 ▸ hf)
  -- while the tree is killed the extra count is held like one of the references
  have hch' : ∀ b, cheld b ≤ held b + [a].count b := fun b => (hch b).trans (Nat.le_add_right _ _)
  obtain ⟨s3, h3, hc3, hr3⟩ := lvKillarray_spec hch' (decrBaseRefNosym_spec hch' fuel) (s1.lv a).child (s1.detach a) []
    (counted_hold.mp (hc1.detach hl1)) hf2
  have hl3 : (s3.lv a).symval = true := by
    by_contra hn
    have hu := (hr3.unheld a (by rw [hlv2]; exact hl1) (by simpa using hn)).1
    rw [List.count_cons_self] at hu
    omega
  have hsh3 : Shrunk held K (s1.detach a) s3 := { hr3.toShrunk.mono fun _ _ _ => trivial with
      unheld := fun b h1 h2 => ⟨by have := (hr3.unheld b h1 h2).1; omega, (hr3.unheld b h1 h2).2⟩ }
  obtain ⟨s4, h4, hc4, hr4⟩ := decrBaseRefNosym_spec hch fuel s3 [] [] a (counted_hold.mpr hc3) hl3 (hr3.posCount_le.trans hf2)
  refine ⟨s4, ?_, hc4, ((hsh1.trans hsh2).trans hsh3).trans (hr4.toShrunk.mono fun _ _ _ => trivial), ?_, ?_⟩
  · simp only [hincr, h3, h4, Option.bind_eq_bind, Option.bind_some]
  · intro hl4
    refine ⟨?_, hr4.pos a hl4 (hr3.pos a hl3 ?_)⟩
    · rcases hr4.child a hl4 with hc | hc
      · rcases hr3.child a hl3 with hc' | hc'
        · rw [hc, hc', hlv2]
        · exact hc.trans hc'.2
      · exact hc.2
    · rw [hlv2, hlv1]
      dsimp only
      omega
  · intro b hb h0
    have hb3 := hr4.live b hb
    refine hr4.pos b hb (hr3.pos b hb3 ?_)
    by_cases hba : b = a
    · subst hba
      rw [hlv2, hlv1]
      dsimp only
      omega
    · rw [hne2 b hba]
      exact h0

/-- Every orphan of the list is freed, or left without a tree and referred to. -/
theorem sweep_spec (hch : ∀ b, cheld b ≤ held b) (l : List Nat) : ∀ (s : LvStore α) k, Counted held cheld s [] [] → s.slots ≤ fuel →
      (∀ a ∈ l, (s.lv a).lvtaskcycle ≠ s.lvtaskcycle → ¬ K a ∧ held a = 0) →
      ∃ s', sweep fuel l k s = some (k + (l.filter (fun a => (s.lv a).lvtaskcycle ≠ s.lvtaskcycle)).length, s') ∧
        Counted held cheld s' [] [] ∧ Shrunk held K s s' ∧ (∀ a ∈ l, (s.lv a).lvtaskcycle ≠ s.lvtaskcycle → (s'.lv a).symval = true →
          (s'.lv a).child = .nil ∧ 0 < (s'.lv a).trefcnt) ∧ ∀ b, (s'.lv b).symval = true → 0 < (s.lv b).trefcnt → 0 < (s'.lv b).trefcnt := by
  induction l with
  | nil =>
    intro s k h _ _
    exact ⟨s, rfl, h, Shrunk.refl held K s, fun a ha => absurd ha List.not_mem_nil, fun _ _ h0 => h0⟩
  | cons a l ih =>
    intro s k h hf hK
    by_cases hm : (s.lv a).lvtaskcycle ≠ s.lvtaskcycle
    · -- the state with which the scan goes on, whether or not the orphan was freed before
      obtain ⟨s1, h1, hc1, hsh1, ha1, hp1⟩ : ∃ s1, (sweep fuel (a :: l) k s = sweep fuel l (k + 1) s1) ∧
          Counted held cheld s1 [] [] ∧ Shrunk held K s s1 ∧
          ((s1.lv a).symval = true → (s1.lv a).child = .nil ∧ 0 < (s1.lv a).trefcnt) ∧
          ∀ b, (s1.lv b).symval = true → 0 < (s.lv b).trefcnt → 0 < (s1.lv b).trefcnt := by
        rw [sweep, if_pos hm]
        by_cases hl : (s.lv a).symval = true
        · obtain ⟨s1, h1, hrest⟩ := killOrphan_spec hch h hl (hK a List.mem_cons_self hm).2 (hK a List.mem_cons_self hm).1 hf
          refine ⟨s1, ?_, hrest⟩
          rw [if_pos hl, h1]
          rfl
        · exact ⟨s, by rw [if_neg hl], h, Shrunk.refl held K s, fun hl' => absurd hl' hl, fun _ _ h0 => h0⟩
      have hfil : ∀ b, ((s1.lv b).lvtaskcycle ≠ s1.lvtaskcycle) = ((s.lv b).lvtaskcycle ≠ s.lvtaskcycle) := fun b => by
        rw [hsh1.mark, hsh1.cycle]
      obtain ⟨s2, h2, hc2, hsh2, ha2, hp2⟩ := ih s1 (k + 1) hc1 (hsh1.slots ▸ hf) fun b hb hb' =>
        hK b (List.mem_cons_of_mem _ hb) (hfil b ▸ hb')
      refine ⟨s2, ?_, hc2, hsh1.trans hsh2, ?_, fun b hb h0 => hp2 b hb (hp1 b (hsh2.live b hb) h0)⟩
      · simp only [hfil] at h2
        rw [h1, h2, List.filter_cons_of_pos (by simpa using hm), List.length_cons]
        congr 2
        omega
      · intro b hb hb' hl2
        rcases List.mem_cons.mp hb with rfl | hb
        · obtain ⟨hn, hpos⟩ := ha1 (hsh2.live b hl2)
          refine ⟨?_, hp2 b hl2 hpos⟩
          rcases hsh2.child b hl2 with hc | hc
          · exact hc.trans hn
          · exact hc.2
        · exact ha2 b hb (by rw [hfil]; exact hb') hl2
    · obtain ⟨s2, h2, hc2, hsh2, ha2, hp2⟩ := ih s k h hf fun b hb => hK b (List.mem_cons_of_mem _ hb)
      refine ⟨s2, ?_, hc2, hsh2, ?_, hp2⟩
      · rw [sweep, if_neg hm, h2, List.filter_cons_of_neg (by simpa using hm)]
      · intro b hb hb'
        rcases List.mem_cons.mp hb with rfl | hb
        · exact absurd hb' hm
        · exact ha2 b hb hb'

end AliasAux
end Gtm

/-!
## Marking variables

`MARK_REACHABLE` goes from a variable through the containers of its tree to others. A variable that is newly marked when the marking
of another one is complete has all the targets of its containers marked as well, so a set of marks grown from none and complete for
every reference is closed.
-/

namespace Gtm
namespace AliasAux

open LvStore

variable {α : Type} {Q : Nat → Prop} {s s' s'' : LvStore α}

/-- Marked in the current cycle. -/
def marked (s : LvStore α) (b : Nat) : Prop := (s.lv b).lvtaskcycle = s.lvtaskcycle

/-- What marking relies on: containers point to variables, the flag of a tree with containers is set, and `Q` is closed. -/
structure Graph (Q : Nat → Prop) (s : LvStore α) : Prop where
  slots : ∀ a, (s.lv a).symval = true → a < s.slots
  target : ∀ b, ∀ x ∈ s.treeConts b, (s.lv x).symval = true
  aliascont : ∀ b, s.treeConts b ≠ [] → (s.lv b).hasAliascont = true
  closed : ∀ b, Q b → ∀ x ∈ s.treeConts b, Q x

/-- Marks are added, each to a variable of `Q`, and complete. -/
structure Marks (Q : Nat → Prop) (s s' : LvStore α) : Prop where
  slots : s'.slots = s.slots
  flist : s'.lvFlist = s.lvFlist
  cycle : s'.lvtaskcycle = s.lvtaskcycle
  lv : ∀ b, s'.lv b = s.lv b ∨ s'.lv b = { s.lv b with lvtaskcycle := s.lvtaskcycle }
  new : ∀ b, marked s' b → marked s b ∨ ((s.lv b).symval = true ∧ Q b ∧ ∀ x ∈ s.treeConts b, marked s' x)

section
variable (h : Marks Q s s') (b : Nat)
include h b

theorem Marks.symval : (s'.lv b).symval = (s.lv b).symval := by
  rcases h.lv b with hb | hb <;> rw [hb]

theorem Marks.child : (s'.lv b).child = (s.lv b).child := by
  rcases h.lv b with hb | hb <;> rw [hb]

theorem Marks.hasAliascont : (s'.lv b).hasAliascont = (s.lv b).hasAliascont := by
  rcases h.lv b with hb | hb <;> rw [hb]

theorem Marks.treeConts : s'.treeConts b = s.treeConts b := treeConts_congr (h.symval b) (h.child b)

theorem Marks.keep (hb : marked s b) : marked s' b := by
  rw [marked, h.cycle]
  rcases h.lv b with hb' | hb'
  · rw [hb']
    exact hb
  · rw [hb']

end

theorem Marks.refl (Q : Nat → Prop) (s : LvStore α) : Marks Q s s where
  slots := rfl
  flist := rfl
  cycle := rfl
  lv := fun _ => .inl rfl
  new := fun _ h => .inl h

theorem Marks.trans (h : Marks Q s s') (h' : Marks Q s' s'') : Marks Q s s'' where
  slots := h'.slots.trans h.slots
  flist := h'.flist.trans h.flist
  cycle := h'.cycle.trans h.cycle
  lv := by
    intro b
    rcases h'.lv b with hb' | hb'
    · rw [hb']
      exact h.lv b
    · rw [hb', h.cycle]
      rcases h.lv b with hb | hb <;> rw [hb] <;> exact .inr rfl
  new := by
    intro b hb
    rcases h'.new b hb with hb | ⟨h1, h2, h3⟩
    · rcases h.new b hb with hb | ⟨h1, h2, h3⟩
      · exact .inl hb
      · exact .inr ⟨h1, h2, fun x hx => h'.keep x (h3 x hx)⟩
    · rw [h.symval] at h1
      rw [h.treeConts] at h3
      exact .inr ⟨h1, h2, h3⟩

theorem Graph.marks (g : Graph Q s) (h : Marks Q s s') : Graph Q s' where
  slots := fun a ha => h.slots ▸ g.slots a (h.symval a ▸ ha)
  target := fun b x hx => by
    rw [h.symval]
    exact g.target b x (h.treeConts b ▸ hx)
  aliascont := fun b hb => by
    rw [h.hasAliascont]
    exact g.aliascont b (h.treeConts b ▸ hb)
  closed := fun b hb x hx => g.closed b hb x (h.treeConts b ▸ hx)

/-- The number of variables that are not marked. -/
def whiteCount (s : LvStore α) : Nat :=
  ((Finset.range s.slots).filter (fun b => (s.lv b).symval = true ∧ (s.lv b).lvtaskcycle ≠ s.lvtaskcycle)).card

theorem Marks.whiteCount_le (h : Marks Q s s') : whiteCount s' ≤ whiteCount s := by
  refine Finset.card_le_card fun b hb => ?_
  rw [Finset.mem_filter] at hb ⊢
  exact ⟨h.slots ▸ hb.1, h.symval b ▸ hb.2.1, fun hm => hb.2.2 (h.keep b hm)⟩

theorem whiteCount_le_slots (s : LvStore α) : whiteCount s ≤ s.slots := (Finset.card_filter_le _ _).trans_eq (Finset.card_range _)

/-- What marking a variable has to do when it may nest `fuel` deep. -/
def MarkSpec (Q : Nat → Prop) (fuel : Nat) (mark : Nat → LvStore α → Option (LvStore α)) : Prop :=
  ∀ s a, Graph Q s → ((s.lv a).symval = true → Q a) → whiteCount s < fuel →
    ∃ s', mark a s = some s' ∧ Marks Q s s' ∧ ((s.lv a).symval = true → marked s' a)

/-- Every container of a tree is followed. -/
theorem prcsMarkreachedCntnr_spec {fuel : Nat} {mark : Nat → LvStore α → Option (LvStore α)} (hm : MarkSpec Q fuel mark) (t : LvTree α) :
    ∀ s, Graph Q s → (∀ x ∈ t.conts, Q x ∧ (s.lv x).symval = true) → whiteCount s < fuel →
      ∃ s', prcsMarkreachedCntnr mark t s = some s' ∧ Marks Q s s' ∧ ∀ x ∈ t.conts, marked s' x := by
  induction t with
  | nil =>
    intro s _ _ _
    exact ⟨s, rfl, Marks.refl Q s, fun x hx => absurd hx List.not_mem_nil⟩
  | node left v cont child right ihl ihc ihr =>
    intro s g ht hf
    simp only [LvTree.conts, List.mem_append] at ht ⊢
    obtain ⟨s1, h1, m1, a1⟩ := ihl s g (fun x hx => ht x (.inl hx)) hf
    -- the container of the node itself
    obtain ⟨s2, h2, m2, a2⟩ : ∃ s2, markCntnr mark cont s1 = some s2 ∧ Marks Q s1 s2 ∧ ∀ x ∈ cont.toList, marked s2 x := by
      cases cont with
      | none => exact ⟨s1, rfl, Marks.refl Q s1, fun x hx => absurd hx List.not_mem_nil⟩
      | some a =>
        have ha := ht a (.inr (.inr (.inr (by simp))))
        obtain ⟨s2, h2, m2, a2⟩ := hm s1 a (g.marks m1) (fun _ => ha.1) (m1.whiteCount_le.trans_lt hf)
        refine ⟨s2, h2, m2, fun x hx => ?_⟩
        rw [Option.mem_toList] at hx
        cases hx
        exact a2 (by rw [m1.symval]; exact ha.2)
    have m12 := m1.trans m2
    obtain ⟨s3, h3, m3, a3⟩ := ihc s2 (g.marks m12)
      (fun x hx => ⟨(ht x (.inr (.inr (.inl hx)))).1, by rw [m12.symval]; exact (ht x (.inr (.inr (.inl hx)))).2⟩)
      (m12.whiteCount_le.trans_lt hf)
    have m13 := m12.trans m3
    obtain ⟨s4, h4, m4, a4⟩ := ihr s3 (g.marks m13)
      (fun x hx => ⟨(ht x (.inr (.inl hx))).1, by rw [m13.symval]; exact (ht x (.inr (.inl hx))).2⟩)
      (m13.whiteCount_le.trans_lt hf)
    refine ⟨s4, ?_, m13.trans m4, ?_⟩
    · simp only [prcsMarkreachedCntnr, h1, h2, h3, h4, Option.bind_eq_bind, Option.bind_some]
    · rintro x (hx | hx | hx | hx)
      · exact m4.keep x (m3.keep x (m2.keep x (a1 x hx)))
      · exact a4 x hx
      · exact m4.keep x (a3 x hx)
      · exact m4.keep x (m3.keep x (a2 x hx))

/-- A variable marked, and then whatever its containers lead to. -/
theorem markReachable_spec (fuel : Nat) : MarkSpec (α := α) Q fuel (markReachable fuel) := by
  induction fuel with
  | zero =>
    intro s a _ _ hf
    omega
  | succ fuel ih =>
    intro s a g hQ hf
    by_cases hw : (s.lv a).symval = true ∧ (s.lv a).lvtaskcycle ≠ s.lvtaskcycle
    · obtain ⟨hl, hm⟩ := hw
      generalize hs1 : s.modify a (fun l => { l with lvtaskcycle := s.lvtaskcycle }) = s1
      have hlv : ∀ b, s1.lv b = if b = a then { s.lv a with lvtaskcycle := s.lvtaskcycle } else s.lv b := by
        intro b
        rw [← hs1, lv_modify]
      have hlva : s1.lv a = { s.lv a with lvtaskcycle := s.lvtaskcycle } := by rw [hlv, if_pos rfl]
      have hslots : s1.slots = s.slots := by rw [← hs1]; rfl
      have hcycle : s1.lvtaskcycle = s.lvtaskcycle := by rw [← hs1]; rfl
      have hsym : ∀ b, (s1.lv b).symval = (s.lv b).symval := by
        intro b
        rw [hlv]
        split
        · next hb => rw [hb]
        · rfl
      have htc : ∀ b, s1.treeConts b = s.treeConts b := by
        intro b
        refine treeConts_congr (hsym b) ?_
        rw [hlv]
        split
        · next hb => rw [hb]
        · rfl
      have ha1 : marked s1 a := by rw [marked, hlva, hcycle]
      have hkeep : ∀ b, marked s b → marked s1 b := by
        intro b hb
        rw [marked, hlv, hcycle]
        split
        · rfl
        · exact hb
      have hback : ∀ b, b ≠ a → marked s1 b → marked s b := by
        intro b hb hmb
        rwa [marked, hlv, if_neg hb, hcycle] at hmb
      have g1 : Graph Q s1 := by
        refine ⟨fun b hb => hslots ▸ g.slots b (hsym b ▸ hb), fun b x hx => ?_, fun b hb => ?_, fun b hb x hx => ?_⟩
        · rw [hsym]
          exact g.target b x (htc b ▸ hx)
        · rw [hlv]
          have := g.aliascont b (htc b ▸ hb)
          split
          · next hba => rwa [hba] at this
          · exact this
        · exact g.closed b hb x (htc b ▸ hx)
      have hf1 : whiteCount s1 < fuel := by
        have hlt : whiteCount s1 < whiteCount s := by
          refine Finset.card_lt_card ⟨fun b hb => ?_, fun hsub => ?_⟩
          · rw [Finset.mem_filter] at hb ⊢
            exact ⟨hslots ▸ hb.1, hsym b ▸ hb.2.1, fun hmb => hb.2.2 (hkeep b hmb)⟩
          · exact (Finset.mem_filter.mp (hsub (Finset.mem_filter.mpr ⟨Finset.mem_range.mpr (g.slots a hl), hl, hm⟩))).2.2 ha1
        omega
      -- the tree of the variable, which is passed over when it has no containers
      obtain ⟨s2, h2, m2, a2⟩ : ∃ s2, (if !(s1.lv a).child.isNil && (s1.lv a).hasAliascont then
          prcsMarkreachedCntnr (markReachable fuel) (s1.lv a).child s1 else some s1) = some s2 ∧ Marks Q s1 s2 ∧
          ∀ x ∈ s1.treeConts a, marked s2 x := by
        have hta : s1.treeConts a = (s1.lv a).child.conts := if_pos (by rw [hsym]; exact hl)
        split
        · rw [hta]
          refine prcsMarkreachedCntnr_spec ih _ s1 g1 (fun x hx => ?_) hf1
          rw [← hta] at hx
          exact ⟨g1.closed a (hQ hl) x hx, g1.target a x hx⟩
        · next hno =>
          refine ⟨s1, rfl, Marks.refl Q s1, fun x hx => absurd ?_ hno⟩
          have hne : s1.treeConts a ≠ [] := List.ne_nil_of_mem hx
          rw [g1.aliascont a hne]
          rw [hta] at hne
          cases hc : (s1.lv a).child with
          | nil => exact absurd (by rw [hc]; rfl) hne
          | node => rfl
      refine ⟨s2, ?_, ⟨m2.slots.trans hslots, ?_, m2.cycle.trans hcycle, ?_, ?_⟩, fun _ => m2.keep a ha1⟩
      · rw [markReachable, if_pos ⟨hl, hm⟩]
        simp only [hs1]
        exact h2
      · rw [m2.flist, ← hs1]
        rfl
      · intro b
        have hb1 : s1.lv b = s.lv b ∨ s1.lv b = { s.lv b with lvtaskcycle := s.lvtaskcycle } := by
          rw [hlv]
          split
          · next hb =>
            rw [hb]
            exact .inr rfl
          · exact .inl rfl
        rcases m2.lv b with hb2 | hb2
        · rw [hb2]
          exact hb1
        · rw [hb2, hcycle]
          rcases hb1 with hb1 | hb1 <;> rw [hb1] <;> exact .inr rfl
      · intro b hb
        rcases m2.new b hb with hb1 | ⟨hb1, hb2, hb3⟩
        · by_cases hba : b = a
          · subst hba
            rw [htc] at a2
            exact .inr ⟨hl, hQ hl, a2⟩
          · exact .inl (hback b hba hb1)
        · rw [hsym] at hb1
          rw [htc] at hb3
          exact .inr ⟨hb1, hb2, hb3⟩
    · refine ⟨s, by rw [markReachable, if_neg hw], Marks.refl Q s, fun hl => ?_⟩
      by_contra hn
      exact hw ⟨hl, hn⟩

/-- Every reference marked. -/
theorem markAll_spec {fuel : Nat} (l : List Nat) :
    ∀ s : LvStore α, Graph Q s → (∀ a ∈ l, (s.lv a).symval = true → Q a) → whiteCount s < fuel →
      ∃ s', markAll fuel l s = some s' ∧ Marks Q s s' ∧ ∀ a ∈ l, (s.lv a).symval = true → marked s' a := by
  induction l with
  | nil =>
    intro s _ _ _
    exact ⟨s, rfl, Marks.refl Q s, fun a ha => absurd ha List.not_mem_nil⟩
  | cons a l ih =>
    intro s g hQ hf
    obtain ⟨s1, h1, m1, a1⟩ := markReachable_spec fuel s a g (hQ a List.mem_cons_self) hf
    obtain ⟨s2, h2, m2, a2⟩ := ih s1 (g.marks m1)
      (fun b hb hl => hQ b (List.mem_cons_of_mem _ hb) (m1.symval b ▸ hl)) (m1.whiteCount_le.trans_lt hf)
    refine ⟨s2, ?_, m1.trans m2, ?_⟩
    · rw [markAll, h1]
      exact h2
    · intro b hb hl
      rcases List.mem_cons.mp hb with rfl | hb
      · exact m2.keep b (a1 hl)
      · exact a2 b hb (by rw [m1.symval]; exact hl)

end AliasAux
end Gtm
