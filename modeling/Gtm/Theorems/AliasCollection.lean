import Gtm.Lemmas.AliasMark

/-!
# The collection of local variables

`als_lvval_gc` on any symbol table whose counts are right, whatever cycles its alias containers make: it comes to an end without a
failed assertion, so that no count goes below zero; it frees the variables that cannot be reached, each once, and returns how many
they are; and those that can be reached keep their value and their tree and have right counts again.
-/

namespace Gtm
namespace AliasAux

open LvStore

variable {α : Type} {held cheld : Nat → Nat} {st : Symtab α}

/-- The new cycle is the mark of no variable. -/
theorem incrLvtaskcycle_spec (h : st.RightCounts held cheld) :
    (st.incrLvtaskcycle.slots = st.slots ∧ st.incrLvtaskcycle.lvFlist = st.lvFlist ∧ st.incrLvtaskcycle.lvtaskcycle < 2 ^ 32) ∧
      (∀ b, ∃ c, st.incrLvtaskcycle.lv b = { st.lv b with lvtaskcycle := c }) ∧
      ∀ b, (st.lv b).symval = true → (st.incrLvtaskcycle.lv b).lvtaskcycle < st.incrLvtaskcycle.lvtaskcycle := by
  have hlt := h.cycle_lt
  by_cases hw : (st.lvtaskcycle + 1) % 2 ^ 32 = 0
  · rw [show st.incrLvtaskcycle = _ from if_pos hw]
    refine ⟨⟨rfl, rfl, Nat.one_lt_two_pow (by decide)⟩, fun b => ?_, fun b hb => ?_⟩
    · by_cases hb : b < st.slots
      · exact ⟨0, if_pos hb⟩
      · exact ⟨(st.lv b).lvtaskcycle, if_neg hb⟩
    · dsimp only
      rw [if_pos (h.slots b hb)]
      exact Nat.one_pos
  · have hm : (st.lvtaskcycle + 1) % 2 ^ 32 = st.lvtaskcycle + 1 := Nat.mod_eq_of_lt (by omega)
    rw [show st.incrLvtaskcycle = _ from if_neg hw, hm]
    refine ⟨⟨rfl, rfl, by dsimp only; omega⟩, fun b => ⟨(st.lv b).lvtaskcycle, rfl⟩, fun b hb => ?_⟩
    exact Nat.lt_succ_of_le (h.cycle b hb)

/-- After the marking a variable is marked if it can be reached. -/
structure MarkedStore (st : Symtab α) (s : LvStore α) : Prop where
  slots : s.slots = st.slots
  flist : s.lvFlist = st.lvFlist
  cycle_lt : s.lvtaskcycle < 2 ^ 32
  lv : ∀ b, ∃ c, s.lv b = { st.lv b with lvtaskcycle := c }
  cycle : ∀ b, (st.lv b).symval = true → (s.lv b).lvtaskcycle ≤ s.lvtaskcycle
  reach : ∀ b, (st.lv b).symval = true → marked s b → st.Reachable b
  mark : ∀ b, st.Reachable b → marked s b ∨ st.zsearchVar = some b

theorem symval_of_reachable (h : st.RightCounts held cheld) {a : Nat} (ha : st.Reachable a) : (st.lv a).symval = true := by
  cases ha with
  | ref _ hl => exact hl
  | cont _ hx => exact h.target _ _ hx

theorem markAll_marked (h : st.RightCounts held cheld) :
    ∃ s, markAll (st.slots + 1) st.refs st.incrLvtaskcycle = some s ∧ MarkedStore st s := by
  obtain ⟨⟨hslots, hflist, hlt⟩, hlv, hwhite⟩ := incrLvtaskcycle_spec h
  generalize st.incrLvtaskcycle = s0 at hslots hflist hlt hlv hwhite
  have hsym : ∀ b, (s0.lv b).symval = (st.lv b).symval := by
    intro b
    obtain ⟨c, hc⟩ := hlv b
    rw [hc]
  have htc : ∀ b, s0.treeConts b = st.treeConts b := by
    intro b
    obtain ⟨c, hc⟩ := hlv b
    exact treeConts_congr (hsym b) (by rw [hc])
  have g : Graph st.Reachable s0 := by
    refine ⟨fun a ha => hslots ▸ h.slots a (hsym a ▸ ha), fun b x hx => ?_, fun b hb => ?_, fun b hb x hx => ?_⟩
    · rw [hsym]
      exact h.target b x (htc b ▸ hx)
    · obtain ⟨c, hc⟩ := hlv b
      rw [hc]
      exact h.aliascont b (htc b ▸ hb)
    · exact .cont hb (htc b ▸ hx)
  have hf : whiteCount s0 < st.slots + 1 := Nat.lt_succ_of_le (hslots ▸ whiteCount_le_slots s0)
  obtain ⟨s, hs, m, hm⟩ := markAll_spec st.refs s0 g (fun a ha hl => .ref (.inl ha) (hsym a ▸ hl)) hf
  have hnew : ∀ b, (st.lv b).symval = true → marked s b → st.Reachable b ∧ ∀ x ∈ st.treeConts b, marked s x := by
    intro b hb hmb
    rcases m.new b hmb with h0 | ⟨_, h1, h2⟩
    · exact absurd h0 (Nat.ne_of_lt (hwhite b hb))
    · rw [htc] at h2
      exact ⟨h1, h2⟩
  refine ⟨s, hs, m.slots.trans hslots, m.flist.trans hflist, m.cycle ▸ hlt, ?_, ?_, fun b hb hmb => (hnew b hb hmb).1, ?_⟩
  · intro b
    obtain ⟨c, hc⟩ := hlv b
    rcases m.lv b with hb | hb
    · exact ⟨c, hb.trans hc⟩
    · exact ⟨s0.lvtaskcycle, by rw [hb, hc]⟩
  · intro b hb
    rw [m.cycle]
    rcases m.lv b with hb' | hb'
    · rw [hb']
      exact Nat.le_of_lt (hwhite b hb)
    · rw [hb']
  · intro b hb
    induction hb with
    | ref ha hl =>
      rcases ha with ha | ha
      · exact .inl (hm _ ha (by rw [hsym]; exact hl))
      · exact .inr ha
    | cont hb hx ih =>
      rcases ih with hmb | hz
      · exact .inl ((hnew _ (symval_of_reachable h hb) hmb).2 _ hx)
      · rw [h.zsearch _ hz] at hx
        exact absurd hx List.not_mem_nil

theorem MarkedStore.symval {s : LvStore α} (m : MarkedStore st s) (b : Nat) : (s.lv b).symval = (st.lv b).symval := by
  obtain ⟨c, hc⟩ := m.lv b
  rw [hc]

theorem MarkedStore.child {s : LvStore α} (m : MarkedStore st s) (b : Nat) : (s.lv b).child = (st.lv b).child := by
  obtain ⟨c, hc⟩ := m.lv b
  rw [hc]

theorem MarkedStore.treeConts {s : LvStore α} (m : MarkedStore st s) (b : Nat) : s.treeConts b = st.treeConts b :=
  treeConts_congr (m.symval b) (m.child b)

theorem MarkedStore.counted {s : LvStore α} (h : st.RightCounts held cheld) (m : MarkedStore st s) : Counted held cheld s [] [] := by
  have hcn : ∀ x, s.cntnrs x = st.cntnrs x := cntnrs_congr m.slots m.treeConts
  refine ⟨fun a ha => m.slots ▸ h.slots a (m.symval a ▸ ha), fun a ha => ?_, fun a ha => ?_, fun a ha => ?_⟩
  · obtain ⟨c, hc⟩ := m.lv a
    rw [hcn, hc]
    exact h.crefcnt a (m.symval a ▸ ha)
  · obtain ⟨c, hc⟩ := m.lv a
    rw [hcn, hc]
    exact h.trefcnt a (m.symval a ▸ ha)
  · rw [hcn] at ha
    obtain ⟨b, hb⟩ := exists_of_cntnrs_pos ha
    rw [m.symval]
    exact h.target b a hb

/-- The scan of the list from the marked variables `s` to `s'`. -/
structure SweptStore (held cheld : Nat → Nat) (st : Symtab α) (s s' : LvStore α) : Prop where
  start : MarkedStore st s
  counted : Counted held cheld s' [] []
  shrunk : Shrunk held st.Reachable s s'
  left : ∀ a ∈ st.lvarray, (s.lv a).lvtaskcycle ≠ s.lvtaskcycle → (s'.lv a).symval = true →
    (s'.lv a).child = .nil ∧ 0 < (s'.lv a).trefcnt

variable {s s' : LvStore α}

theorem held_of_not_reachable (h : st.RightCounts held cheld) {a : Nat} (hl : (st.lv a).symval = true) (hr : ¬ st.Reachable a) :
    held a = 0 := by
  by_contra h0
  exact hr (.ref ((h.held_pos a hl).mp (Nat.pos_of_ne_zero h0)) hl)

/-- The list has the variables other than the one of `$ZSEARCH`; those of them that are not marked cannot be reached. -/
theorem mem_orphans (h : st.RightCounts held cheld) (m : MarkedStore st s) (a : Nat) :
    a ∈ st.lvarray.filter (fun a => (s.lv a).lvtaskcycle ≠ s.lvtaskcycle) ↔ (st.lv a).symval = true ∧ ¬ st.Reachable a := by
  rw [List.mem_filter, Symtab.lvarray, List.mem_filter, List.mem_range, Bool.and_eq_true, decide_eq_true_iff, decide_eq_true_iff]
  constructor
  · rintro ⟨⟨-, hl, hz⟩, hn⟩
    exact ⟨hl, fun hr => (m.mark a hr).elim hn hz⟩
  · rintro ⟨hl, hr⟩
    exact ⟨⟨h.slots a hl, hl, fun hz => hr (.ref (.inr hz) hl)⟩, fun hmk => hr (m.reach a hl hmk)⟩

theorem SweptStore.live (w : SweptStore held cheld st s s') {a : Nat} (ha : (s'.lv a).symval = true) :
    (st.lv a).symval = true := w.start.symval a ▸ w.shrunk.live a ha

theorem SweptStore.child (w : SweptStore held cheld st s s') {a : Nat} (ha : (s'.lv a).symval = true) (hr : st.Reachable a) :
    (s'.lv a).child = (st.lv a).child := by
  rcases w.shrunk.child a ha with hc | hc
  · exact hc.trans (w.start.child a)
  · exact absurd hr hc.1

section
variable (h : st.RightCounts held cheld) (w : SweptStore held cheld st s s')
include h w

/-- What can be reached is kept by what it is reached from. -/
theorem SweptStore.kept {a : Nat} (ha : st.Reachable a) : (s'.lv a).symval = true := by
  induction ha with
  | @ref a ha hl =>
    by_contra hn
    have := (w.shrunk.unheld a (by rw [w.start.symval]; exact hl) (by simpa using hn)).1
    have := (h.held_pos a hl).mpr ha
    omega
  | @cont b a hb ha ih =>
    by_contra hn
    have h0 := (w.shrunk.unheld a (by rw [w.start.symval]; exact h.target b a ha) (by simpa using hn)).2
    have hmem : a ∈ s'.treeConts b := by
      rw [LvStore.treeConts, if_pos ih, w.child ih hb]
      rwa [LvStore.treeConts, if_pos (symval_of_reachable h hb)] at ha
    have hle := count_le_cntnrs (w.counted.slots b ih) a
    have := List.count_pos_iff.mpr hmem
    omega

/-- An orphan that was left has no tree and is referred to. -/
theorem SweptStore.bare {a : Nat}
    (ha : (s'.lv a).symval = true) (hr : ¬ st.Reachable a) : (s'.lv a).child = .nil ∧ 0 < (s'.lv a).trefcnt := by
  have hmem := (mem_orphans h w.start a).mpr ⟨w.live ha, hr⟩
  exact w.left a (List.mem_filter.mp hmem).1 (by simpa using (List.mem_filter.mp hmem).2) ha

/-- No orphan is left: only another one could refer to it, and none has a tree. -/
theorem SweptStore.gone {a : Nat} (ha : (s'.lv a).symval = true) : st.Reachable a := by
  by_contra hr
  have ht := w.counted.tref a ha
  have hpos := (w.bare h ha hr).2
  have hh := held_of_not_reachable h (w.live ha) hr
  simp only [List.count_nil] at ht
  obtain ⟨b, hb⟩ := exists_of_cntnrs_pos (show 0 < s'.cntnrs a by omega)
  have hlb := symval_of_mem_treeConts hb
  rw [LvStore.treeConts, if_pos hlb] at hb
  by_cases hrb : st.Reachable b
  · rw [w.child hlb hrb] at hb
    exact hr (.cont hrb (by rw [LvStore.treeConts, if_pos (w.live hlb)]; exact hb))
  · rw [(w.bare h hlb hrb).1] at hb
    exact absurd hb List.not_mem_nil

/-- The counts are right again. -/
theorem SweptStore.rightCounts : Symtab.RightCounts { st with toLvStore := s' } held cheld := by
  have hsub : ∀ b x, x ∈ s'.treeConts b → x ∈ st.treeConts b := by
    intro b x hx
    rw [← List.count_pos_iff] at hx ⊢
    rw [← w.start.treeConts]
    exact Nat.lt_of_lt_of_le hx (w.shrunk.treeConts_le b x)
  have hnil : ∀ b, st.treeConts b = [] → s'.treeConts b = [] := fun b hb =>
    List.eq_nil_iff_forall_not_mem.mpr fun x hx => absurd (hsub b x hx) (by rw [hb]; exact List.not_mem_nil)
  refine ⟨w.counted.slots, ?_, ?_, ?_, h.cheld_le, fun a ha => h.held_pos a (w.live ha), ?_, fun a ha => hnil a (h.zsearch a ha), ?_, ?_⟩
  · intro b a (ha : a ∈ s'.treeConts b)
    have hle := count_le_cntnrs (w.counted.slots b (symval_of_mem_treeConts ha)) a
    have hpos := List.count_pos_iff.mpr ha
    exact w.counted.target a (by omega)
  · intro a ha
    have := w.counted.cref a ha
    rwa [List.count_nil] at this
  · intro a ha
    have := w.counted.tref a ha
    rwa [List.count_nil, Nat.add_zero] at this
  · intro a ha
    obtain ⟨c, hc⟩ := w.start.lv a
    have : (s'.lv a).hasAliascont = (st.lv a).hasAliascont := by rw [w.shrunk.aliascont, hc]
    exact this.trans (h.aliascont a fun h0 => ha (hnil a h0))
  · intro a ha
    have := w.start.cycle a (w.live ha)
    rwa [← w.shrunk.mark, ← w.shrunk.cycle] at this
  · exact w.shrunk.cycle ▸ w.start.cycle_lt

end

/-- The marking and the scan. -/
theorem alsLvvalGc_swept (h : st.RightCounts held cheld) : ∃ s s', SweptStore held cheld st s s' ∧
      st.alsLvvalGc = some ((st.lvarray.filter (fun a => (s.lv a).lvtaskcycle ≠ s.lvtaskcycle)).length, { st with toLvStore := s' }) := by
  obtain ⟨s, hmark, m⟩ := markAll_marked h
  have horphan : ∀ a ∈ st.lvarray, (s.lv a).lvtaskcycle ≠ s.lvtaskcycle → ¬ st.Reachable a ∧ held a = 0 := by
    intro a ha hn
    obtain ⟨hl, hr⟩ := (mem_orphans h m a).mp (List.mem_filter.mpr ⟨ha, decide_eq_true hn⟩)
    exact ⟨hr, held_of_not_reachable h hl hr⟩
  have hfuel : s.slots ≤ st.slots + 1 := by
    rw [m.slots]
    exact Nat.le_succ _
  obtain ⟨s', hsweep, hc, hsh, hleft, -⟩ := sweep_spec h.cheld_le st.lvarray s 0 (m.counted h) hfuel horphan
  refine ⟨s, s', ⟨m, hc, hsh, hleft⟩, ?_⟩
  simp only [Symtab.alsLvvalGc, hmark, hsweep, Option.bind_eq_bind, Option.bind_some, Nat.zero_add]

end AliasAux

open AliasAux

/-- The collection frees the variables that cannot be reached, each once, and counts them; the others stay as they are, and the
counts are right again. -/
theorem als_lvval_gc_frees_unreachable {α : Type} {held cheld : Nat → Nat} (st : Symtab α) (h : st.RightCounts held cheld) :
    ∃ st' fs, st.alsLvvalGc = some (fs.length, st') ∧ st' = { st with toLvStore := st'.toLvStore } ∧
      st'.lvFlist = fs ++ st.lvFlist ∧ fs.Nodup ∧ (∀ a, a ∈ fs ↔ (st.lv a).symval = true ∧ ¬ st.Reachable a) ∧
      (∀ a, (st'.lv a).symval = true ↔ st.Reachable a) ∧
      (∀ a, st.Reachable a → (st'.lv a).v = (st.lv a).v ∧ (st'.lv a).child = (st.lv a).child ∧
        (st'.lv a).hasAliascont = (st.lv a).hasAliascont) ∧
      st'.RightCounts held cheld := by
  obtain ⟨s, s', w, hgc⟩ := alsLvvalGc_swept h
  obtain ⟨fs, hfs, hnd, hmem⟩ := w.shrunk.freed
  have hfreed : ∀ a, a ∈ fs ↔ (st.lv a).symval = true ∧ ¬ st.Reachable a := by
    intro a
    rw [hmem, w.start.symval]
    refine and_congr_right fun _ => ⟨fun hl hr => ?_, fun hr => ?_⟩
    · rw [w.kept h hr] at hl
      cases hl
    · by_contra hl
      exact hr (w.gone h (by simpa using hl))
  have hperm : (st.lvarray.filter (fun a => (s.lv a).lvtaskcycle ≠ s.lvtaskcycle)).Perm fs := by
    refine (List.perm_ext_iff_of_nodup ((List.nodup_range.filter _).filter _) hnd).mpr fun a => ?_
    rw [hfreed]
    exact mem_orphans h w.start a
  refine ⟨{ st with toLvStore := s' }, fs, by rw [hgc, hperm.length_eq], rfl, by rw [hfs, w.start.flist], hnd, hfreed, ?_, ?_,
    w.rightCounts h⟩
  · exact fun a => ⟨w.gone h, w.kept h⟩
  · intro a hr
    obtain ⟨c, hc⟩ := w.start.lv a
    exact ⟨by rw [w.shrunk.v, hc], w.child (w.kept h hr) hr, by rw [w.shrunk.aliascont, hc]⟩

/-- A variable in the hash table, and two that are not in it: each of these has a container that points to the other one, and one of
them has one that points to itself and one that points to the first variable. -/
def cyclicSymtab : Symtab Unit :=
  { slots := 3
    lv := fun a =>
      match a with
      | 0 => { symval := true, v := (), trefcnt := 2, crefcnt := 1 }
      | 1 => { symval := true, v := (), child := .node .nil () (some 2) .nil .nil, trefcnt := 1, crefcnt := 1, hasAliascont := true }
      | 2 =>
        { symval := true, v := (), trefcnt := 2, crefcnt := 2, hasAliascont := true
          child := .node (.node .nil () (some 1) .nil .nil) () (some 2) .nil (.node .nil () (some 0) .nil .nil) }
      | _ => { symval := false, v := (), trefcnt := 0, crefcnt := 0 }
    hSymtab := [some 0, none] }

theorem als_lvval_gc_frees_unreachable_cyclic :
    cyclicSymtab.RightCounts (fun a => [0].count a) (fun _ => 0) ∧
      ∃ (st' : Symtab Unit) (fs : List Nat), cyclicSymtab.alsLvvalGc = some (fs.length, st') ∧ fs.Nodup ∧
        ∀ a, a ∈ fs ↔ (cyclicSymtab.lv a).symval = true ∧ ¬ cyclicSymtab.Reachable a := by
  have hlive : ∀ a, (cyclicSymtab.lv a).symval = true → a = 0 ∨ a = 1 ∨ a = 2 := by
    intro a ha
    match a, ha with
    | 0, _ => exact .inl rfl
    | 1, _ => exact .inr (.inl rfl)
    | 2, _ => exact .inr (.inr rfl)
  have hr : cyclicSymtab.RightCounts (fun a => [0].count a) (fun _ => 0) := by
    refine ⟨?_, ?_, ?_, ?_, fun _ => Nat.zero_le _, ?_, ?_, fun a ha => (by cases ha), ?_, by decide⟩
    · intro a ha
      rcases hlive a ha with rfl | rfl | rfl <;> decide
    · intro b
      match b with
      | 0 | 1 | 2 => decide
      | _ + 3 => exact fun a ha => absurd ha List.not_mem_nil
    · intro a ha
      rcases hlive a ha with rfl | rfl | rfl <;> decide
    · intro a ha
      rcases hlive a ha with rfl | rfl | rfl <;> decide
    · intro a ha
      rcases hlive a ha with rfl | rfl | rfl <;> decide
    · intro a
      match a with
      | 0 | 1 | 2 => decide
      | _ + 3 => exact fun ha => absurd rfl ha
    · intro a ha
      rcases hlive a ha with rfl | rfl | rfl <;> decide
  obtain ⟨st', fs, h1, -, -, h2, h3, -⟩ := als_lvval_gc_frees_unreachable cyclicSymtab hr
  exact ⟨hr, st', fs, h1, h2, h3⟩

end Gtm
