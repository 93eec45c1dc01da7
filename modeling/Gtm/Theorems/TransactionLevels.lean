import Gtm.Lemmas.TlevelInfo

/-!
# Nested transaction levels

A transaction, next to one that copies every region at the start of each level and goes back to the copies: whatever levels are
started, committed and rolled back, and at whatever levels regions are first used, the two agree on every region, and the notes of
every region are a proper list with one element for each level that was started with the region in use.
-/

namespace Gtm
namespace TlevelAux

/-- The transaction and its copies. Regions that were used later stand further in front and have no more elements. -/
structure Sim (s : TpState) (a : TpSpec) : Prop where
  level : a.tlevel = s.tlevel
  pos : 0 < s.tlevel
  region : ∀ si ∈ s.sgms, (∃ L, RegionOk s.tlevel (fun l => a.started l si.region) L si) ∧ a.cur si.region = some si.data
  sorted : s.sgms.Pairwise (fun x y => x.tlvlElems ≤ y.tlvlElems)
  unused : ∀ r, (∀ si ∈ s.sgms, si.region ≠ r) → a.cur r = none ∧ ∀ l, 1 < l → l ≤ s.tlevel → a.started l r = none

variable {s : TpState} {a : TpSpec}

/-- Regions changed one by one keep their order when the number of elements of the new ones is a function of that of the old. -/
theorem Sim.sorted_map (h : Sim s a) {f : SgmInfo → SgmInfo} {g : Nat → Nat} (hg : ∀ m n, m ≤ n → g m ≤ g n)
    (hf : ∀ si ∈ s.sgms, (f si).tlvlElems = g si.tlvlElems) : (s.sgms.map f).Pairwise (fun x y => x.tlvlElems ≤ y.tlvlElems) := by
  rw [List.pairwise_map]
  refine h.sorted.imp_of_mem fun hx hy hxy => ?_
  rw [hf _ hx, hf _ hy]
  exact hg _ _ hxy

theorem Sim.start : Sim { tlevel := 1, sgms := [] } { tlevel := 1, cur := fun _ => none, started := fun _ _ => none } where
  level := rfl
  pos := Nat.one_pos
  region := fun _ hsi => absurd hsi List.not_mem_nil
  sorted := List.Pairwise.nil
  unused := fun _ _ => ⟨rfl, fun _ _ _ => rfl⟩

section
variable (h : Sim s a)
include h

theorem Sim.setSgm (r : Nat) : Sim (s.setSgm r) (a.step (.setSgm r)) := by
  unfold TpState.setSgm
  by_cases hany : s.sgms.any (fun si => si.region = r) = true
  · rw [if_pos hany]
    obtain ⟨si, hsi, hr⟩ := List.any_eq_true.mp hany
    have hcur : a.cur r = some si.data := by
      rw [← of_decide_eq_true hr]
      exact (h.region si hsi).2
    have hsame : Function.update a.cur r (some ((a.cur r).getD .empty)) = a.cur := by
      rw [hcur, Option.getD_some, ← hcur, Function.update_eq_self]
    exact ⟨h.level, h.pos, by simp only [TpSpec.step, hsame]; exact h.region, h.sorted, by simp only [TpSpec.step, hsame]; exact h.unused⟩
  · rw [if_neg hany]
    have hne : ∀ si ∈ s.sgms, si.region ≠ r := by
      intro si hsi hr
      exact hany (List.any_eq_true.mpr ⟨si, hsi, decide_eq_true hr⟩)
    obtain ⟨hcur, hst⟩ := h.unused r hne
    refine ⟨h.level, h.pos, ?_, List.pairwise_cons.mpr ⟨fun _ _ => Nat.zero_le _, h.sorted⟩, ?_⟩
    · intro si hsi
      rcases List.mem_cons.mp hsi with rfl | hsi
      · refine ⟨⟨s.tlevel, regionOk_fresh r h.pos hst⟩, ?_⟩
        simp only [TpSpec.step, hcur, Option.getD_none, Function.update_self]
        rfl
      · refine ⟨(h.region si hsi).1, ?_⟩
        simp only [TpSpec.step]
        rw [Function.update_of_ne (hne si hsi)]
        exact (h.region si hsi).2
    · intro r' hr'
      obtain ⟨h1, h2⟩ := h.unused r' fun si hsi => hr' si (List.mem_cons_of_mem _ hsi)
      refine ⟨?_, h2⟩
      simp only [TpSpec.step]
      rw [Function.update_of_ne (Ne.symm (hr' _ List.mem_cons_self))]
      exact h1

theorem Sim.tstart : Sim s.tstart (a.step .tstart) := by
  have hlev := h.level
  refine ⟨by simp only [TpSpec.step, TpState.tstart, hlev], Nat.succ_pos _, ?_, ?_, ?_⟩
  · intro sj hsj
    obtain ⟨si, hsi, rfl⟩ := List.mem_map.mp hsj
    obtain ⟨⟨L, hok⟩, hcur⟩ := h.region si hsi
    obtain ⟨hdata, -, -, hreg⟩ := tstart_frame (s.tlevel + 1) si
    rw [hreg, hdata]
    refine ⟨⟨L, ?_⟩, hcur⟩
    have hst : (fun l => (a.step .tstart).started l si.region) =
        Function.update (fun l => a.started l si.region) (s.tlevel + 1) (some si.data) := by
      funext l
      simp only [TpSpec.step, hlev]
      by_cases hl : l = s.tlevel + 1
      · subst hl
        rw [Function.update_self, Function.update_self]
        exact hcur
      · rw [Function.update_of_ne hl, Function.update_of_ne hl]
    rw [hst]
    exact hok.tstart
  · refine h.sorted_map (g := fun n => n + 1) (fun m n hmn => Nat.succ_le_succ hmn) fun si hsi => ?_
    obtain ⟨⟨L, hok⟩, -⟩ := h.region si hsi
    have hle := hok.linked.le
    rw [hok.linked.tstart.elems, hok.linked.elems]
    omega
  · intro r hr
    have hne : ∀ si ∈ s.sgms, si.region ≠ r := by
      intro si hsi
      have := hr _ (List.mem_map_of_mem hsi)
      rwa [(tstart_frame (s.tlevel + 1) si).2.2.2] at this
    obtain ⟨h1, h2⟩ := h.unused r hne
    refine ⟨h1, fun l hl1 hl2 => ?_⟩
    simp only [TpSpec.step, hlev]
    by_cases hl : l = s.tlevel + 1
    · subst hl
      rw [Function.update_self]
      exact h1
    · rw [Function.update_of_ne hl]
      exact h2 l hl1 (by simp only [TpState.tstart] at hl2; omega)

theorem Sim.incrCommit (hT : 1 < s.tlevel) : Sim s.incrCommit (a.step .incrCommit) := by
  have heq : incrCommitLoop s.tlevel [] none s.sgms = s.sgms.map (commitOne s.tlevel) := by
    refine (incrCommitLoop_eq s.sgms [] none (fun si hsi => ?_) h.sorted fun hne => absurd rfl hne).trans (List.nil_append _)
    obtain ⟨⟨L, hok⟩, -⟩ := h.region si hsi
    exact ⟨L, hok.linked⟩
  unfold TpState.incrCommit
  rw [heq]
  refine ⟨by simp only [TpSpec.step, h.level], Nat.sub_pos_of_lt hT, ?_, ?_, ?_⟩
  · intro sj hsj
    obtain ⟨si, hsi, rfl⟩ := List.mem_map.mp hsj
    obtain ⟨⟨L, hok⟩, hcur⟩ := h.region si hsi
    obtain ⟨hdata, -, -, hreg⟩ := commitOne_frame s.tlevel si
    rw [hreg, hdata]
    exact ⟨⟨_, hok.commitOne hT⟩, hcur⟩
  · refine h.sorted_map (g := fun n => n - 1) (fun m n hmn => Nat.sub_le_sub_right hmn 1) fun si hsi => ?_
    obtain ⟨⟨L, hok⟩, -⟩ := h.region si hsi
    rw [(hok.linked.commitOne hT).elems, hok.linked.elems]
    omega
  · intro r hr
    have hne : ∀ si ∈ s.sgms, si.region ≠ r := by
      intro si hsi
      have := hr _ (List.mem_map_of_mem hsi)
      rwa [(commitOne_frame s.tlevel si).2.2.2] at this
    obtain ⟨h1, h2⟩ := h.unused r hne
    exact ⟨h1, fun l hl1 hl2 => h2 l hl1 (by simp only at hl2; omega)⟩

theorem Sim.incrCleanUp {n : Nat} (hn0 : 0 < n) (hn : n < s.tlevel) : Sim (s.incrCleanUp n) (a.step (.incrCleanUp n)) := by
  refine ⟨rfl, hn0, ?_, ?_, ?_⟩
  · intro sj hsj
    obtain ⟨si, hsi, rfl⟩ := List.mem_map.mp hsj
    obtain ⟨⟨L, hok⟩, hcur⟩ := h.region si hsi
    obtain ⟨hok', hdata, hreg⟩ := hok.rollbk hn hn0
    rw [hreg]
    refine ⟨⟨_, hok'⟩, ?_⟩
    simp only [TpSpec.step, hcur, hdata, Option.map_some]
  · refine h.sorted_map (g := fun m => m - (s.tlevel - n)) (fun m n hmn => Nat.sub_le_sub_right hmn _) fun si hsi => ?_
    obtain ⟨⟨L, hok⟩, -⟩ := h.region si hsi
    rw [(hok.rollbk hn hn0).1.linked.elems, hok.linked.elems]
    omega
  · intro r hr
    have hne : ∀ si ∈ s.sgms, si.region ≠ r := by
      intro si hsi
      obtain ⟨⟨L, hok⟩, -⟩ := h.region si hsi
      have := hr _ (List.mem_map_of_mem hsi)
      rwa [(hok.rollbk hn hn0).2.2] at this
    obtain ⟨h1, h2⟩ := h.unused r hne
    refine ⟨by simp only [TpSpec.step, h1, Option.map_none], fun l hl1 hl2 => h2 l hl1 ?_⟩
    simp only [TpState.incrCleanUp] at hl2
    omega

/-- Work on a region, and on its copy. -/
theorem Sim.onRegion (r : Nat) {f : SgmInfo → SgmInfo} {g : SgmData → SgmData}
    (hf : ∀ si ∈ s.sgms, ∀ L, RegionOk s.tlevel (fun l => a.started l si.region) L si →
      RegionOk s.tlevel (fun l => a.started l si.region) L (f si) ∧ (f si).data = g si.data ∧
        (f si).tlvlElems = si.tlvlElems ∧ (f si).region = si.region) : Sim (s.onRegion r f) (a.onRegion r g) := by
  have hfr : ∀ si ∈ s.sgms, (if si.region = r then f si else si).region = si.region := by
    intro si hsi
    obtain ⟨⟨L, hok⟩, -⟩ := h.region si hsi
    split
    · exact (hf si hsi L hok).2.2.2
    · rfl
  refine ⟨h.level, h.pos, ?_, ?_, ?_⟩
  · intro sj hsj
    obtain ⟨si, hsi, rfl⟩ := List.mem_map.mp hsj
    obtain ⟨⟨L, hok⟩, hcur⟩ := h.region si hsi
    obtain ⟨hok', hdata, -, -⟩ := hf si hsi L hok
    rw [hfr si hsi]
    by_cases hr : si.region = r
    · rw [if_pos hr]
      refine ⟨⟨L, hok'⟩, ?_⟩
      simp only [TpSpec.onRegion]
      rw [← hr, Function.update_self, hcur, hdata, Option.map_some]
    · rw [if_neg hr]
      refine ⟨⟨L, hok⟩, ?_⟩
      simp only [TpSpec.onRegion]
      rw [Function.update_of_ne hr]
      exact hcur
  · refine h.sorted_map (g := fun n => n) (fun m n hmn => hmn) fun si hsi => ?_
    obtain ⟨⟨L, hok⟩, -⟩ := h.region si hsi
    split
    · exact (hf si hsi L hok).2.2.1
    · rfl
  · intro r' hr'
    have hne : ∀ si ∈ s.sgms, si.region ≠ r' := by
      intro si hsi
      have := hr' _ (List.mem_map_of_mem hsi)
      rwa [hfr si hsi] at this
    obtain ⟨h1, h2⟩ := h.unused r' hne
    refine ⟨?_, h2⟩
    simp only [TpSpec.onRegion]
    by_cases hr : r' = r
    · subst hr
      rw [Function.update_self, h1]
      rfl
    · rw [Function.update_of_ne hr]
      exact h1

/-- One step of a transaction. -/
theorem Sim.step (c : TpStep) (hc : c.Allowed s.tlevel) : Sim (s.step c) (a.step c) := by
  cases c with
  | tstart => exact h.tstart
  | setSgm r => exact h.setSgm r
  | incrCommit => exact h.incrCommit hc
  | incrCleanUp n => exact h.incrCleanUp hc.1 hc.2
  | addHist r blk =>
    refine h.onRegion r fun si _ L hok => ⟨hok.addHist blk, ?_⟩
    unfold SgmInfo.addHist
    have hdata : si.data.blksInUse blk = si.blksInUse blk := rfl
    rw [hdata]
    cases si.blksInUse blk <;> exact ⟨rfl, rfl, rfl⟩
  | deleteBlk r e => exact h.onRegion r fun si _ L hok => ⟨(hok.deleteBlk e).1, (hok.deleteBlk e).2, rfl, rfl⟩
  | setUpdateTrans r v =>
    refine h.onRegion r fun si _ L hok => ⟨?_, rfl, rfl, rfl⟩
    exact hok.work rfl rfl rfl hok.nodes hok.tailNone hok.tail ⟨hok.data.nodup, hok.data.table, hok.data.count⟩
      ⟨List.prefix_refl _, List.prefix_refl _⟩

end

theorem sim_of_run (h : TpRun s a) : Sim s a := by
  induction h with
  | start => exact Sim.start
  | step s a c _ hc ih => exact ih.step c hc

/-- The list of notes of a region. -/
theorem RegionOk.tlvlListOk {T L : Nat} {started : Nat → Option SgmData} {si : SgmInfo} (h : RegionOk T started L si) :
    TlvlListOk T started si where
  elements := h.linked.tlvlList
  levels := by
    intro i hi
    rw [h.linked.elems] at hi ⊢
    rw [h.linked.level i hi]
    omega
  inUse := by
    intro l h1 h2
    rw [h.linked.elems]
    constructor
    · intro hs
      have hL : L < l := by
        by_contra hge
        rw [h.unused l h1 (by omega)] at hs
        cases hs
      refine ⟨l - L - 1, by omega, ?_⟩
      rw [h.linked.level _ (by omega)]
      omega
    · rintro ⟨i, hi, hlev⟩
      rw [h.linked.level i hi] at hlev
      obtain ⟨d, hd, -⟩ := h.notes l (by omega) h2
      rw [hd]
      rfl

end TlevelAux

open TlevelAux

/-- Every transaction: its lists of notes, its regions, and what a rollback to an inner level brings back. -/
theorem tp_levels_run (s : TpState) (a : TpSpec) (h : TpRun s a) :
    (∀ si ∈ s.sgms, TlvlListOk s.tlevel (fun l => a.started l si.region) si ∧ a.cur si.region = some si.data) ∧
      ∀ n, 0 < n → n < s.tlevel → ∀ si ∈ (s.incrCleanUp n).sgms, si.data = (a.started (n + 1) si.region).getD .empty := by
  have hsim := sim_of_run h
  refine ⟨fun si hsi => ?_, fun n hn0 hn sj hsj => ?_⟩
  · obtain ⟨⟨L, hok⟩, hcur⟩ := hsim.region si hsi
    exact ⟨hok.tlvlListOk, hcur⟩
  · obtain ⟨si, hsi, rfl⟩ := List.mem_map.mp hsj
    obtain ⟨⟨L, hok⟩, -⟩ := hsim.region si hsi
    obtain ⟨-, hdata, hreg⟩ := hok.rollbk hn hn0
    rw [hreg]
    exact hdata

/-- A region used at level 1, a second one at level 2, level 3 committed and level 2 rolled back: the second is as new, the first as
it was when level 2 was started. -/
theorem tp_levels_run_nested :
    ∃ (s : TpState) (a : TpSpec), TpRun s a ∧ (∀ si ∈ (s.incrCleanUp 1).sgms, si.data = (a.started 2 si.region).getD .empty) ∧
      (s.incrCleanUp 1).sgms.map (fun si => (si.region, si.tpHist)) = [(8, []), (7, [40])] := by
  have h := TpRun.start
  have h := TpRun.step _ _ (.setSgm 7) h trivial
  have h := TpRun.step _ _ (.addHist 7 40) h trivial
  have h := TpRun.step _ _ .tstart h trivial
  have h := TpRun.step _ _ (.setSgm 8) h trivial
  have h := TpRun.step _ _ (.addHist 8 50) h trivial
  have h := TpRun.step _ _ .tstart h trivial
  have h := TpRun.step _ _ (.addHist 7 41) h trivial
  have h := TpRun.step _ _ .incrCommit h (show 1 < 3 by decide)
  exact ⟨_, _, h, (tp_levels_run _ _ h).2 1 (by decide) (by decide), by decide⟩

end Gtm
