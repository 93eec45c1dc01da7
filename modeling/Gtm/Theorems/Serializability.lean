import Gtm.Lemmas.BlockTable

/-!
# Committed transactions are serializable

Whatever the interleaving of the processes, however few records the block table has and wherever they start, a transaction passes
the validation of `t_end` only when no block it read has been updated since; so what the committed transactions read, and what
they leave in the database, is what they read and leave one after the other.
-/

namespace Gtm

variable {V : Type}

/-- What is known about a block read so far: updates after the read carry its number or a later one, and as long as none of them
is of the block, the database still holds what was read. -/
structure BlkRead.Inv (s : Sys V) (r : BlkRead V) : Prop where
  seen_le : r.seen ≤ s.updates.length
  tn_le : r.t1.tn ≤ s.currTn
  after : ∀ u ∈ s.updates.drop r.seen, r.t1.tn ≤ u.1
  current : (∀ u ∈ s.updates.drop r.seen, u.2 ≠ r.t1.blkNum) → s.db r.t1.blkNum = r.val

/-- What is known about a transaction in progress. -/
structure Txn.Inv (s : Sys V) (x : Txn V) : Prop where
  reads : ∀ r ∈ x.reads, r.Inv s
  rest : x.prog.after x.trace = some x.rest

/-- The invariant of the processes and their shared memory, over a database that started as `db0`. -/
structure Sys.Inv (db0 : Nat → V) (s : Sys V) : Prop where
  table : s.table.Inv s.updates s.currTn
  txns : ∀ pid x, s.txns pid = some x → x.Inv s
  serial : Occ.serial db0 (s.log.map Txn.prog) = (s.log.map Txn.trace, s.db)

variable {db0 : Nat → V} {s s' : Sys V}

/-- What is known about a transaction does not depend on the other processes. -/
theorem Txn.Inv.congr {x : Txn V} (h : x.Inv s) (hdb : s'.db = s.db) (htn : s'.currTn = s.currTn)
    (hup : s'.updates = s.updates) : x.Inv s' := by
  refine ⟨?_, h.rest⟩
  intro r hr
  have := h.reads r hr
  constructor
  · rw [hup]
    exact this.seen_le
  · rw [htn]
    exact this.tn_le
  · rw [hup]
    exact this.after
  · rw [hup, hdb]
    exact this.current

/-- What is known about a read stays known when another transaction commits. -/
theorem BlkRead.Inv.commit {r : BlkRead V} (hr : r.Inv s) (ws : List (Nat × V)) (hdb : s'.db = Occ.write s.db ws)
    (htn : s'.currTn = s.currTn + 1) (hup : s'.updates = s.updates ++ ws.map fun w => (s.currTn, w.1)) : r.Inv s' := by
  have hdrop : s'.updates.drop r.seen = s.updates.drop r.seen ++ ws.map fun w => (s.currTn, w.1) := by
    rw [hup, List.drop_append_of_le_length hr.seen_le]
  constructor
  · rw [hup, List.length_append]
    exact Nat.le_add_right_of_le hr.seen_le
  · rw [htn]
    exact Nat.le_succ_of_le hr.tn_le
  · intro u hu
    rw [hdrop] at hu
    rcases List.mem_append.1 hu with hu | hu
    · exact hr.after u hu
    · obtain ⟨w, _, rfl⟩ := List.mem_map.1 hu
      exact hr.tn_le
  · intro hno
    rw [hdrop] at hno
    have hold : s.db r.t1.blkNum = r.val := hr.current fun u hu => hno u (List.mem_append_left _ hu)
    rw [hdb, Occ.write_of_not_mem, hold]
    intro hmem
    obtain ⟨w, hw, hb⟩ := List.mem_map.1 hmem
    exact hno (s.currTn, w.1) (List.mem_append_right _ (List.mem_map.2 ⟨w, hw, rfl⟩)) hb

namespace Sys

theorem inv_init (nBts btBuckets : Nat) (bt1 : Nat → Nat) (currTn : Nat) (db0 : Nat → V) (hn : 0 < nBts) :
    (init nBts btBuckets bt1 currTn db0).Inv db0 where
  table := BlockTable.inv_btRefresh nBts btBuckets bt1 currTn hn
  txns _ _ h := by simp [init] at h
  serial := rfl

/-- The blocks of a transaction are in its history or among its bitmaps. -/
theorem mem_hist_or_bitmaps {x : Txn V} {r : BlkRead V} (hr : r ∈ x.reads) : r.t1 ∈ x.hist ∨ r.t1 ∈ x.bitmaps := by
  cases hb : r.bitmap with
  | false => exact .inl (List.mem_map.2 ⟨r, by simp [hr, hb], rfl⟩)
  | true => exact .inr (List.mem_map.2 ⟨r, by simp [hr, hb], rfl⟩)

section
variable (h : s.Inv db0)
include h

/-- No block of a transaction that passes the validation was updated after its read. -/
theorem Inv.not_updated {pid : Nat} {x : Txn V} (hx : s.txns pid = some x) (hv : tEndValidate s.table x.hist x.bitmaps = .normal) :
    ∀ r ∈ x.reads, ∀ u ∈ s.updates.drop r.seen, u.2 ≠ r.t1.blkNum := by
  intro r hr u hu hb
  have hle := ((h.txns pid x hx).reads r hr).after u hu
  have hlt : u.1 < r.t1.tn := by
    refine h.table.lt_of_tEndValidate hv (mem_hist_or_bitmaps hr) ?_
    rw [← hb]
    exact List.mem_of_mem_drop hu
  omega

/-- Replacing one process's transaction. -/
theorem Inv.setTxn (pid : Nat) (x : Option (Txn V)) (hx : ∀ y, x = some y → y.Inv s) :
    Inv db0 { s with txns := Function.update s.txns pid x } where
  table := h.table
  txns := by
    intro q y hy
    by_cases hq : q = pid
    · subst hq
      exact (hx y (by simpa using hy)).congr rfl rfl rfl
    · simp only [Function.update_of_ne hq] at hy
      exact (h.txns q y hy).congr rfl rfl rfl
  serial := h.serial

/-- A read keeps the invariant. -/
theorem Inv.readBlk {pid : Nat} {x : Txn V} (hx : s.txns pid = some x) {b : Nat} {next : V → Occ.Prog Nat V}
    (hrest : x.rest = .read b next) (bitmap : Bool) : (s.readBlk pid x bitmap b next).Inv db0 := by
  refine h.setTxn pid _ ?_
  rintro y ⟨⟩
  constructor
  · intro r hr
    rcases List.mem_append.1 hr with hr | hr
    · exact (h.txns pid x hx).reads r hr
    · rw [List.mem_singleton.1 hr]
      exact ⟨Nat.le_refl _, Nat.le_refl _, by simp, fun _ => rfl⟩
  · have hafter := (h.txns pid x hx).rest
    rw [hrest] at hafter
    simpa [Txn.trace] using Occ.Prog.after_concat _ _ _ _ (s.db b) hafter

/-- `t_end` neither fails in `bt_put` nor breaks the invariant. -/
theorem Inv.tEnd {pid : Nat} {x : Txn V} (hx : s.txns pid = some x) {ws : List (Nat × V)}
    (hrest : x.rest = .done ws) : ∃ s', s.tEnd pid x ws = some s' ∧ s'.Inv db0 := by
  unfold Sys.tEnd
  by_cases hv : tEndValidate s.table x.hist x.bitmaps = .normal
  · obtain ⟨table, ht, htable⟩ := h.table.btPutAll (ws.map Prod.fst)
    rw [if_pos hv, ht]
    refine ⟨_, rfl, ?_⟩
    constructor
    · have := htable.mono (Nat.le_succ s.currTn)
      rw [List.map_map] at this
      exact this
    · intro q y hy
      by_cases hq : q = pid
      · subst hq
        simp at hy
      · simp only [Function.update_of_ne hq] at hy
        have hy := h.txns q y hy
        exact ⟨fun r hr => (hy.reads r hr).commit ws rfl rfl rfl, hy.rest⟩
    · have hno := h.not_updated hx hv
      have hafter := (h.txns pid x hx).rest
      rw [hrest] at hafter
      have hcur : ∀ r ∈ x.trace, s.db r.1 = r.2 := by
        intro r hr
        obtain ⟨r', hr', rfl⟩ := List.mem_map.1 hr
        exact ((h.txns pid x hx).reads r' hr').current (hno r' hr')
      have hrun := Occ.Prog.run_of_current hafter hcur
      simp only [List.map_append, List.map_cons, List.map_nil]
      rw [Occ.serial_concat, h.serial, hrun]
  · rw [if_neg hv]
    exact ⟨_, rfl, h.setTxn pid none fun y hy => by simp at hy⟩

/-- Every step keeps the invariant. -/
theorem Inv.step {a : Action V} (hs : s.step a = some s') : s'.Inv db0 := by
  cases a with
  | begin pid prog =>
    obtain rfl := Option.some.inj hs
    refine h.setTxn pid _ ?_
    rintro y ⟨⟩
    exact ⟨by simp, by simp [Txn.trace]⟩
  | read pid bitmap =>
    unfold Sys.step at hs
    cases hx : s.txns pid with
    | none => simp [hx] at hs
    | some x =>
      cases hrest : x.rest with
      | done ws => simp [hx, hrest] at hs
      | read b next =>
        simp only [hx, hrest, Option.some.injEq] at hs
        rw [← hs]
        exact h.readBlk hx hrest bitmap
  | commit pid =>
    unfold Sys.step at hs
    cases hx : s.txns pid with
    | none => simp [hx] at hs
    | some x =>
      cases hrest : x.rest with
      | read b next => simp [hx, hrest] at hs
      | done ws =>
        obtain ⟨s1, hs1, hinv⟩ := h.tEnd hx hrest
        simp only [hx, hrest, hs1, Option.some.injEq] at hs
        rw [← hs]
        exact hinv

/-- Every run keeps the invariant. -/
theorem Inv.run {as : List (Action V)} (hs : s.run as = some s') : s'.Inv db0 := by
  induction as generalizing s with
  | nil =>
    obtain rfl := Option.some.inj hs
    exact h
  | cons a as ih =>
    obtain ⟨s1, hs1, hs⟩ := Option.bind_eq_some_iff.1 hs
    exact ih (h.step hs1) hs

end

end Sys

/-- In every state of every run, a transaction whose validation passes has read no block that was updated between that read and
now, and `t_end` then commits it; and the committed transactions, with what they read and what they left in the database, are
those of their serial execution in commit order. -/
theorem tEnd_serializable (nBts btBuckets : Nat) (bt1 : Nat → Nat) (currTn : Nat) (db0 : Nat → V) (hn : 0 < nBts)
    (as : List (Action V)) (s : Sys V) (hs : (Sys.init nBts btBuckets bt1 currTn db0).run as = some s) :
    (∀ pid x ws, s.txns pid = some x → x.rest = .done ws → tEndValidate s.table x.hist x.bitmaps = .normal →
      (∀ r ∈ x.reads, ∀ u ∈ s.updates.drop r.seen, u.2 ≠ r.t1.blkNum) ∧
      ∃ s', s.step (.commit pid) = some s' ∧ s'.log = s.log ++ [x] ∧ s'.db = Occ.write s.db ws) ∧
    Occ.serial db0 (s.log.map Txn.prog) = (s.log.map Txn.trace, s.db) := by
  have h : s.Inv db0 := (Sys.inv_init nBts btBuckets bt1 currTn db0 hn).run hs
  refine ⟨?_, h.serial⟩
  intro pid x ws hx hrest hv
  refine ⟨h.not_updated hx hv, ?_⟩
  obtain ⟨table, ht, _⟩ := h.table.btPutAll (ws.map Prod.fst)
  simp only [Sys.step, hx, hrest, Sys.tEnd, if_pos hv, ht, Option.map_some]
  exact ⟨_, rfl, rfl, rfl⟩

/-- Two processes read block 5; the second writes it and commits, and then the first tries to. -/
def twoReaders : List (Action Nat) :=
  [.begin 0 (.read 5 fun v => .done [(6, v)]), .read 0 false, .begin 1 (.read 5 fun v => .done [(5, v + 1)]), .read 1 false,
    .commit 1, .commit 0]

theorem tEnd_serializable_two_readers : ∃ s : Sys Nat,
    (Sys.init 1 1 id 1 fun _ => 0).run twoReaders = some s ∧ s.log.length = 1 ∧ s.db 5 = 1 ∧
    Occ.serial (fun _ => 0) (s.log.map Txn.prog) = (s.log.map Txn.trace, s.db) :=
  ⟨_, rfl, rfl, rfl, (tEnd_serializable 1 1 id 1 (fun _ => 0) (by decide) twoReaders _ rfl).2⟩

end Gtm
