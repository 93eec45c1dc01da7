import Gtm.Lib.PtrRing

/-!
# Self-relative queues

The links of a queue entry are the distances to the entries before and behind it, so that a queue in shared memory can be walked by every
process (`relqueop.c`). An entry is its address.
-/

namespace Gtm

/-- The links of the entries. -/
structure QueMem where
  fl : Int → Int
  bl : Int → Int

namespace QueMem

/-- The entry that a forward link leads to. -/
def next (m : QueMem) (a : Int) : Int := a + m.fl a

/-- The entry that a backward link leads to. -/
def prev (m : QueMem) (a : Int) : Int := a + m.bl a

def setFl (m : QueMem) (a v : Int) : QueMem := { m with fl := Function.update m.fl a v }

def setBl (m : QueMem) (a v : Int) : QueMem := { m with bl := Function.update m.bl a v }

/-- `insqh`. -/
def insqh (new base : Int) (m : QueMem) : QueMem :=
  let m := m.setBl new (base - new)
  let m := m.setFl new (m.bl new + m.fl base)
  let m := m.setFl base (-m.bl new)
  m.setBl (new + m.fl new) (-m.fl new)

/-- `insqt`. -/
def insqt (new base : Int) (m : QueMem) : QueMem :=
  let m := m.setFl new (base - new)
  let m := m.setBl new (m.fl new + m.bl base)
  let m := m.setBl base (-m.fl new)
  m.setFl (new + m.bl new) (-m.bl new)

/-- `remqh`: the entry, or none. -/
def remqh (base : Int) (m : QueMem) : Option Int × QueMem :=
  if m.fl base ≠ 0 then
    let ret := base + m.fl base
    let m := m.setFl base (m.fl base + m.fl ret)
    (some ret, m.setBl (base + m.fl base) (m.bl (base + m.fl base) + m.bl ret))
  else (none, m)

/-- `remqt`. -/
def remqt (base : Int) (m : QueMem) : Option Int × QueMem :=
  if m.bl base ≠ 0 then
    let ret := base + m.bl base
    let m := m.setBl base (m.bl base + m.bl ret)
    (some ret, m.setFl (base + m.bl base) (m.fl (base + m.bl base) + m.fl ret))
  else (none, m)

open PtrRing

/-- The entry and those of the list are a queue, in order. -/
structure Que (m : QueMem) (l : List Int) : Prop where
  ring : Ring m.next m.prev l
  nodup : l.Nodup

/-- Nothing but these entries is linked differently. -/
def Same (m m' : QueMem) (l : List Int) : Prop := ∀ a, a ∉ l → m'.next a = m.next a ∧ m'.prev a = m.prev a

variable {m : QueMem} {base new x : Int} {l p s : List Int}

theorem Que.same {m' : QueMem} {l' : List Int} (h : m.Que l) (hsame : m.Same m' l') (hdis : l.Disjoint l') : m'.Que l :=
  ⟨h.ring.congr (fun y hy => (hsame y (hdis hy)).1) fun y hy => (hsame y (hdis hy)).2, h.nodup⟩

theorem next_insqt (hne : new ≠ base) (m : QueMem) :
    (insqt new base m).next = Function.update (Function.update m.next new base) (m.prev base) new := by
  funext a
  simp only [insqt, next, prev, setFl, setBl, Function.update_apply, if_true, if_neg hne]
  split_ifs <;> omega

theorem prev_insqt (new base : Int) (m : QueMem) :
    (insqt new base m).prev = Function.update (Function.update m.prev new (m.prev base)) base new := by
  funext a
  simp only [insqt, prev, setFl, setBl, Function.update_apply, if_true]
  split_ifs <;> omega

theorem next_insqh (new base : Int) (m : QueMem) :
    (insqh new base m).next = Function.update (Function.update m.next new (m.next base)) base new := by
  funext a
  simp only [insqh, next, setFl, setBl, Function.update_apply, if_true]
  split_ifs <;> omega

theorem prev_insqh (hne : new ≠ base) (m : QueMem) :
    (insqh new base m).prev = Function.update (Function.update m.prev new base) (m.next base) new := by
  funext a
  simp only [insqh, next, prev, setFl, setBl, Function.update_apply, if_true, if_neg hne]
  split_ifs <;> omega

/-- What `insqt` does to a queue. -/
theorem insqt_que (h : m.Que (base :: l)) (hx : new ∉ base :: l) :
    (insqt new base m).Que (base :: (l ++ [new])) ∧ m.Same (insqt new base m) (new :: base :: l) := by
  have hne : new ≠ base := fun heq => hx (heq ▸ List.mem_cons_self)
  refine ⟨⟨?_, ?_⟩, fun a ha => ?_⟩
  · rw [next_insqt hne, prev_insqt]
    exact h.ring.insert_last h.nodup hx
  · refine List.nodup_append.2 ⟨h.nodup, List.pairwise_singleton _ _, fun a ha b hb heq => hx ?_⟩
    rwa [← List.mem_singleton.1 hb, ← heq]
  · have hprev : a ≠ m.prev base := fun heq => ha (List.mem_cons_of_mem _ (heq ▸ h.ring.prev_mem List.mem_cons_self))
    rw [List.mem_cons, List.mem_cons, not_or, not_or] at ha
    rw [next_insqt hne, prev_insqt, Function.update_of_ne hprev, Function.update_of_ne ha.1, Function.update_of_ne ha.2.1,
      Function.update_of_ne ha.1]
    exact ⟨rfl, rfl⟩

/-- What `insqh` does to a queue. -/
theorem insqh_que (h : m.Que (base :: l)) (hx : new ∉ base :: l) :
    (insqh new base m).Que (base :: new :: l) ∧ m.Same (insqh new base m) (new :: base :: l) := by
  have hne : new ≠ base := fun heq => hx (heq ▸ List.mem_cons_self)
  have hnext : m.next base ∈ base :: l := by
    cases l with
    | nil =>
      rw [h.ring.1]
      exact List.mem_cons_self
    | cons b l =>
      rw [h.ring.1]
      exact List.mem_cons_of_mem _ List.mem_cons_self
  refine ⟨⟨?_, ?_⟩, fun a ha => ?_⟩
  · rw [next_insqh, prev_insqh hne]
    exact h.ring.insert_first h.nodup hx
  · have hperm : (base :: new :: l).Perm (new :: base :: l) := List.Perm.swap _ _ _
    exact hperm.nodup_iff.2 (List.nodup_cons.2 ⟨hx, h.nodup⟩)
  · have hn : a ≠ m.next base := fun heq => ha (List.mem_cons_of_mem _ (heq ▸ hnext))
    rw [List.mem_cons, List.mem_cons, not_or, not_or] at ha
    rw [next_insqh, prev_insqh hne, Function.update_of_ne hn, Function.update_of_ne ha.1, Function.update_of_ne ha.2.1,
      Function.update_of_ne ha.1]
    exact ⟨rfl, rfl⟩

/-- An entry is taken out between its neighbours. -/
theorem Que.unlinked {m' : QueMem} (h : m.Que (p ++ x :: s)) (hne : s ++ p ≠ [])
    (hnext : m'.next = Function.update m.next (m.prev x) (m.next x)) (hprev : m'.prev = Function.update m.prev (m.next x) (m.prev x)) :
    m'.Que (p ++ s) ∧ m.Same m' (p ++ s) := by
  obtain ⟨hring, hnx, hpx⟩ := h.ring.unlink h.nodup hne
  refine ⟨⟨?_, ?_⟩, fun a ha => ?_⟩
  · rw [hnext, hprev]
    exact hring
  · exact h.nodup.sublist (List.Sublist.append_left (List.sublist_cons_self x s) p)
  · have hmem : ∀ b, b ∈ s ++ p → a ≠ b := fun b hb heq => ha (by
      rw [heq, List.mem_append, or_comm, ← List.mem_append]
      exact hb)
    rw [hnext, hprev, Function.update_of_ne (hmem _ hpx), Function.update_of_ne (hmem _ hnx)]
    exact ⟨rfl, rfl⟩

/-- `remqt` joins the entry behind an entry with the one in front of it. -/
theorem remqt_eq {q : Int} (hback : m.prev q = x) (hforth : m.next (m.prev x) = x) (hqx : q ≠ x) :
    ∃ m', remqt q m = (some x, m') ∧ m'.next = Function.update m.next (m.prev x) (m.next x) ∧
      m'.prev = Function.update m.prev q (m.prev x) := by
  have hx : q + m.bl q = x := hback
  have hbl : m.bl q ≠ 0 := fun h0 => hqx (by omega)
  have hfront : q + (m.bl q + m.bl x) = m.prev x := by
    rw [prev]
    omega
  refine ⟨(m.setBl q (m.bl q + m.bl x)).setFl (m.prev x) (m.fl (m.prev x) + m.fl x), ?_, ?_, ?_⟩
  · rw [remqt, if_pos hbl]
    simp only [setBl, setFl, Function.update_self, hx, hfront]
  · funext a
    simp only [next, setFl, setBl, Function.update_apply]
    have hend : m.prev x + m.fl (m.prev x) = x := hforth
    split_ifs with ha
    · omega
    · rfl
  · funext a
    simp only [prev, setFl, setBl, Function.update_apply]
    split_ifs with ha
    · omega
    · rfl

/-- `remqh` joins the entry behind an entry with the one in front of it. -/
theorem remqh_eq {q : Int} (hforth : m.next q = x) (hback : m.prev (m.next x) = x) (hqx : q ≠ x) :
    ∃ m', remqh q m = (some x, m') ∧ m'.next = Function.update m.next q (m.next x) ∧
      m'.prev = Function.update m.prev (m.next x) (m.prev x) := by
  have hx : q + m.fl q = x := hforth
  have hfl : m.fl q ≠ 0 := fun h0 => hqx (by omega)
  have hbehind : q + (m.fl q + m.fl x) = m.next x := by
    rw [next]
    omega
  refine ⟨(m.setFl q (m.fl q + m.fl x)).setBl (m.next x) (m.bl (m.next x) + m.bl x), ?_, ?_, ?_⟩
  · rw [remqh, if_pos hfl]
    simp only [setBl, setFl, Function.update_self, hx, hbehind]
  · funext a
    simp only [next, setFl, setBl, Function.update_apply]
    split_ifs with ha
    · omega
    · rfl
  · funext a
    simp only [prev, setFl, setBl, Function.update_apply]
    have hend : m.next x + m.bl (m.next x) = x := hback
    split_ifs with ha
    · omega
    · rfl

/-- `remqt` at the entry behind takes an entry out. -/
theorem remqt_que (h : m.Que (p ++ x :: s)) (hne : s ++ p ≠ []) :
    ∃ m', remqt (m.next x) m = (some x, m') ∧ m'.Que (p ++ s) ∧ m.Same m' (p ++ s) := by
  have hmem : x ∈ p ++ x :: s := by simp
  obtain ⟨-, hnx, -⟩ := h.ring.unlink h.nodup hne
  have hx : x ∉ s ++ p := by
    have hperm : (p ++ x :: s).Perm (x :: (s ++ p)) := List.perm_middle.trans (List.Perm.cons _ List.perm_append_comm)
    exact (List.nodup_cons.1 (hperm.nodup_iff.1 h.nodup)).1
  obtain ⟨m', heq, hnext, hprev⟩ := remqt_eq (h.ring.prev_next hmem) (h.ring.next_prev hmem) fun heq => hx (heq ▸ hnx)
  exact ⟨m', heq, h.unlinked hne hnext hprev⟩

/-- `remqh` takes out the first entry. -/
theorem remqh_que (h : m.Que (base :: x :: s)) : ∃ m', remqh base m = (some x, m') ∧ m'.Que (base :: s) ∧ m.Same m' (base :: s) := by
  have hmem : x ∈ base :: x :: s := by simp
  have hbase : m.next base = x := h.ring.1
  have hback : m.prev x = base := h.ring.2.1
  have hne : base ≠ x := fun heq => (List.nodup_cons.1 h.nodup).1 (heq ▸ List.mem_cons_self)
  obtain ⟨m', heq, hnext, hprev⟩ := remqh_eq hbase (h.ring.prev_next hmem) hne
  exact ⟨m', heq, Que.unlinked (p := [base]) h (by simp) (by rw [hback]; exact hnext) hprev⟩

end QueMem

end Gtm
