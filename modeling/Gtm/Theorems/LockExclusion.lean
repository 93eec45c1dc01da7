import Gtm.Lemmas.LockFind

/-!
# Locks exclude each other

In every state that lock attempts, unlocks, cleaning and the deaths of processes lead to, two live owners of related nrefs are one. A
lock attempt succeeds when the caller has the lock already, and else when no live owner of a related nref is in its way, no node on
the way has to be left to a process that waits for it, and there is lock space for the nodes that are missing.
-/

namespace Gtm

section LockExclusion

variable {σ : Type} [DecidableEq σ]

/-! ## The node of an nref -/

variable {d : MlkShrblk σ} {f : ShrForest σ} {subs : List σ} {alive : Nat → Bool} {s : LockSpace σ}

/-- The owner of the node of an nref. -/
theorem mem_holders_of_nodeAt (h : f.nodeAt subs = some d) (h0 : d.owner ≠ 0) : (subs, (⟨d.owner, d.auxowner⟩ : LockOwner)) ∈ f.holders := by
  induction f generalizing subs with
  | empty => nomatch h
  | node e children rsib ihc ihr =>
    cases subs with
    | nil => nomatch h
    | cons value subs =>
      rw [ShrForest.nodeAt] at h
      rw [ShrForest.holders, List.mem_append, List.mem_append]
      split at h
      · rename_i hv
        subst hv
        split at h
        · rename_i hs
          subst hs
          cases h
          exact .inl (.inl (by simp [h0]))
        · exact .inl (.inr (List.mem_map.2 ⟨_, ihc h, rfl⟩))
      · exact .inr (ihr h)

/-- An owned nref has a node. -/
theorem nodeAt_of_mem_holders (hf : f.Distinct) {x : List σ × LockOwner} (h : x ∈ f.holders) :
    ∃ d, f.nodeAt x.1 = some d ∧ d.owner ≠ 0 ∧ x.2 = ⟨d.owner, d.auxowner⟩ := by
  induction f generalizing x with
  | empty => cases h
  | node e children rsib ihc ihr =>
    rw [ShrForest.holders, List.mem_append, List.mem_append] at h
    rcases h with (h | h) | h
    · split at h
      · rename_i h0
        obtain rfl := List.mem_singleton.1 h
        exact ⟨e, by simp [ShrForest.nodeAt], h0, rfl⟩
      · cases h
    · obtain ⟨y, hy, rfl⟩ := List.mem_map.1 h
      obtain ⟨t, q, hq, -⟩ := holders_cons hy
      obtain ⟨d, hd, h0, ho⟩ := ihc hf.2.1 hy
      refine ⟨d, ?_, h0, ho⟩
      rw [ShrForest.nodeAt, if_pos rfl, if_neg (by rw [hq]; exact List.cons_ne_nil _ _), hd]
    · obtain ⟨t, q, hq, ht⟩ := holders_cons h
      obtain ⟨d, hd, h0, ho⟩ := ihr hf.2.2 h
      refine ⟨d, ?_, h0, ho⟩
      have hne : e.value ≠ t := fun he => hf.1 (he ▸ ht)
      rw [hq] at hd ⊢
      rw [ShrForest.nodeAt, if_neg hne, hd]

/-- An nref with a node has no subscript without one. -/
theorem missing_of_nodeAt (h : f.nodeAt subs = some d) : f.missing subs = 0 := by
  induction f generalizing subs with
  | empty => nomatch h
  | node e children rsib ihc ihr =>
    cases subs with
    | nil => nomatch h
    | cons value subs =>
      rw [ShrForest.nodeAt] at h
      rw [ShrForest.missing]
      split at h
      · rename_i hv
        rw [if_pos hv]
        split at h
        · rename_i hs
          rw [hs]
          cases children <;> rfl
        · exact ihc h
      · rename_i hv
        rw [if_neg hv]
        exact ihr h

/-- Replacing the node of an nref changes no other owner. -/
theorem setAt_spec {d' : MlkShrblk σ} (h : f.nodeAt subs = some d) (hv : d'.value = d.value) :
    (f.setAt d' subs).tops = f.tops ∧ (f.Distinct → (f.setAt d' subs).Distinct) ∧
    ∀ x ∈ (f.setAt d' subs).holders, x ∈ f.holders ∨ x = (subs, ⟨d'.owner, d'.auxowner⟩) := by
  induction f generalizing subs with
  | empty => cases h
  | node e children rsib ihc ihr =>
    cases subs with
    | nil => cases h
    | cons value subs =>
      rw [ShrForest.nodeAt] at h
      rw [ShrForest.setAt]
      by_cases hev : e.value = value
      · rw [if_pos hev] at h ⊢
        by_cases hs : subs = []
        · rw [if_pos hs] at h ⊢
          cases h
          subst hs
          refine ⟨by rw [ShrForest.tops, ShrForest.tops, hv], fun hd => ⟨hv ▸ hd.1, hd.2⟩, fun x hx => ?_⟩
          rw [ShrForest.holders, List.mem_append, List.mem_append, hv, hev] at hx
          rw [ShrForest.holders, List.mem_append, List.mem_append, hev]
          rcases hx with (hx | hx) | hx
          · split at hx
            · exact .inr (List.mem_singleton.1 hx)
            · cases hx
          · exact .inl (.inl (.inr hx))
          · exact .inl (.inr hx)
        · rw [if_neg hs] at h ⊢
          obtain ⟨ht, hd, hh⟩ := ihc h
          refine ⟨rfl, fun hdd => ⟨hdd.1, hd hdd.2.1, hdd.2.2⟩, fun x hx => ?_⟩
          rw [ShrForest.holders, List.mem_append, List.mem_append] at hx ⊢
          rcases hx with (hx | hx) | hx
          · exact .inl (.inl (.inl hx))
          · obtain ⟨y, hy, rfl⟩ := List.mem_map.1 hx
            rcases hh y hy with hy | rfl
            · exact .inl (.inl (.inr (List.mem_map_of_mem hy)))
            · exact .inr (by rw [hev])
          · exact .inl (.inr hx)
      · rw [if_neg hev] at h ⊢
        obtain ⟨ht, hd, hh⟩ := ihr h
        refine ⟨by rw [ShrForest.tops, ShrForest.tops, ht], fun hdd => ⟨ht ▸ hdd.1, hdd.2.1, hd hdd.2.2⟩, fun x hx => ?_⟩
        rw [ShrForest.holders, List.mem_append] at hx ⊢
        rcases hx with hx | hx
        · exact .inl (.inl hx)
        · exact (hh x hx).imp .inr id

/-! ## One attempt -/

/-- The caller has the node, and `p->sequence` is not looked at. -/
def MlkShrblk.mine (me : LockOwner) (d : MlkShrblk σ) : Prop := d.owner ≠ 0 ∧ (⟨d.owner, d.auxowner⟩ : LockOwner) = me

omit [DecidableEq σ] in
/-- The end of `mlk_lock` at the node it found. -/
theorem lockNode_spec (me : LockOwner) (new : Bool) (d : MlkShrblk σ) (st : FindState) {retval : UInt64} (hr : retval ≠ 0) :
    (lockNode me new d st retval).1.value = d.value ∧ st.ctl.Onward (lockNode me new d st retval).2.find.ctl ∧
    ((lockNode me new d st retval).2.retval = 0 ↔ d.mine me ∨ d.owner = 0 ∧ st.blocked = false) ∧
    ((lockNode me new d st retval).1.owner = d.owner ∧ (lockNode me new d st retval).1.auxowner = d.auxowner ∨
      (d.owner = 0 ∧ st.blocked = false) ∧ (lockNode me new d st retval).1.owner = me.processId ∧
      (lockNode me new d st retval).1.auxowner = me.auxown) := by
  have hblocked : (lockBlocked me new d st retval).1.value = d.value ∧
      st.ctl.Onward (lockBlocked me new d st retval).2.find.ctl ∧ (lockBlocked me new d st retval).2.retval = retval ∧
      (lockBlocked me new d st retval).1.owner = d.owner ∧ (lockBlocked me new d st retval).1.auxowner = d.auxowner := by
    unfold lockBlocked mlkPrcblkAdd
    cases new with
    | false => exact ⟨rfl, id, rfl, rfl, rfl⟩
    | true =>
      cases prcblkAdd me.processId st.ctl.prccnt d.pending with
      | none => exact ⟨rfl, id, rfl, rfl, rfl⟩
      | some pending => exact ⟨rfl, id, rfl, rfl, rfl⟩
  obtain ⟨hbv, hbo, hbr, hbow, hba⟩ := hblocked
  unfold lockNode
  by_cases h0 : d.owner = 0
  · rw [if_neg (by simpa using h0)]
    cases hb : st.blocked with
    | true =>
      refine ⟨hbv, hbo, ⟨fun h => absurd (hbr ▸ h) hr, ?_⟩, .inl ⟨hbow, hba⟩⟩
      rintro (h | h)
      · exact absurd h0 h.1
      · nomatch h.2
    | false =>
      cases new with
      | true => exact ⟨rfl, id, ⟨fun _ => .inr ⟨h0, rfl⟩, fun _ => rfl⟩, .inr ⟨⟨h0, rfl⟩, rfl, rfl⟩⟩
      | false => exact ⟨rfl, id, ⟨fun _ => .inr ⟨h0, rfl⟩, fun _ => rfl⟩, .inr ⟨⟨h0, rfl⟩, rfl, rfl⟩⟩
  · rw [if_pos h0]
    by_cases hm : d.owner = me.processId ∧ d.auxowner = me.auxown
    · rw [if_pos hm]
      exact ⟨rfl, id, ⟨fun _ => .inl ⟨h0, by rw [hm.1, hm.2]⟩, fun _ => rfl⟩, .inl ⟨rfl, rfl⟩⟩
    · rw [if_neg hm]
      refine ⟨hbv, hbo, ⟨fun h => absurd (hbr ▸ h) hr, ?_⟩, .inl ⟨hbow, hba⟩⟩
      rintro (h | h)
      · exact absurd ⟨congrArg LockOwner.processId h.2, congrArg LockOwner.auxown h.2⟩ hm
      · exact absurd h.1 h0

/-- Two live owners of related nrefs are one. -/
def ShrForest.Exclusive (alive : Nat → Bool) (f : ShrForest σ) : Prop :=
  ∀ x ∈ f.holders, ∀ y ∈ f.holders, alive x.2.processId = true → alive y.2.processId = true → x.1 <+: y.1 → x.2 = y.2

omit [DecidableEq σ] in
/-- Fewer owners exclude each other as well. -/
theorem ShrForest.Exclusive.of_subset {f' : ShrForest σ} (h : f.Exclusive alive) (hs : f'.holders ⊆ f.holders) : f'.Exclusive alive :=
  fun x hx y hy => h x (hs hx) y (hs hy)

omit [DecidableEq σ] in
/-- One more owner without a conflict. -/
theorem ShrForest.Exclusive.insert {f' : ShrForest σ} {me : LockOwner} (h : f.Exclusive alive) (hc : ¬ f.Conflicts alive me subs)
    (hs : ∀ x ∈ f'.holders, x ∈ f.holders ∨ x = (subs, me)) : f'.Exclusive alive := by
  have hmine : ∀ x ∈ f.holders, alive x.2.processId = true → RelatedRefs x.1 subs → x.2 = me := by
    intro x hx ha hrel
    by_contra hne
    exact hc ⟨x, hx, ha, hne, hrel⟩
  intro x hx y hy hax hay hp
  rcases hs x hx with hx | rfl
  · rcases hs y hy with hy | rfl
    · exact h x hx y hy hax hay hp
    · exact hmine x hx hax (.inl hp)
  · rcases hs y hy with hy | rfl
    · exact (hmine y hy hay (.inr hp)).symm
    · rfl

/-- When `mlk_lock` gets the lock, and what it leaves. -/
theorem mlkLock_spec {ctl : MlkCtl} (hx : f.Exclusive alive) (hd : f.Distinct)
    (hw : ctl.wakeups ≠ 0) {me : LockOwner} (hal : alive me.processId = true) (h0 : me.processId ≠ 0)
    (hs : subs ≠ []) (room : Nat → Bool) (new : Bool) (yieldPid : Nat) : (mlkLock alive room me new yieldPid subs f ctl).1.Exclusive alive ∧
    (mlkLock alive room me new yieldPid subs f ctl).1.Distinct ∧ (mlkLock alive room me new yieldPid subs f ctl).2.find.ctl.wakeups ≠ 0 ∧
    ((mlkLock alive room me new yieldPid subs f ctl).2.retval = 0 ↔ ¬ f.Conflicts alive me subs ∧ ((subs, me) ∈ f.holders ∨
        ¬ f.MustYield me yieldPid subs ∧ Roomy room ctl.blkfree.length (f.missing subs))) := by
  have hfind := mlkShrblkFind_spec alive room me f hs { ctl, yieldPid }
  have hmine : (subs, me) ∈ f.holders → ¬ f.Conflicts alive me subs := by
    rintro hm ⟨x, hx', ha, hne, hp | hp⟩
    · exact hne (hx x hx' _ hm ha hal hp)
    · exact hne (hx _ hm x hx' hal ha hp).symm
  have hgot : (subs, me) ∈ f.holders → Roomy room ctl.blkfree.length (f.missing subs) := by
    intro hm
    obtain ⟨d, hnode, -, -⟩ := nodeAt_of_mem_holders hd hm
    rw [missing_of_nodeAt hnode]
    exact ⟨Nat.zero_le _, fun k hk hk' => absurd hk' (Nat.not_le_of_lt hk)⟩
  unfold mlkLock
  generalize mlkShrblkFind alive room me f subs { ctl, yieldPid } = r at hfind
  obtain ⟨f', st, found⟩ := r
  have hx' : f'.Exclusive alive := hx.of_subset hfind.walked.holders
  have hd' : f'.Distinct := hfind.walked.distinct hd
  have hw' : st.ctl.wakeups ≠ 0 := hfind.onward hw
  cases found with
  | false =>
    have hno : ¬ Roomy room ctl.blkfree.length (f.missing subs) := fun hr => Bool.noConfusion (hfind.found.2 hr)
    refine ⟨hx', hd', hw', fun h => absurd h hw, ?_⟩
    rintro ⟨-, hm | ⟨-, hr⟩⟩
    · exact absurd (hgot hm) hno
    · exact absurd hr hno
  | true =>
    obtain ⟨d, hnode, hfree⟩ := hfind.node rfl
    have hblocked := hfind.blocked hd rfl rfl
    have hroom : Roomy room ctl.blkfree.length (f.missing subs) := hfind.found.1 rfl
    simp only [if_true, hnode]
    obtain ⟨hv, hon, hret, hown⟩ := lockNode_spec me new d st hw
    obtain ⟨-, hsd, hsh⟩ := setAt_spec hnode hv
    have hheld : d.mine me → (subs, me) ∈ f.holders := by
      rintro ⟨hne, ho⟩
      exact hfind.walked.holders (ho ▸ mem_holders_of_nodeAt hnode hne)
    refine ⟨?_, hsd hd', hon hw', ?_⟩
    · rcases hown with ⟨ho, ha⟩ | ⟨⟨ho, hb⟩, hme, haux⟩
      · refine hx'.of_subset fun x hxm => ?_
        rcases hsh x hxm with hxm | rfl
        · exact hxm
        · by_cases hz : d.owner = 0
          · obtain ⟨e, he, hne, heo⟩ := nodeAt_of_mem_holders (hsd hd') hxm
            exact absurd (congrArg LockOwner.processId heo) (by rw [ho, hz]; exact hne.symm)
          · rw [ho, ha]
            exact mem_holders_of_nodeAt hnode hz
      · have hnc : ¬ f.Conflicts alive me subs := fun hc => by
          rw [hblocked.2 (.inl hc)] at hb
          cases hb
        refine ShrForest.Exclusive.insert hx hnc fun x hxm => ?_
        rcases hsh x hxm with hxm | rfl
        · exact .inl (hfind.walked.holders hxm)
        · rw [hme, haux]
          exact .inr rfl
    · rw [hret]
      constructor
      · rintro (hm | ⟨-, hb⟩)
        · exact ⟨hmine (hheld hm), .inl (hheld hm)⟩
        · have hnb : ¬ (f.Conflicts alive me subs ∨ f.MustYield me yieldPid subs) := fun h => by
            rw [hblocked.2 h] at hb
            cases hb
          exact ⟨fun h => hnb (.inl h), .inr ⟨fun h => hnb (.inr h), hroom⟩⟩
      · rintro ⟨hnc, hm | ⟨hny, -⟩⟩
        · obtain ⟨e, he, hne, heo⟩ := nodeAt_of_mem_holders hd' (hfind.walked.live _ hm hal)
          rw [hnode] at he
          cases he
          exact .inl ⟨hne, heo.symm⟩
        · have hb : st.blocked = false := by
            by_contra hb
            exact (hblocked.1 (by simpa using hb)).elim hnc hny
          by_cases hz : d.owner = 0
          · exact .inr ⟨hz, hb⟩
          · exact .inl ⟨hz, hfree hb hz⟩

/-! ## Every run -/

/-- What holds of a lock space in every state. -/
structure LockSpace.Ok (s : LockSpace σ) : Prop where
  exclusive : s.forest.Exclusive s.alive
  distinct : s.forest.Distinct
  wakeups : s.ctl.wakeups ≠ 0

omit [DecidableEq σ] in
/-- A step that takes from the tree. -/
theorem LockSpace.Ok.of_thinned (h : s.Ok) {ctl : MlkCtl} (ht : Thinned f s.forest)
    (hw : s.ctl.Onward ctl) : LockSpace.Ok { s with forest := f, ctl } :=
  ⟨h.exclusive.of_subset ht.holders, ht.distinct h.distinct, hw h.wakeups⟩

theorem LockSpace.Ok.step {s' : LockSpace σ} (h : s.Ok) (hstep : LockStep s s') : s'.Ok := by
  cases hstep with
  | lock me new yieldPid subs room hal h0 hs =>
    obtain ⟨hx, hd, hw, -⟩ := mlkLock_spec h.exclusive h.distinct h.wakeups hal h0 hs room new yieldPid
    exact ⟨hx, hd, hw⟩
  | unlock processId nodptr sequence r hr =>
    obtain ⟨ht, hw⟩ := mlkUnlock_spec hr
    exact h.of_thinned ht hw
  | clean pidTable deadTable =>
    obtain ⟨ht, hw⟩ := cleanPids_spec (foundDead pidTable deadTable) s.forest s.ctl
    exact h.of_thinned ht hw
  | die pid =>
    have hlive : ∀ p, (p != pid && s.alive p) = true → s.alive p = true := fun p hp => (Bool.and_eq_true _ _ ▸ hp).2
    exact ⟨fun x hx y hy hax hay => h.exclusive x hx y hy (hlive _ hax) (hlive _ hay), h.distinct, h.wakeups⟩

theorem LockReachable.ok (h : LockReachable s) : s.Ok := by
  induction h with
  | start ctl alive hw => exact ⟨fun x hx => (nomatch hx), trivial, by rw [hw]; decide⟩
  | step _ hstep ih => exact ih.step hstep

/-- In every state of a lock space, no two live owners own related nrefs. And a live process gets a lock exactly when no other live
owner owns a related nref, and it has the lock already or need not yield to a process that waits and finds lock space. -/
theorem mlkLock_excludes {s : LockSpace σ} (h : LockReachable s) :
    s.forest.Exclusive s.alive ∧
    ∀ (me : LockOwner) (new : Bool) (yieldPid : Nat) (subs : List σ) (room : Nat → Bool),
      s.alive me.processId = true → me.processId ≠ 0 → subs ≠ [] →
      ((mlkLock s.alive room me new yieldPid subs s.forest s.ctl).2.retval = 0 ↔
        ¬ s.forest.Conflicts s.alive me subs ∧ ((subs, me) ∈ s.forest.holders ∨
          ¬ s.forest.MustYield me yieldPid subs ∧ Roomy room s.ctl.blkfree.length (s.forest.missing subs))) := by
  refine ⟨h.ok.exclusive, fun me new yieldPid subs room hal h0 hs => ?_⟩
  exact (mlkLock_spec h.ok.exclusive h.ok.distinct h.ok.wakeups hal h0 hs room new yieldPid).2.2.2

end LockExclusion

section LockRuns

/-- The counters of a lock space with three free blocks. -/
def threeBlocks : MlkCtl := { blkfree := [1, 2, 3], prccnt := 2 }

/-- The first process of an empty lock space gets a lock of two subscripts. -/
theorem mlkLock_excludes_first :
    (mlkLock (fun _ => true) (fun _ => true) ⟨5, 0⟩ true 0 [0, 1] .empty threeBlocks).2.retval = 0 :=
  ((mlkLock_excludes (LockReachable.start threeBlocks (fun _ => true) rfl)).2 ⟨5, 0⟩ true 0 [0, 1] (fun _ => true) rfl (by decide)
    (by decide)).2 ⟨fun ⟨_, hx, _⟩ => (nomatch hx), .inr ⟨id, by decide, fun _ _ _ => rfl⟩⟩

/-- Process 5 gets an nref, process 6 asks for it, and process 5 unlocks it. Process 7 does not get it then, although no one owns it:
it leaves it to process 6. -/
theorem mlkLock_excludes_yields :
    ∃ s : LockSpace Nat, LockReachable s ∧ s.alive 7 = true ∧ ¬ s.forest.Conflicts s.alive ⟨7, 0⟩ [0] ∧
      (mlkLock s.alive (fun _ => true) ⟨7, 0⟩ true 0 [0] s.forest s.ctl).2.retval ≠ 0 := by
  have h := (((LockReachable.start threeBlocks (fun _ => true) rfl).step
    (.lock _ ⟨5, 0⟩ true 0 [0] (fun _ => true) rfl (by decide) (by decide))).step
    (.lock _ ⟨6, 0⟩ true 0 [0] (fun _ => true) rfl (by decide) (by decide))).step
    (.unlock _ 5 1 0 _ rfl)
  exact ⟨_, h, rfl, fun ⟨_, hx, _⟩ => (nomatch hx), by decide⟩

end LockRuns

end Gtm
