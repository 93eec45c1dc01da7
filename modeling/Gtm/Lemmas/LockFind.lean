import Gtm.Lemmas.LockTree

/-!
# Unlocking and cleaning take from a lock tree

`mlk_unlock`, with the processes it wakes and the nodes it deletes, and `clean_pids` leave a tree that is the one before without some
nodes and some owners. The counter of wake-ups never comes to 0, which is what `mlk_lock` returns when it has got a lock.
-/

namespace Gtm

section LockUnlock

variable {σ : Type}

/-- The counters go on: the one of wake-ups does not come to 0. -/
def MlkCtl.Onward (ctl ctl' : MlkCtl) : Prop := ctl.wakeups ≠ 0 → ctl'.wakeups ≠ 0

/-- `mlk_wake_pending` leaves the owner of a node, and the free blocks. -/
theorem mlkWakePending_spec (alive : Nat → Bool) (d : MlkShrblk σ) (ctl : MlkCtl) :
    (mlkWakePending alive d ctl).1.value = d.value ∧ (mlkWakePending alive d ctl).1.owner = d.owner ∧
    (mlkWakePending alive d ctl).1.auxowner = d.auxowner ∧ (mlkWakePending alive d ctl).2.blkfree = ctl.blkfree ∧
    ctl.Onward (mlkWakePending alive d ctl).2 := by
  unfold mlkWakePending
  split
  · exact ⟨rfl, rfl, rfl, rfl, id⟩
  · refine ⟨rfl, rfl, rfl, rfl, fun _ => ?_⟩
    simp only [MlkShrblk.setPending, MlkCtl.nextSequence]
    split
    · rename_i h
      have : ctl.wakeups + 2 = ctl.wakeups + 1 + 1 := by rw [UInt64.add_assoc]; rfl
      rw [this, h]
      decide
    · assumption

theorem from_mlkWakePending (alive : Nat → Bool) (d : MlkShrblk σ) (ctl : MlkCtl) : (mlkWakePending alive d ctl).1.From d := by
  obtain ⟨hv, ho, ha, -, -⟩ := mlkWakePending_spec alive d ctl
  exact ⟨hv, fun _ => ⟨ho, ha⟩⟩

/-- `mlk_tree_wake_children` takes from the tree. -/
theorem mlkTreeWakeChildren_spec (alive : Nat → Bool) (f : ShrForest σ) (ctl : MlkCtl) :
    Thinned (mlkTreeWakeChildren alive f ctl).2.1 f ∧ ctl.Onward (mlkTreeWakeChildren alive f ctl).2.2 := by
  induction f generalizing ctl with
  | empty => exact ⟨.empty, id⟩
  | node b children rsib ihc ihr =>
    rw [mlkTreeWakeChildren]
    have hsub : ∀ r, (if b.owner = 0 then mlkTreeWakeChildren alive children ctl else (false, children, ctl)) = r →
        Thinned r.2.1 children ∧ ctl.Onward r.2.2 := by
      rintro r rfl
      split
      · exact ihc ctl
      · exact ⟨.refl _, id⟩
    generalize (if b.owner = 0 then mlkTreeWakeChildren alive children ctl else (false, children, ctl)) = r at hsub
    obtain ⟨hthin, hon⟩ := hsub r rfl
    obtain ⟨gotone, children', ctl₁⟩ := r
    simp only at hthin hon ⊢
    split
    · have hw := (mlkWakePending_spec alive b ctl₁).2.2.2.2
      exact ⟨.keep (from_mlkWakePending alive b ctl₁) hthin (ihr _).1, fun h => (ihr _).2 (hw (hon h))⟩
    · split
      · exact ⟨.drop (ihr _).1, fun h => (ihr { ctl₁ with blkfree := b.idx :: ctl₁.blkfree }).2 (hon h)⟩
      · exact ⟨.keep (.refl b) hthin (ihr _).1, fun h => (ihr _).2 (hon h)⟩

/-- A turn of `mlk_unlock` takes from the tree. -/
theorem unlockTurn_spec (alive : Nat → Bool) (stopWaking : Bool) {d d' : MlkShrblk σ} {children children' : ShrForest σ}
    (rsib : ShrForest σ) (ctl : MlkCtl) (hd : d'.From d) (hc : Thinned children' children) :
    Thinned (unlockTurn alive stopWaking d' children' rsib ctl).2.1 (.node d children rsib) ∧
      ctl.Onward (unlockTurn alive stopWaking d' children' rsib ctl).2.2 := by
  unfold unlockTurn mlkShrblkDeleteIfEmpty
  split
  · exact ⟨.keep ((from_mlkWakePending alive d' ctl).trans hd) hc (.refl _), (mlkWakePending_spec alive d' ctl).2.2.2.2⟩
  · split
    · exact ⟨.drop (.refl _), id⟩
    · exact ⟨.keep hd hc (.refl _), id⟩

/-- `mlk_unlock` takes from the tree. -/
theorem mlkUnlock_spec {alive : Nat → Bool} {processId nodptr : Nat} {sequence : UInt32} {f : ShrForest σ} {ctl : MlkCtl}
    {r : Bool × ShrForest σ × MlkCtl} (h : mlkUnlock alive processId nodptr sequence f ctl = some r) :
    Thinned r.2.1 f ∧ ctl.Onward r.2.2 := by
  induction f generalizing r with
  | empty => nomatch h
  | node d children rsib ihc ihr =>
    rw [mlkUnlock] at h
    split at h
    · split at h
      · obtain ⟨hthin, hon⟩ := mlkTreeWakeChildren_spec alive children ctl.nextSequence
        have hd : ({ d with owner := 0, sequence := ctl.lockSequence } : MlkShrblk σ).From d := ⟨rfl, fun h0 => absurd rfl h0⟩
        obtain ⟨ht, ho⟩ := unlockTurn_spec alive (mlkTreeWakeChildren alive children ctl.nextSequence).1 rsib
          (mlkTreeWakeChildren alive children ctl.nextSequence).2.2 hd hthin
        cases h
        exact ⟨ht, fun h => ho (hon h)⟩
      · nomatch h
    · cases hc : mlkUnlock alive processId nodptr sequence children ctl with
      | some r' =>
        obtain ⟨hthin, hon⟩ := ihc hc
        rw [hc] at h
        obtain ⟨ht, ho⟩ := unlockTurn_spec alive r'.1 rsib r'.2.2 (.refl d) hthin
        cases h
        exact ⟨ht, fun h => ho (hon h)⟩
      | none =>
        rw [hc] at h
        cases hr : mlkUnlock alive processId nodptr sequence rsib ctl with
        | none =>
          rw [hr] at h
          nomatch h
        | some r' =>
          rw [hr] at h
          obtain ⟨hthin, hon⟩ := ihr hr
          cases h
          exact ⟨.keep (.refl d) (.refl _) hthin, hon⟩

/-- What `clean_pids` does to a node. -/
theorem from_cleanNode (dead : Nat → Bool) (d : MlkShrblk σ) (ctl : MlkCtl) :
    (cleanNode dead d ctl).1.From d ∧ ctl.Onward (cleanNode dead d ctl).2 := by
  unfold cleanNode
  generalize hp : mlkPrcblkDelete { d with pending := clearPending dead d.pending } 0 ctl = r
  cases hp
  simp only
  split
  · exact ⟨⟨rfl, fun h0 => absurd rfl h0⟩, id⟩
  · exact ⟨⟨rfl, fun _ => ⟨rfl, rfl⟩⟩, id⟩

/-- `clean_pids` takes from the tree. -/
theorem cleanPids_spec (dead : Nat → Bool) (f : ShrForest σ) (ctl : MlkCtl) :
    Thinned (cleanPids dead f ctl).1 f ∧ ctl.Onward (cleanPids dead f ctl).2 := by
  induction f generalizing ctl with
  | empty => exact ⟨.empty, id⟩
  | node d children rsib ihc ihr =>
    rw [cleanPids]
    obtain ⟨hthin, hon⟩ := ihc ctl
    generalize cleanPids dead children ctl = cleaned at hthin hon ⊢
    obtain ⟨children', ctl₁⟩ := cleaned
    obtain ⟨hd, ho⟩ := from_cleanNode dead d ctl₁
    simp only at hthin hon hd ho ⊢
    generalize cleanNode dead d ctl₁ = cleaned at hd ho ⊢
    obtain ⟨d', ctl₂⟩ := cleaned
    split
    · exact ⟨.drop (ihr _).1, fun h => (ihr { ctl₂ with blkfree := d'.idx :: ctl₂.blkfree }).2 (ho (hon h))⟩
    · exact ⟨.keep hd hthin (ihr _).1, fun h => (ihr _).2 (ho (hon h))⟩

end LockUnlock

end Gtm

/-!
## The walk to the node of an nref

`mlk_shrblk_find` goes down to the node of an nref, creates the nodes that are missing, and says whether the caller is blocked: by the
owner of a node on the way, by a process that waits for one of them, or by the owner of a node below.
-/

namespace Gtm

section LockFind

variable {σ : Type}

/-! ## What blocks -/

/-- One nref is the other one or stands above it. -/
def RelatedRefs (p q : List σ) : Prop := p <+: q ∨ q <+: p

/-- A live owner other than the caller has a related nref. -/
def ShrForest.Conflicts (alive : Nat → Bool) (me : LockOwner) (f : ShrForest σ) (subs : List σ) : Prop :=
  ∃ h ∈ f.holders, alive h.2.processId = true ∧ h.2 ≠ me ∧ RelatedRefs h.1 subs

variable {d : MlkShrblk σ} {me : LockOwner} {v : σ} {alive : Nat → Bool} {children rsib : ShrForest σ} {subs : List σ}

theorem ownedByOther_iff : d.ownedByOther me = true ↔ d.owner ≠ 0 ∧ (⟨d.owner, d.auxowner⟩ : LockOwner) ≠ me := by
  cases me
  simp only [MlkShrblk.ownedByOther, Bool.and_eq_true, bne_iff_ne, Bool.or_eq_true, ne_eq, LockOwner.mk.injEq]
  tauto

/-- The owners below a node. -/
theorem holders_cons {f : ShrForest σ} {h : List σ × LockOwner} (hh : h ∈ f.holders) : ∃ t q, h.1 = t :: q ∧ t ∈ f.tops := by
  induction f generalizing h with
  | empty => cases hh
  | node d children rsib ihc ihr =>
    rw [ShrForest.holders, List.mem_append, List.mem_append] at hh
    rcases hh with (hd | hc) | hr
    · split at hd
      · rw [List.mem_singleton.1 hd]
        exact ⟨d.value, [], rfl, List.mem_cons_self⟩
      · cases hd
    · obtain ⟨h', -, rfl⟩ := List.mem_map.1 hc
      exact ⟨d.value, h'.1, rfl, List.mem_cons_self⟩
    · obtain ⟨t, q, he, ht⟩ := ihr (h := h) hr
      exact ⟨t, q, he, List.mem_cons_of_mem _ ht⟩

theorem relatedRefs_cons {p q : List σ} : RelatedRefs (v :: p) (v :: q) ↔ RelatedRefs p q := by
  unfold RelatedRefs
  simp

theorem not_relatedRefs_cons {w : σ} (h : v ≠ w) {p q : List σ} : ¬ RelatedRefs (v :: p) (w :: q) := by
  rintro (hp | hp)
  · exact h (List.cons_prefix_cons.1 hp).1
  · exact h (List.cons_prefix_cons.1 hp).1.symm

theorem relatedRefs_nil (p : List σ) : RelatedRefs p [] := .inr List.nil_prefix

/-- What blocks at a node of the way: its owner, or one below. -/
theorem conflicts_here (h : d.value ∉ rsib.tops) : (ShrForest.node d children rsib).Conflicts alive me (d.value :: subs) ↔
      (d.ownedByOther me && alive d.owner) = true ∨ children.Conflicts alive me subs := by
  rw [Bool.and_eq_true, ownedByOther_iff]
  constructor
  · rintro ⟨x, hx, ha, hne, hrel⟩
    rw [ShrForest.holders, List.mem_append, List.mem_append] at hx
    rcases hx with (hx | hx) | hx
    · split at hx
      · rename_i h0
        obtain rfl := List.mem_singleton.1 hx
        exact .inl ⟨⟨h0, hne⟩, ha⟩
      · cases hx
    · obtain ⟨y, hy, rfl⟩ := List.mem_map.1 hx
      exact .inr ⟨y, hy, ha, hne, relatedRefs_cons.1 hrel⟩
    · obtain ⟨t, q, he, ht⟩ := holders_cons hx
      rw [he] at hrel
      exact absurd hrel (not_relatedRefs_cons (fun htv : t = d.value => h (htv ▸ ht)) |> fun hn hr => hn hr)
  · rintro (⟨⟨h0, hne⟩, ha⟩ | ⟨y, hy, ha, hne, hrel⟩)
    · refine ⟨([d.value], ⟨d.owner, d.auxowner⟩), by simp [ShrForest.holders, h0], ha, hne, .inl ?_⟩
      exact List.cons_prefix_cons.2 ⟨rfl, List.nil_prefix⟩
    · exact ⟨(d.value :: y.1, y.2), by simp [ShrForest.holders, hy], ha, hne, relatedRefs_cons.2 hrel⟩

/-- What blocks behind a node that is not on the way. -/
theorem conflicts_next (h : d.value ≠ v) :
    (ShrForest.node d children rsib).Conflicts alive me (v :: subs) ↔ rsib.Conflicts alive me (v :: subs) := by
  constructor
  · rintro ⟨x, hx, ha, hne, hrel⟩
    rw [ShrForest.holders, List.mem_append, List.mem_append] at hx
    rcases hx with (hx | hx) | hx
    · split at hx
      · obtain rfl := List.mem_singleton.1 hx
        exact absurd hrel (not_relatedRefs_cons h)
      · cases hx
    · obtain ⟨y, -, rfl⟩ := List.mem_map.1 hx
      exact absurd hrel (not_relatedRefs_cons h)
    · exact ⟨x, hx, ha, hne, hrel⟩
  · rintro ⟨x, hx, ha, hne, hrel⟩
    exact ⟨x, by simp [ShrForest.holders, hx], ha, hne, hrel⟩

/-- What blocks in a ring below the node of the nref. -/
theorem conflicts_nil : (ShrForest.node d children rsib).Conflicts alive me [] ↔
      (d.ownedByOther me && alive d.owner) = true ∨ children.Conflicts alive me [] ∨ rsib.Conflicts alive me [] := by
  rw [Bool.and_eq_true, ownedByOther_iff]
  constructor
  · rintro ⟨x, hx, ha, hne, -⟩
    rw [ShrForest.holders, List.mem_append, List.mem_append] at hx
    rcases hx with (hx | hx) | hx
    · split at hx
      · rename_i h0
        obtain rfl := List.mem_singleton.1 hx
        exact .inl ⟨⟨h0, hne⟩, ha⟩
      · cases hx
    · obtain ⟨y, hy, rfl⟩ := List.mem_map.1 hx
      exact .inr (.inl ⟨y, hy, ha, hne, relatedRefs_nil _⟩)
    · exact .inr (.inr ⟨x, hx, ha, hne, relatedRefs_nil _⟩)
  · rintro (⟨⟨h0, hne⟩, ha⟩ | ⟨y, hy, ha, hne, -⟩ | ⟨x, hx, ha, hne, -⟩)
    · exact ⟨([d.value], ⟨d.owner, d.auxowner⟩), by simp [ShrForest.holders, h0], ha, hne, relatedRefs_nil _⟩
    · exact ⟨(d.value :: y.1, y.2), by simp [ShrForest.holders, hy], ha, hne, relatedRefs_nil _⟩
    · exact ⟨x, by simp [ShrForest.holders, hx], ha, hne, relatedRefs_nil _⟩

/-! ## What the walk leaves -/

/-- A tree after a walk: no new owner, no live owner lost, and siblings still distinct. -/
structure Walked (alive : Nat → Bool) (f' f : ShrForest σ) : Prop where
  holders : f'.holders ⊆ f.holders
  live : ∀ h ∈ f.holders, alive h.2.processId = true → h ∈ f'.holders
  distinct : f.Distinct → f'.Distinct

theorem Walked.refl (alive : Nat → Bool) (f : ShrForest σ) : Walked alive f f := ⟨List.Subset.refl _, fun _ h _ => h, id⟩

/-- A node that is visited keeps its subscript, and its owner unless that is dead. -/
structure Visited (alive : Nat → Bool) (d' d : MlkShrblk σ) : Prop where
  value : d'.value = d.value
  owner : d'.owner = 0 ∨ d'.owner = d.owner ∧ d'.auxowner = d.auxowner
  live : alive d.owner = true → d'.owner = d.owner ∧ d'.auxowner = d.auxowner

theorem Visited.refl (alive : Nat → Bool) (d : MlkShrblk σ) : Visited alive d d := ⟨rfl, .inr ⟨rfl, rfl⟩, fun _ => ⟨rfl, rfl⟩⟩

/-- A node that is visited, with the rings below and after it walked. -/
theorem Walked.node {d' : MlkShrblk σ} {children' rsib' : ShrForest σ}
    (hd : Visited alive d' d) (hc : Walked alive children' children) (hr : Walked alive rsib' rsib)
    (ht : d.value ∉ rsib.tops → d.value ∉ rsib'.tops) : Walked alive (.node d' children' rsib') (.node d children rsib) where
  holders x hx := by
    rw [ShrForest.holders, List.mem_append, List.mem_append] at hx ⊢
    rcases hx with (hx | hx) | hx
    · split at hx
      · rename_i h0
        obtain ⟨ho, ha⟩ := hd.owner.resolve_left h0
        rw [if_pos (ho ▸ h0), ← ho, ← ha, ← hd.value]
        exact .inl (.inl hx)
      · cases hx
    · obtain ⟨y, hy, rfl⟩ := List.mem_map.1 hx
      exact .inl (.inr (List.mem_map.2 ⟨y, hc.holders hy, by rw [hd.value]⟩))
    · exact .inr (hr.holders hx)
  live x hx hal := by
    rw [ShrForest.holders, List.mem_append, List.mem_append] at hx ⊢
    rcases hx with (hx | hx) | hx
    · split at hx
      · rename_i h0
        obtain rfl := List.mem_singleton.1 hx
        obtain ⟨ho, ha⟩ := hd.live hal
        rw [if_pos (ho ▸ h0), ho, ha, hd.value]
        exact .inl (.inl hx)
      · cases hx
    · obtain ⟨y, hy, rfl⟩ := List.mem_map.1 hx
      exact .inl (.inr (List.mem_map.2 ⟨y, hc.live y hy hal, by rw [hd.value]⟩))
    · exact .inr (hr.live x hx hal)
  distinct h := ⟨hd.value ▸ ht h.1, hc.distinct h.2.1, hr.distinct h.2.2⟩

/-- The search for a blocking owner below the node of the nref. -/
theorem mlkFindBlockingChildLock_spec (alive : Nat → Bool) (me : LockOwner) (f : ShrForest σ) {st : FindState} (hb : st.blocked = false) :
    Walked alive (mlkFindBlockingChildLock alive me f st).1 f ∧ (mlkFindBlockingChildLock alive me f st).1.tops = f.tops ∧
    (mlkFindBlockingChildLock alive me f st).2.ctl = st.ctl ∧
    ((mlkFindBlockingChildLock alive me f st).2.blocked = true ↔ f.Conflicts alive me []) := by
  induction f generalizing st with
  | empty =>
    refine ⟨.refl _ _, rfl, rfl, ?_⟩
    rw [mlkFindBlockingChildLock, hb]
    exact ⟨nofun, fun ⟨x, hx, _⟩ => nomatch hx⟩
  | node d children rsib ihc ihr =>
    rw [mlkFindBlockingChildLock, conflicts_nil]
    by_cases hlive : (d.ownedByOther me && alive d.owner) = true
    · rw [if_pos hlive]
      exact ⟨.refl _ _, rfl, rfl, fun _ => .inl hlive, fun _ => rfl⟩
    · rw [if_neg hlive]
      have hd : Visited alive (if d.ownedByOther me then { d with owner := 0, auxowner := 0 } else d) d := by
        split
        · rename_i ho
          refine ⟨rfl, .inl rfl, fun ha => absurd ?_ hlive⟩
          rw [ho, ha]
          rfl
        · exact .refl _ _
      generalize (if d.ownedByOther me then { d with owner := 0, auxowner := 0 } else d) = d' at hd
      obtain ⟨hcw, -, hcc, hcb⟩ := ihc hb
      generalize mlkFindBlockingChildLock alive me children st = r at hcw hcc hcb
      obtain ⟨children', st'⟩ := r
      simp only at hcw hcc hcb ⊢
      by_cases hb' : st'.blocked = true
      · rw [if_pos hb']
        refine ⟨.node hd hcw (.refl _ _) id, ?_, hcc, fun _ => .inr (.inl (hcb.1 hb')), fun _ => hb'⟩
        rw [ShrForest.tops, ShrForest.tops, hd.value]
      · rw [if_neg hb']
        have hb₀ : st'.blocked = false := by simpa using hb'
        obtain ⟨hrw, hrt, hrc, hrb⟩ := ihr hb₀
        refine ⟨.node hd hcw hrw (fun h => hrt ▸ h), ?_, hrc.trans hcc, fun h => .inr (.inr (hrb.1 h)), ?_⟩
        · rw [ShrForest.tops, hd.value]
          exact congrArg _ hrt
        · rintro (h | h | h)
          · exact absurd h hlive
          · exact absurd (hcb.2 h) hb'
          · exact hrb.2 h

/-! ## The walk -/

/-- The node asks the caller to leave it to a process that waits for it. -/
def MlkShrblk.mustYield (me : LockOwner) (yieldPid : Nat) (d : MlkShrblk σ) : Bool :=
  d.owner == 0 && (d.yieldsTo me yieldPid).isSome

/-- What `mlk_shrblk_find` does at a node on the way. -/
structure VisitSpec (alive : Nat → Bool) (me : LockOwner) (d : MlkShrblk σ) (st : FindState) (d' : MlkShrblk σ)
    (st' : FindState) : Prop where
  visited : Visited alive d' d
  blkfree : st'.ctl.blkfree = st.ctl.blkfree
  onward : st.ctl.Onward st'.ctl
  stays : st.blocked = true → st'.blocked = true
  blocked : st.blocked = false →
    (st'.blocked = true ↔ (d.ownedByOther me && alive d.owner) = true ∨ d.mustYield me st.yieldPid = true)
  free : st'.blocked = false →
    st'.yieldPid = st.yieldPid ∧ (d'.owner ≠ 0 → (⟨d'.owner, d'.auxowner⟩ : LockOwner) = me)

theorem shrblkVisit_spec (alive : Nat → Bool) (me : LockOwner) (d : MlkShrblk σ) (st : FindState) :
    VisitSpec alive me d st (shrblkVisit alive me d st).1 (shrblkVisit alive me d st).2 := by
  unfold shrblkVisit
  by_cases h0 : d.owner = 0
  · have hother : d.ownedByOther me = false := by simp [MlkShrblk.ownedByOther, h0]
    rw [if_neg (by simpa using h0)]
    cases hy : d.yieldsTo me st.yieldPid with
    | none =>
      exact ⟨.refl _ _, rfl, id, id, fun hb => by simp [hb, hother, MlkShrblk.mustYield, hy], fun _ => ⟨rfl, fun h => absurd h0 h⟩⟩
    | some pid =>
      obtain ⟨hv, ho, ha, hf, hon⟩ := mlkWakePending_spec alive d st.ctl
      refine ⟨⟨hv, .inr ⟨ho, ha⟩, fun _ => ⟨ho, ha⟩⟩, hf, hon, fun _ => rfl, fun _ => ?_, nofun⟩
      simp [MlkShrblk.mustYield, h0, hy]
  · rw [if_pos h0]
    have hny : d.mustYield me st.yieldPid = false := by simp [MlkShrblk.mustYield, h0]
    by_cases hother : d.ownedByOther me = true
    · rw [if_pos hother]
      by_cases hal : alive d.owner = true
      · rw [if_pos hal]
        exact ⟨.refl _ _, rfl, id, fun _ => rfl, fun _ => by simp [hother, hal], nofun⟩
      · rw [if_neg hal]
        exact ⟨⟨rfl, .inl rfl, fun h => absurd h hal⟩, rfl, id, id, fun hb => by simp [hb, hal, hny],
          fun _ => ⟨rfl, fun h => absurd rfl h⟩⟩
    · rw [if_neg hother]
      refine ⟨.refl _ _, rfl, id, id, fun hb => by simp [hb, hother, hny], fun _ => ⟨rfl, fun _ => ?_⟩⟩
      by_contra hne
      exact hother (ownedByOther_iff.2 ⟨h0, hne⟩)

variable [DecidableEq σ]

/-- Some node on the way, the one of the nref included, asks the caller to leave it to a process that waits for it. -/
def ShrForest.MustYield (me : LockOwner) (yieldPid : Nat) : ShrForest σ → List σ → Prop
  | .empty, _ => False
  | .node _ _ _, [] => False
  | .node d children rsib, value :: subs =>
    if d.value = value then d.mustYield me yieldPid = true ∨ children.MustYield me yieldPid subs
    else rsib.MustYield me yieldPid (value :: subs)

/-- The number of subscripts of an nref that have no node. -/
def ShrForest.missing : ShrForest σ → List σ → Nat
  | _, [] => 0
  | .empty, subs => subs.length
  | .node d children rsib, value :: subs =>
    if d.value = value then children.missing subs else rsib.missing (value :: subs)

/-- There is lock space for the nodes that are missing. -/
def Roomy (room : Nat → Bool) (free missing : Nat) : Prop :=
  missing ≤ free ∧ ∀ k, 0 < k → k ≤ missing → room k = true

/-- The nodes that are created, one below the other. -/
theorem shrblkCreateChain_spec (alive : Nat → Bool) (room : Nat → Bool) (subs : List σ) (st : FindState) :
    Walked alive (shrblkCreateChain room subs st).1 .empty ∧ (∀ t ∈ (shrblkCreateChain room subs st).1.tops, subs.head? = some t) ∧
    st.ctl.Onward (shrblkCreateChain room subs st).2.1.ctl ∧ (st.blocked = true → (shrblkCreateChain room subs st).2.1.blocked = true) ∧
    ((shrblkCreateChain room subs st).2.2 = true → (shrblkCreateChain room subs st).2.1.blocked = st.blocked) ∧
    ((shrblkCreateChain room subs st).2.2 = true ↔ Roomy room st.ctl.blkfree.length subs.length) ∧
    ((shrblkCreateChain room subs st).2.2 = true → subs ≠ [] →
      ∃ d, (shrblkCreateChain room subs st).1.nodeAt subs = some d ∧ d.owner = 0) := by
  induction subs generalizing st with
  | nil =>
    refine ⟨.refl _ _, by simp [shrblkCreateChain, ShrForest.tops], id, id, fun _ => rfl, ?_, fun _ h => absurd rfl h⟩
    exact ⟨fun _ => ⟨Nat.zero_le _, fun k h0 hk => absurd hk (Nat.not_le_of_lt h0)⟩, fun _ => rfl⟩
  | cons value subs ih =>
    rw [shrblkCreateChain]
    cases hc : mlkShrblkCreate room value (subs.length + 1) st.ctl with
    | none =>
      refine ⟨.refl _ _, by simp [ShrForest.tops], id, fun _ => rfl, (by intro h; cases h),
        ⟨(by intro h; cases h), fun hroom => ?_⟩, by intro h; cases h⟩
      exfalso
      unfold mlkShrblkCreate at hc
      cases hf : st.ctl.blkfree with
      | nil => simpa [hf] using hroom.1
      | cons idx blkfree =>
        have h1 : room (subs.length + 1) = true := hroom.2 _ (Nat.succ_pos _) (Nat.le_refl _)
        have h2 : subs.length + 1 ≤ st.ctl.blkfree.length := hroom.1
        simp only [hf] at hc h2
        rw [if_pos ⟨h1, h2⟩] at hc
        cases hc
    | some r =>
      obtain ⟨d, ctl⟩ := r
      obtain ⟨hd, hctl, hroom1, hlen⟩ : d.value = value ∧ d.owner = 0 ∧ room (subs.length + 1) = true ∧
          ctl.blkfree.length + 1 = st.ctl.blkfree.length ∧ st.ctl.Onward ctl ∧ subs.length + 1 ≤ st.ctl.blkfree.length := by
        unfold mlkShrblkCreate at hc
        cases hf : st.ctl.blkfree with
        | nil => simp [hf] at hc
        | cons idx blkfree =>
          simp only [hf] at hc
          split at hc
          · rename_i hr
            cases hc
            exact ⟨rfl, rfl, hr.1, rfl, id, hr.2⟩
          · cases hc
      obtain ⟨hlen, hon, -⟩ := hlen
      obtain ⟨hw, -, hon', hst, hfb, hfound, hnode⟩ := ih { st with ctl }
      refine ⟨⟨?_, (by intro _ h; cases h), fun _ => ⟨by simp [ShrForest.tops], hw.distinct trivial, trivial⟩⟩, ?_, fun h => hon' (hon h), hst, hfb,
        ?_, fun hf _ => ?_⟩
      · intro x hx
        rw [ShrForest.holders, hctl] at hx
        simp only [ne_eq, not_true_eq_false, if_false, List.nil_append, ShrForest.holders, List.append_nil] at hx
        obtain ⟨y, hy, rfl⟩ := List.mem_map.1 hx
        exact absurd (hw.holders hy) (by simp [ShrForest.holders])
      · intro t ht
        rw [ShrForest.tops, ShrForest.tops, List.mem_singleton] at ht
        rw [ht, hd]
        rfl
      · rw [hfound]
        simp only [Roomy, List.length_cons]
        constructor
        · rintro ⟨h1, h2⟩
          refine ⟨by omega, fun k h0 hk => ?_⟩
          rcases Nat.lt_or_ge k (subs.length + 1) with hlt | hge
          · exact h2 k h0 (by omega)
          · rw [Nat.le_antisymm hk hge]
            exact hroom1
        · rintro ⟨h1, h2⟩
          exact ⟨by omega, fun k h0 hk => h2 k h0 (by omega)⟩
      · rw [ShrForest.nodeAt, if_pos hd]
        by_cases hs : subs = []
        · exact ⟨d, by rw [if_pos hs], hctl⟩
        · obtain ⟨e, he, he0⟩ := hnode hf hs
          exact ⟨e, by rw [if_neg hs]; exact he, he0⟩

/-- What `mlk_shrblk_find` does. -/
structure FindSpec (alive : Nat → Bool) (room : Nat → Bool) (me : LockOwner) (f : ShrForest σ) (subs : List σ) (st : FindState)
    (r : ShrForest σ × FindState × Bool) : Prop where
  walked : Walked alive r.1 f
  tops : ∀ t ∈ r.1.tops, t ∈ f.tops ∨ subs.head? = some t
  onward : st.ctl.Onward r.2.1.ctl
  stays : st.blocked = true → r.2.1.blocked = true
  found : r.2.2 = true ↔ Roomy room st.ctl.blkfree.length (f.missing subs)
  blocked : f.Distinct → r.2.2 = true → st.blocked = false →
    (r.2.1.blocked = true ↔ f.Conflicts alive me subs ∨ f.MustYield me st.yieldPid subs)
  node : r.2.2 = true →
    ∃ d, r.1.nodeAt subs = some d ∧ (r.2.1.blocked = false → d.owner ≠ 0 → (⟨d.owner, d.auxowner⟩ : LockOwner) = me)

/-- The walk goes down one level or to the next sibling at each node, and the induction is on the tree. -/
theorem mlkShrblkFind_spec (alive : Nat → Bool) (room : Nat → Bool) (me : LockOwner) (f : ShrForest σ)
    (hs : subs ≠ []) (st : FindState) : FindSpec alive room me f subs st (mlkShrblkFind alive room me f subs st) := by
  induction f generalizing subs st with
  | empty =>
    obtain ⟨value, subs, rfl⟩ := List.exists_cons_of_ne_nil hs
    rw [mlkShrblkFind]
    obtain ⟨hw, htops, hon, hst, hfb, hfound, hnode⟩ := shrblkCreateChain_spec alive room (value :: subs) st
    refine ⟨hw, fun t ht => .inr (htops t ht), hon, hst, hfound, fun _ hf hb => ?_, fun hf => ?_⟩
    · rw [hfb hf, hb]
      exact ⟨(by intro h; cases h), fun h => h.elim (by rintro ⟨x, hx, -⟩; cases hx) False.elim⟩
    · obtain ⟨d, hd, h0⟩ := hnode hf hs
      exact ⟨d, hd, fun _ hne => absurd h0 hne⟩
  | node d children rsib ihc ihr =>
    obtain ⟨value, subs, rfl⟩ := List.exists_cons_of_ne_nil hs
    rw [mlkShrblkFind]
    by_cases hv : d.value = value
    · rw [if_pos hv]
      subst hv
      have hvis := shrblkVisit_spec alive me d st
      generalize shrblkVisit alive me d st = r at hvis
      obtain ⟨d', st₁⟩ := r
      simp only at hvis ⊢
      have htops : ∀ c r, ∀ t ∈ (ShrForest.node d' c r).tops,
          t ∈ (ShrForest.node d children r).tops ∨ (d.value :: subs).head? = some t := by
        intro c r t ht
        rw [ShrForest.tops, hvis.visited.value] at ht
        exact .inl ht
      have hmiss : (ShrForest.node d children rsib).missing (d.value :: subs) = children.missing subs := if_pos rfl
      have hyield : (ShrForest.node d children rsib).MustYield me st.yieldPid (d.value :: subs) ↔
          d.mustYield me st.yieldPid = true ∨ children.MustYield me st.yieldPid subs := by
        rw [ShrForest.MustYield, if_pos rfl]
      have hat : ∀ c, (ShrForest.node d' c rsib).nodeAt (d.value :: subs) = if subs = [] then some d' else c.nodeAt subs := by
        intro c
        rw [ShrForest.nodeAt, if_pos hvis.visited.value]
      by_cases hsub : subs = []
      · rw [if_pos hsub]
        subst hsub
        have hroom : Roomy room st.ctl.blkfree.length ((ShrForest.node d children rsib).missing [d.value]) := by
          rw [hmiss]
          cases children <;> exact ⟨Nat.zero_le _, fun k h0 hk => absurd hk (Nat.not_le_of_lt h0)⟩
        have hno : ¬ children.MustYield me st.yieldPid [] := by cases children <;> exact id
        by_cases hc : (!children.isEmpty && !st₁.blocked) = true
        · rw [if_pos hc]
          simp only [Bool.and_eq_true, Bool.not_eq_true'] at hc
          obtain ⟨hcw, hct, hcc, hcb⟩ := mlkFindBlockingChildLock_spec alive me children hc.2
          generalize mlkFindBlockingChildLock alive me children st₁ = r at hcw hct hcc hcb
          obtain ⟨children', st₂⟩ := r
          simp only at hcw hct hcc hcb ⊢
          refine ⟨.node hvis.visited hcw (.refl _ _) id, htops _ _, fun h => ?_, fun h => ?_, ⟨fun _ => hroom, fun _ => rfl⟩,
            fun hd _ hb => ?_, fun _ => ?_⟩
          · simp only [hcc]
            exact hvis.onward h
          · rw [hvis.stays h] at hc
            cases hc.2
          · rw [conflicts_here hd.1, hyield]
            have hnb := hvis.blocked hb
            rw [hc.2] at hnb
            constructor
            · exact fun h => .inl (.inr (hcb.1 h))
            · rintro ((h | h) | (h | h))
              · cases hnb.2 (.inl h)
              · exact hcb.2 h
              · cases hnb.2 (.inr h)
              · exact absurd h hno
          · exact ⟨d', by rw [hat, if_pos rfl], fun _ => (hvis.free hc.2).2⟩
        · rw [if_neg hc]
          refine ⟨.node hvis.visited (.refl _ _) (.refl _ _) id, htops _ _, hvis.onward, hvis.stays,
            ⟨fun _ => hroom, fun _ => rfl⟩, fun hd _ hb => ?_, fun _ => ?_⟩
          · rw [conflicts_here hd.1, hyield, hvis.blocked hb]
            constructor
            · rintro (h | h)
              · exact .inl (.inl h)
              · exact .inr (.inl h)
            · rintro ((h | h) | (h | h))
              · exact .inl h
              · -- there are children only when the caller is blocked already
                have hne : children.isEmpty = false := by
                  obtain ⟨x, hx, -⟩ := h
                  cases children with
                  | empty => cases hx
                  | node => rfl
                rw [hne] at hc
                exact (hvis.blocked hb).1 (by simpa using hc)
              · exact .inr h
              · exact absurd h hno
          · exact ⟨d', by rw [hat, if_pos rfl], fun hb => (hvis.free hb).2⟩
      · rw [if_neg hsub]
        have ih := ihc hsub st₁
        generalize mlkShrblkFind alive room me children subs st₁ = r at ih
        obtain ⟨children', st₂, found⟩ := r
        refine ⟨.node hvis.visited ih.walked (.refl _ _) id, htops _ _, fun h => ih.onward (hvis.onward h),
          fun h => ih.stays (hvis.stays h), ?_, fun hd hf hb => ?_, fun hf => ?_⟩
        · rw [hmiss, ← hvis.blkfree]
          exact ih.found
        · rw [conflicts_here hd.1, hyield]
          by_cases hb₁ : st₁.blocked = true
          · refine ⟨fun _ => ?_, fun _ => ih.stays hb₁⟩
            exact ((hvis.blocked hb).1 hb₁).elim (fun h => .inl (.inl h)) (fun h => .inr (.inl h))
          · have hb₁ : st₁.blocked = false := by simpa using hb₁
            have hnb := hvis.blocked hb
            rw [hb₁] at hnb
            have hcb := ih.blocked hd.2.1 hf hb₁
            rw [(hvis.free hb₁).1] at hcb
            constructor
            · exact fun h => (hcb.1 h).elim (fun h => .inl (.inr h)) (fun h => .inr (.inr h))
            · rintro ((h | h) | (h | h))
              · cases hnb.2 (.inl h)
              · exact hcb.2 (.inl h)
              · cases hnb.2 (.inr h)
              · exact hcb.2 (.inr h)
        · obtain ⟨e, he, hfree⟩ := ih.node hf
          exact ⟨e, by rw [hat, if_neg hsub]; exact he, hfree⟩
    · rw [if_neg hv]
      have ih := ihr (List.cons_ne_nil value subs) st
      generalize mlkShrblkFind alive room me rsib (value :: subs) st = r at ih
      refine ⟨.node (.refl _ _) (.refl _ _) ih.walked (fun h hm => ?_), fun t ht => ?_, ih.onward, ih.stays, ?_,
        fun hd hf hb => ?_, fun hf => ?_⟩
      · rcases ih.tops _ hm with hm | hm
        · exact h hm
        · exact hv (Option.some.inj hm).symm
      · rcases List.mem_cons.1 ht with rfl | ht
        · exact .inl List.mem_cons_self
        · exact (ih.tops t ht).imp (List.mem_cons_of_mem _) id
      · rw [ShrForest.missing, if_neg hv]
        exact ih.found
      · rw [conflicts_next hv, ShrForest.MustYield, if_neg hv]
        exact ih.blocked hd.2.2 hf hb
      · obtain ⟨e, he, hfree⟩ := ih.node hf
        exact ⟨e, by rw [ShrForest.nodeAt, if_neg hv]; exact he, hfree⟩

end LockFind

end Gtm
