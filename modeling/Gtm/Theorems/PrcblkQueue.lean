import Gtm.Mlk.Prcblk

/-!
# What the calls do to the queues

A call moves blocks between the free list and the queue of its node. Each routine is followed along that queue once; what it does is
then said of the lists.
-/

namespace Gtm

open Function PtrList

variable {δ α : Type} [DecidableEq δ] [DecidableEq α]

theorem short_eq {x : Int} (h : 0 ≤ x) (hx : x ≤ 32767) : short x = x := by
  rw [short, Int.bmod_def]
  omega

omit [DecidableEq α] in
/-- Only what the condition says of the members matters. -/
theorem while_congr {p q : α → Bool} {l : List α} (h : ∀ x ∈ l, p x = q x) :
    l.takeWhile p = l.takeWhile q ∧ l.dropWhile p = l.dropWhile q := by
  induction l with
  | nil => exact ⟨rfl, rfl⟩
  | cons a l ih =>
    obtain ⟨ht, hd⟩ := ih fun x hx => h x (by simp [hx])
    simp only [List.takeWhile_cons, List.dropWhile_cons, h a (by simp), ht, hd, true_and]

namespace PrcSpace

/-- The lists of a lock space: the free blocks, and the queue of each node. -/
def lists (frees : List α) (queue : δ → List α) : Option δ → List α
  | none => frees
  | some d => queue d

omit [DecidableEq α] in
theorem update_lists (frees frees' : List α) (queue : δ → List α) (d : δ) (l : List α) :
    update (update (lists frees queue) (some d) l) none frees' = lists frees' (update queue d l) := by
  funext i
  cases i with
  | none => simp [lists]
  | some e => by_cases h : e = d <;> simp [lists, h, update]

omit [DecidableEq α] in
theorem update_root (s s' : PrcSpace δ α) {d : δ} {r : Option α} (h : s'.pending = update s.pending d r) :
    update (update s.root (some d) r) none s'.prcfree = s'.root := by
  funext i
  cases i with
  | none => simp [root]
  | some e => by_cases he : e = d <;> simp [root, h, he, update]

section Link

variable (s : PrcSpace δ α) (d : δ) (prpt r : Option α)

@[simp] theorem setLink_next : (s.setLink d prpt r).next = link s.next prpt r := by cases prpt <;> rfl

@[simp] theorem setLink_pending : (s.setLink d prpt r).pending = update s.pending d (linkRoot (s.pending d) prpt r) := by
  cases prpt <;> simp [setLink, linkRoot]

@[simp] theorem setLink_processId : (s.setLink d prpt r).processId = s.processId := by cases prpt <;> rfl

@[simp] theorem setLink_refCnt : (s.setLink d prpt r).refCnt = s.refCnt := by cases prpt <;> rfl

@[simp] theorem setLink_prcfree : (s.setLink d prpt r).prcfree = s.prcfree := by cases prpt <;> rfl

@[simp] theorem setLink_prccnt : (s.setLink d prpt r).prccnt = s.prccnt := by cases prpt <;> rfl

@[simp] theorem setLink_maxPrccnt : (s.setLink d prpt r).maxPrccnt = s.maxPrccnt := by cases prpt <;> rfl

end Link

variable [Fintype δ]

/-- The lists of a lock space, whatever the blocks hold: `prccnt` of the blocks are free, and the others are in the queues. -/
structure Kept (s : PrcSpace δ α) (blocks frees : List α) (queue : δ → List α) : Prop where
  pool : Pool s.next s.root (lists frees queue) blocks
  prccnt : s.prccnt = frees.length
  top : s.maxPrccnt = blocks.length

section Moves

variable {s s' : PrcSpace δ α} {blocks frees : List α} {queue : δ → List α} {d : δ} {a : α}

section
variable (h : s.Kept blocks frees queue)
include h

omit [DecidableEq δ] [DecidableEq α] in
theorem Kept.congr (hnext : s'.next = s.next) (hroot : s'.root = s.root) (hcnt : s'.prccnt = s.prccnt)
    (htop : s'.maxPrccnt = s.maxPrccnt) : s'.Kept blocks frees queue :=
  ⟨by rw [hnext, hroot]; exact h.pool, hcnt.trans h.prccnt, htop.trans h.top⟩

omit [DecidableEq δ] [DecidableEq α] in
theorem Kept.queued (d : δ) : IsList s.next (s.pending d) (queue d) := h.pool.isList (some d)

omit [DecidableEq δ] [DecidableEq α] in
theorem Kept.length_le (d : δ) : (queue d).length ≤ s.maxPrccnt := h.top ▸ h.pool.length_le (some d)

/-- A block of a queue becomes free. -/
theorem Kept.freePrc {pre post : List α} (hq : queue d = pre ++ a :: post) :
    (s.freePrc d pre.getLast? a).Kept blocks (a :: frees) (update queue d (pre ++ post)) := by
  have hmove := h.pool.unlinkPush (i := some d) (j := none) hq (by simp)
  refine ⟨?_, by simp [PrcSpace.freePrc, h.prccnt], by simp [PrcSpace.freePrc, h.top]⟩
  rw [update_lists] at hmove
  have hroot := update_root s (s.freePrc d pre.getLast? a) (by simp [PrcSpace.freePrc]; rfl)
  have hnext : (s.freePrc d pre.getLast? a).next = update (link s.next pre.getLast? (s.next a)) a s.prcfree := by
    simp [PrcSpace.freePrc]
  rw [← hroot, hnext]
  exact hmove

end

/-- The first free block is put behind the last of a queue. -/
theorem Kept.takeAppend (h : s.Kept blocks (a :: frees) queue) (hpending : s'.pending = update s.pending d
      (linkRoot (s.pending d) (queue d).getLast? (some a)))
    (hnext : s'.next = update (link s.next (queue d).getLast? (some a)) a none) (hfree : s'.prcfree = s.next a)
    (hcnt : s'.prccnt = s.prccnt - 1) (htop : s'.maxPrccnt = s.maxPrccnt) : s'.Kept blocks frees (update queue d (queue d ++ [a])) := by
  have hmove := h.pool.takeAppend (j := some d) (show lists (a :: frees) queue none = a :: frees from rfl) (by simp)
  refine ⟨?_, by simp [hcnt, h.prccnt], htop.trans h.top⟩
  rw [update_comm (by simp) _ _ (lists (a :: frees) queue), update_comm (by simp) _ _ s.root, update_lists] at hmove
  rw [← update_root s s' hpending, hnext, hfree]
  exact hmove

end Moves

/-! ## The loops -/

section Loops

variable {s : PrcSpace δ α} {blocks frees : List α} {queue : δ → List α} {d : δ} {a : α} {pid : Nat} {fuel : Nat} {l pre rest : List α}

omit [Fintype δ] [DecidableEq δ] [DecidableEq α] in
/-- The search of `mlk_prcblk_add` ends at the block of the process, or behind the last block. -/
theorem findPrc_split (pid : Nat) {r : Option α} (h : IsList s.next r l) (hf : l.length ≤ fuel) (prev : Option α) :
    ((∀ x ∈ l, s.processId x ≠ pid) ∧ s.findPrc pid fuel prev r = (l.getLast?.or prev, none)) ∨
      ∃ a ∈ l, s.processId a = pid ∧ ∃ prpt, s.findPrc pid fuel prev r = (prpt, some a) := by
  induction l generalizing r fuel prev with
  | nil =>
    obtain rfl : r = none := h
    refine .inl ⟨nofun, ?_⟩
    cases fuel <;> rfl
  | cons a l ih =>
    obtain ⟨rfl, hl⟩ := h
    cases fuel with
    | zero => simp at hf
    | succ fuel =>
      rw [findPrc]
      by_cases ha : s.processId a = pid
      · exact .inr ⟨a, by simp, ha, prev, if_pos ha⟩
      · rw [if_neg ha]
        rcases ih hl (by simpa using hf) (some a) with ⟨hnone, hfind⟩ | ⟨b, hb, hpid, prpt, hfind⟩
        · refine .inl ⟨?_, ?_⟩
          · simpa [ha] using hnone
          · rw [hfind, List.getLast?_cons]
            cases l.getLast? <;> rfl
        · exact .inr ⟨b, by simp [hb], hpid, prpt, hfind⟩

/-- A block that a delete for the process frees. -/
def leaves (s : PrcSpace δ α) (pid : Nat) (a : α) : Bool := s.processId a = pid ∧ short (s.refCnt a - 1) ≤ 0

/-- A count behind a delete for the process. -/
def lessOne (s : PrcSpace δ α) (pid : Nat) (a : α) : Int := if s.processId a = pid then short (s.refCnt a - 1) else s.refCnt a

/-- What a delete along these blocks leaves in all that are not freed. -/
structure Deleted (s s' : PrcSpace δ α) (pid : Nat) (l : List α) : Prop where
  processId {x : α} (hx : x ∉ l.filter (s.leaves pid)) : s'.processId x = s.processId x
  refCnt {x : α} (hx : x ∉ l.filter (s.leaves pid)) : s'.refCnt x = if x ∈ l then s.lessOne pid x else s.refCnt x

omit [Fintype δ] [DecidableEq δ] [DecidableEq α] in
/-- The count of a block that is not looked at again does not matter to the rest of the loop. -/
theorem leaves_filter_congr (s s' : PrcSpace δ α) (pid : Nat) (hpid : ∀ x ∈ l, s'.processId x = s.processId x)
    (hcnt : ∀ x ∈ l, s'.refCnt x = s.refCnt x) : l.filter (s'.leaves pid) = l.filter (s.leaves pid) ∧
      (l.filter fun x => !s'.leaves pid x) = l.filter fun x => !s.leaves pid x := by
  constructor <;>
  · refine List.filter_congr fun x hx => ?_
    simp only [leaves, hpid x hx, hcnt x hx]

omit [Fintype δ] [DecidableEq δ] in
/-- A block that stays, at the front of the rest. -/
theorem Deleted.cons_stays {s₁ s' : PrcSpace δ α} (h : Deleted s₁ s' pid rest) (har : a ∉ rest) (hpid : s₁.processId = s.processId)
    (hcnt : s₁.refCnt = update s.refCnt a (s.lessOne pid a)) (hstay : s.leaves pid a = false) : Deleted s s' pid (a :: rest) := by
  have hne : ∀ x ∈ rest, x ≠ a := fun x hx => ne_of_mem_of_not_mem hx har
  obtain ⟨hfil, -⟩ := leaves_filter_congr (l := rest) s s₁ pid (fun x _ => by rw [hpid])
    fun x hx => by rw [hcnt, update_of_ne (hne x hx)]
  have hfilter : (a :: rest).filter (s.leaves pid) = rest.filter (s₁.leaves pid) := by simp [hstay, hfil]
  constructor
  · intro x hx
    rw [h.processId (hfilter ▸ hx), hpid]
  · intro x hx
    rw [h.refCnt (hfilter ▸ hx)]
    by_cases hxa : x = a
    · subst hxa
      simp [har, hcnt]
    · simp [hxa, lessOne, hpid, hcnt]

omit [Fintype δ] [DecidableEq δ] in
/-- A block that is freed, at the front of the rest. -/
theorem Deleted.cons_leaves {s₁ s' : PrcSpace δ α} (h : Deleted s₁ s' pid rest) (har : a ∉ rest)
    (hpid : ∀ x, x ≠ a → s₁.processId x = s.processId x) (hcnt : ∀ x, x ≠ a → s₁.refCnt x = s.refCnt x)
    (hgo : s.leaves pid a = true) : Deleted s s' pid (a :: rest) := by
  have hne : ∀ x ∈ rest, x ≠ a := fun x hx => ne_of_mem_of_not_mem hx har
  obtain ⟨hfil, -⟩ := leaves_filter_congr (l := rest) s s₁ pid (fun x hx => hpid x (hne x hx))
    fun x hx => hcnt x (hne x hx)
  have hfilter : (a :: rest).filter (s.leaves pid) = a :: rest.filter (s₁.leaves pid) := by simp [hgo, hfil]
  constructor
  · intro x hx
    rw [hfilter, List.mem_cons, not_or] at hx
    rw [h.processId hx.2, hpid x hx.1]
  · intro x hx
    rw [hfilter, List.mem_cons, not_or] at hx
    rw [h.refCnt hx.2]
    simp [hx.1, lessOne, hpid x hx.1, hcnt x hx.1]

/-- The loop of `mlk_prcblk_delete` along the rest of a queue. -/
theorem deleteLoop_spec (h : s.Kept blocks frees queue) (hq : queue d = pre ++ rest)
    (hone : pid = 0 ∨ (rest.map s.processId).Nodup) (hf : rest.length ≤ fuel) :
    ∃ s', deleteLoop d pid fuel pre.getLast? rest.head? s = some s' ∧ Deleted s s' pid rest ∧
      s'.Kept blocks ((rest.filter (s.leaves pid)).reverse ++ frees) (update queue d (pre ++ rest.filter fun x => !s.leaves pid x)) := by
  induction rest generalizing s frees queue pre fuel with
  | nil =>
    refine ⟨s, by cases fuel <;> rfl, ⟨fun _ => rfl, fun _ => rfl⟩, ?_⟩
    have hqueue : update queue d (pre ++ []) = queue := by rw [← hq, update_eq_self]
    simpa only [List.filter_nil, List.reverse_nil, List.nil_append, hqueue] using h
  | cons a rest ih =>
    obtain ⟨fuel, rfl⟩ : ∃ n, fuel = n + 1 := ⟨fuel - 1, by simp only [List.length_cons] at hf; omega⟩
    have hfuel : rest.length ≤ fuel := by simpa using hf
    have hnd : (pre ++ a :: rest).Nodup := hq ▸ h.pool.list_nodup (some d)
    have har : a ∉ rest := (List.nodup_cons.1 (List.nodup_append.1 hnd).2.1).1
    have hnext : s.next a = rest.head? := by
      have hlist : IsList s.next (s.pending d) (pre ++ a :: rest) := hq ▸ h.queued d
      exact hlist.append_right.2.eq_head?
    have hsnoc : queue d = (pre ++ [a]) ++ rest := by rw [hq, List.append_assoc]; rfl
    have hlast : (pre ++ [a]).getLast? = some a := by simp
    -- the loop goes on behind a block that stays, with its count as it is now
    have hstays : ∀ s₁ : PrcSpace δ α, s₁.Kept blocks frees queue → s₁.processId = s.processId →
        s₁.refCnt = update s.refCnt a (s.lessOne pid a) → s.leaves pid a = false →
        ∃ s', deleteLoop d pid fuel (some a) rest.head? s₁ = some s' ∧ Deleted s s' pid (a :: rest) ∧
          s'.Kept blocks (((a :: rest).filter (s.leaves pid)).reverse ++ frees)
            (update queue d (pre ++ (a :: rest).filter fun x => !s.leaves pid x)) := by
      intro s₁ h₁ hpid hcnt hstay
      obtain ⟨s', hs', hdel, hkept⟩ := ih h₁ hsnoc (hone.imp_right fun hn => by rw [hpid]; exact (List.nodup_cons.1 hn).2) hfuel
      rw [hlast] at hs'
      obtain ⟨hfil, hfil'⟩ := leaves_filter_congr (l := rest) s s₁ pid (fun x _ => by rw [hpid])
        fun x hx => by rw [hcnt, update_of_ne (ne_of_mem_of_not_mem hx har)]
      refine ⟨s', hs', hdel.cons_stays har hpid hcnt hstay, ?_⟩
      rw [hfil, hfil'] at hkept
      simpa [hstay] using hkept
    rw [List.head?_cons, deleteLoop]
    by_cases hpid : s.processId a = pid
    · rw [if_pos hpid]
      have h₁ : ({ s with refCnt := update s.refCnt a (short (s.refCnt a - 1)) } : PrcSpace δ α).Kept blocks frees queue :=
        h.congr rfl rfl rfl rfl
      by_cases hle : short (s.refCnt a - 1) ≤ 0
      · have hgo : s.leaves pid a = true := by simp [leaves, hpid, hle]
        have h₂ := h₁.freePrc hq
        have hpid₂ : ∀ x, x ≠ a → (PrcSpace.freePrc { s with refCnt := update s.refCnt a (short (s.refCnt a - 1)) } d
            pre.getLast? a).processId x = s.processId x := fun x hx => by simp [PrcSpace.freePrc, hx]
        have hcnt₂ : ∀ x, x ≠ a → (PrcSpace.freePrc { s with refCnt := update s.refCnt a (short (s.refCnt a - 1)) } d
            pre.getLast? a).refCnt x = s.refCnt x := fun x hx => by simp [PrcSpace.freePrc, hx]
        have hne : ∀ x ∈ rest, x ≠ a := fun x hx => ne_of_mem_of_not_mem hx har
        obtain ⟨hfil, hfil'⟩ := leaves_filter_congr s _ pid (fun x hx => hpid₂ x (hne x hx)) fun x hx => hcnt₂ x (hne x hx)
        simp only [if_pos hle]
        by_cases h0 : pid = 0
        · rw [if_neg (by simp [h0])]
          obtain ⟨s', hs', hdel, hkept⟩ := ih h₂ (update_self ..) (.inl h0) hfuel
          rw [hnext]
          refine ⟨s', hs', hdel.cons_leaves har hpid₂ hcnt₂ hgo, ?_⟩
          rw [hfil, hfil'] at hkept
          simpa [hgo] using hkept
        · rw [if_pos (Ne.symm h0)]
          have hnone : ∀ x ∈ rest, s.processId x ≠ pid := fun x hx hx' => by
            have hmap := (List.nodup_cons.1 (hone.resolve_left h0)).1
            exact hmap (List.mem_map.2 ⟨x, hx, hx'.trans hpid.symm⟩)
          have hrest : rest.filter (s.leaves pid) = [] ∧ (rest.filter fun x => !s.leaves pid x) = rest := by
            rw [List.filter_eq_nil_iff, List.filter_eq_self]
            constructor <;> intro x hx <;> simp [leaves, hnone x hx]
          refine ⟨_, rfl, Deleted.cons_leaves ⟨fun _ => rfl, fun {x} hx => ?_⟩ har hpid₂ hcnt₂ hgo, ?_⟩
          · split
            · next hxr => rw [lessOne, if_neg (hpid₂ x (hne x hxr) ▸ hnone x hxr)]
            · rfl
          · simpa [hgo, hrest] using h₂
      · have hstay : s.leaves pid a = false := by simp [leaves, hle]
        simp only [if_neg hle, hnext]
        exact hstays _ h₁ rfl (by simp [lessOne, hpid]) hstay
    · have hstay : s.leaves pid a = false := by simp [leaves, hpid]
      rw [if_neg hpid, hnext]
      exact hstays s h rfl (by simp [lessOne, hpid]) hstay

/-- `mlk_prcblk_delete` on a queue. -/
theorem mlkPrcblkDelete_spec (h : s.Kept blocks frees queue) (d : δ) (pid : Nat) (hone : pid = 0 ∨ ((queue d).map s.processId).Nodup) :
    ∃ s', s.mlkPrcblkDelete d pid = some s' ∧ Deleted s s' pid (queue d) ∧ s'.Kept blocks (((queue d).filter (s.leaves pid)).reverse ++ frees)
        (update queue d ((queue d).filter fun x => !s.leaves pid x)) := by
  have := deleteLoop_spec h (show queue d = [] ++ queue d from rfl) hone (h.length_le d)
  rwa [← (h.queued d).eq_head?] at this

/-- A block at the head of a queue, its count set to one, is all that a delete for its process frees. -/
theorem deleteHead_spec (h : s.Kept blocks frees queue) (hq : queue d = a :: rest) (hone : ((queue d).map s.processId).Nodup) :
    ∃ s', mlkPrcblkDelete { s with refCnt := update s.refCnt a 1 } d (s.processId a) = some s' ∧
      s'.Kept blocks (a :: frees) (update queue d rest) ∧ ∀ x, x ≠ a → s'.processId x = s.processId x ∧ s'.refCnt x = s.refCnt x := by
  have h₁ : ({ s with refCnt := update s.refCnt a 1 } : PrcSpace δ α).Kept blocks frees queue := h.congr rfl rfl rfl rfl
  obtain ⟨s', hs', hdel, hkept⟩ := mlkPrcblkDelete_spec h₁ d (s.processId a) (.inr hone)
  rw [hq, List.map_cons, List.nodup_cons] at hone
  have hother : ∀ x ∈ rest, s.processId x ≠ s.processId a := fun x hx hxa => hone.1 (List.mem_map.2 ⟨x, hx, hxa⟩)
  have hrest : rest.filter (leaves { s with refCnt := update s.refCnt a 1 } (s.processId a)) = [] ∧
      (rest.filter fun x => !leaves { s with refCnt := update s.refCnt a 1 } (s.processId a) x) = rest := by
    rw [List.filter_eq_nil_iff, List.filter_eq_self]
    constructor <;> intro x hx <;> simp [leaves, hother x hx]
  have hhead : leaves { s with refCnt := update s.refCnt a 1 } (s.processId a) a = true := by simp [leaves, short]
  have hfilter : (queue d).filter (leaves { s with refCnt := update s.refCnt a 1 } (s.processId a)) = [a] := by
    simp [hq, hhead, hrest]
  refine ⟨s', hs', ?_, fun x hx => ?_⟩
  · simpa [hq, hhead, hrest] using hkept
  · have hxf : x ∉ (queue d).filter (leaves { s with refCnt := update s.refCnt a 1 } (s.processId a)) := by simp [hfilter, hx]
    refine ⟨hdel.processId hxf, ?_⟩
    rw [hdel.refCnt hxf]
    split
    · next hxq =>
      have hxr : x ∈ rest := by simpa [hq, hx] using hxq
      simp [lessOne, hother x hxr, hx]
    · exact update_of_ne hx _ _

/-- A block whose process is gone, or has been cleared. -/
def isGone (s : PrcSpace δ α) (gone : Nat → Bool) (a : α) : Bool := s.processId a = 0 || gone (s.processId a)

/-- The loop of `mlk_wake_pending` frees the blocks at the head of the queue whose processes are gone. -/
theorem wakeLoop_spec (gone : Nat → Bool) (h : s.Kept blocks frees queue) (hq : queue d = a :: rest)
    (hone : ((queue d).map s.processId).Nodup) (hf : rest.length < fuel) : ∃ s' woken, wakeLoop gone d fuel a s = some (s', woken) ∧
      s'.Kept blocks (((queue d).takeWhile (s.isGone gone)).reverse ++ frees) (update queue d ((queue d).dropWhile (s.isGone gone))) ∧
      ∀ x, x ∉ (queue d).takeWhile (s.isGone gone) → s'.processId x = s.processId x ∧ s'.refCnt x = s.refCnt x := by
  induction rest generalizing s frees queue a fuel with
  | nil =>
    obtain ⟨fuel, rfl⟩ : ∃ n, fuel = n + 1 := ⟨fuel - 1, by omega⟩
    have hnext : s.next a = none := (hq ▸ h.queued d).2
    rw [wakeLoop]
    by_cases hgone : s.processId a = 0 ∨ gone (s.processId a) = true
    · obtain ⟨s', hs', hkept, hdata⟩ := deleteHead_spec h hq hone
      rw [if_pos hgone, hs']
      refine ⟨s', none, by simp only [hnext], ?_⟩
      have hg : s.isGone gone a = true := by simpa [isGone] using hgone
      simpa [hq, hg] using ⟨hkept, hdata⟩
    · rw [if_neg hgone]
      have hg : s.isGone gone a = false := by simpa [isGone] using hgone
      have hqueue : update queue d [a] = queue := by rw [← hq, update_eq_self]
      exact ⟨s, _, rfl, by simpa [hq, hg, hqueue] using h, fun _ _ => ⟨rfl, rfl⟩⟩
  | cons b rest ih =>
    obtain ⟨fuel, rfl⟩ : ∃ n, fuel = n + 1 := ⟨fuel - 1, by omega⟩
    have hnext : s.next a = some b := (hq ▸ h.queued d).2.1
    rw [wakeLoop]
    by_cases hgone : s.processId a = 0 ∨ gone (s.processId a) = true
    · obtain ⟨s₁, hs₁, hkept, hdata⟩ := deleteHead_spec h hq hone
      have hanot : a ∉ b :: rest := (List.nodup_cons.1 (hq ▸ h.pool.list_nodup (some d))).1
      have hsame : ∀ x ∈ b :: rest, s₁.processId x = s.processId x := fun x hx => (hdata x (ne_of_mem_of_not_mem hx hanot)).1
      have hpids : ((update queue d (b :: rest) d).map s₁.processId).Nodup := by
        rw [update_self, List.map_congr_left hsame]
        exact (List.nodup_cons.1 (by simpa [hq] using hone)).2
      obtain ⟨s', woken, hs', hkept', hdata'⟩ := ih hkept (update_self ..) hpids (by simpa using hf)
      have hg : s.isGone gone a = true := by simpa [isGone] using hgone
      obtain ⟨htake, hdrop⟩ := while_congr (p := s₁.isGone gone) (q := s.isGone gone) (l := b :: rest) fun x hx => by
        simp only [isGone, hsame x hx]
      rw [update_self, htake] at hdata'
      rw [update_self, htake, hdrop] at hkept'
      rw [if_pos hgone, hs₁]
      refine ⟨s', woken, by simp only [hnext]; exact hs', ?_, fun x hx => ?_⟩
      · simpa [hq, hg] using hkept'
      · rw [hq, List.takeWhile_cons_of_pos hg, List.mem_cons, not_or] at hx
        obtain ⟨hp, hr⟩ := hdata x hx.1
        obtain ⟨hp', hr'⟩ := hdata' x hx.2
        exact ⟨hp'.trans hp, hr'.trans hr⟩
    · rw [if_neg hgone]
      have hg : s.isGone gone a = false := by simpa [isGone] using hgone
      have hqueue : update queue d (a :: b :: rest) = queue := by rw [← hq, update_eq_self]
      exact ⟨s, _, rfl, by simpa [hq, hg, hqueue] using h, fun _ _ => ⟨rfl, rfl⟩⟩

/-- `mlk_wake_pending` on a queue. -/
theorem mlkWakePending_spec (gone : Nat → Bool) (h : s.Kept blocks frees queue) (hone : ((queue d).map s.processId).Nodup) :
    ∃ s' woken, s.mlkWakePending d gone = some (s', woken) ∧
      s'.Kept blocks (((queue d).takeWhile (s.isGone gone)).reverse ++ frees) (update queue d ((queue d).dropWhile (s.isGone gone))) ∧
      ∀ x, x ∉ (queue d).takeWhile (s.isGone gone) → s'.processId x = s.processId x ∧ s'.refCnt x = s.refCnt x := by
  cases hq : queue d with
  | nil =>
    have hnone : s.pending d = none := by simpa [hq] using h.queued d
    have hqueue : update queue d [] = queue := by rw [← hq, update_eq_self]
    exact ⟨s, none, by rw [mlkWakePending, hnone], by simpa [hqueue] using h, fun _ _ => ⟨rfl, rfl⟩⟩
  | cons a rest =>
    have hsome : s.pending d = some a := by simpa [hq] using (h.queued d).eq_head?
    have hlen : rest.length + 1 ≤ s.maxPrccnt := by simpa [hq] using h.length_le d
    rw [mlkWakePending, hsome, ← hq]
    exact wakeLoop_spec gone (h.congr rfl rfl rfl rfl) hq hone hlen

/-- `mlk_prcblk_add` on a queue: the process has a block there already, or there is none free, or it gets the first of those. -/
theorem mlkPrcblkAdd_spec (h : s.Kept blocks frees queue) (d : δ) (pid : Nat) :
    (∃ a ∈ queue d, s.processId a = pid ∧
      s.mlkPrcblkAdd d pid = ({ s with refCnt := update s.refCnt a (short (s.refCnt a + 1)) }, true)) ∨
    (∀ x ∈ queue d, s.processId x ≠ pid) ∧ ((frees = [] ∧ s.mlkPrcblkAdd d pid = (s, false)) ∨
        ∃ a frees' s', frees = a :: frees' ∧ s.mlkPrcblkAdd d pid = (s', true) ∧
          s'.Kept blocks frees' (update queue d (queue d ++ [a])) ∧ s'.processId = update s.processId a pid ∧
          s'.refCnt = update s.refCnt a 1) := by
  rcases findPrc_split pid (h.queued d) (h.length_le d) none with ⟨hnone, hfind⟩ | ⟨a, ha, hpid, prpt, hfind⟩
  · refine .inr ⟨hnone, ?_⟩
    rw [mlkPrcblkAdd, hfind]
    cases frees with
    | nil => exact .inl ⟨rfl, if_pos (by simp [h.prccnt])⟩
    | cons a frees =>
      have hfree : s.prcfree = some a := (h.pool.isList none).1
      simp only [hfree]
      rw [if_neg (by simp [h.prccnt])]
      refine .inr ⟨a, frees, _, rfl, rfl, h.takeAppend (d := d) ?_ ?_ ?_ ?_ ?_, ?_, ?_⟩ <;> simp
  · exact .inl ⟨a, ha, hpid, by rw [mlkPrcblkAdd, hfind]⟩

end Loops

end PrcSpace

end Gtm

/-!
## Waiting in line

Whatever calls are made, the blocks stay divided between the free list, of `prccnt` blocks, and the queues, and no process is queued
twice for a node. As long as no process has more adds outstanding than a `short` can count, the queues are the lines in which the
processes came, and the reference counts the numbers of their adds.
-/

namespace Gtm

open Function

variable {δ α : Type} [DecidableEq δ] [DecidableEq α]

/-- No process waits, and there is room for so many. -/
def WaitLines.empty (room : Nat) : WaitLines δ := ⟨fun _ => [], room, 0⟩

/-- No process in the lines has more adds outstanding than a `short` can count. -/
def WaitLines.Countable (w : WaitLines δ) : Prop := ∀ d, ∀ x ∈ w.line d, x.adds ≤ 32767

/-- The processes of a line in the order they came. -/
def WaitLines.Ordered (w : WaitLines δ) : Prop := ∀ d, (w.line d).Pairwise fun x y => x.came < y.came

/-- What a line has of a process. -/
def Waiter.entry (x : Waiter) : Nat × Int := (x.pid, x.adds)

/-- What a block has of a process. -/
def PrcSpace.entry (s : PrcSpace δ α) (a : α) : Nat × Int := (s.processId a, s.refCnt a)

/-- The blocks are divided between the free list and the queues, and no process is queued twice for a node. -/
structure PrcSpace.Orderly [Fintype δ] (s : PrcSpace δ α) (blocks frees : List α) (queue : δ → List α) : Prop extends
    s.Kept blocks frees queue where
  once (d : δ) : ((queue d).map s.processId).Nodup

namespace PrcblkAux

section Lines

/-- The times in a line ascend, up to now. -/
structure Timed (w : WaitLines δ) : Prop where
  ordered : w.Ordered
  past {d : δ} {x : Waiter} (h : x ∈ w.line d) : x.came < w.clock

/-- A line that has become shorter. -/
theorem Timed.shorten {w : WaitLines δ} (h : Timed w) {d : δ} {l : List Waiter}
    (hl : (l.map Waiter.came).Sublist ((w.line d).map Waiter.came)) : Timed (w.shorten d l) := by
  refine ⟨fun e => ?_, fun {e x} hx => ?_⟩
  · by_cases he : e = d
    · subst he
      have hcame := List.pairwise_map.2 (h.ordered e)
      simpa [WaitLines.shorten] using List.pairwise_map.1 (hcame.sublist hl)
    · simpa [WaitLines.shorten, he] using h.ordered e
  · have hnow : ∀ y ∈ w.line e, y.came < w.clock + 1 := fun y hy => Nat.lt_succ_of_lt (h.past hy)
    by_cases he : e = d
    · subst he
      have hx' : x ∈ l := by simpa [WaitLines.shorten] using hx
      obtain ⟨y, hy, hxy⟩ := List.mem_map.1 (hl.subset (List.mem_map_of_mem hx'))
      rw [← hxy]
      exact hnow y hy
    · exact hnow x (by simpa [WaitLines.shorten, he] using hx)

theorem Timed.add {w : WaitLines δ} (h : Timed w) (d : δ) (pid : Nat) : Timed (w.add d pid) := by
  have hnow : ∀ e, ∀ y ∈ w.line e, y.came < w.clock + 1 := fun e y hy => Nat.lt_succ_of_lt (h.past hy)
  rw [WaitLines.add]
  split
  · have hcame : ∀ x : Waiter, (if x.pid = pid then { x with adds := x.adds + 1 } else x).came = x.came := fun x => by split <;> rfl
    refine ⟨fun e => ?_, fun {e x} hx => ?_⟩
    · by_cases he : e = d
      · subst he
        simpa [List.pairwise_map, hcame] using h.ordered e
      · simpa [he] using h.ordered e
    · by_cases he : e = d
      · subst he
        obtain ⟨y, hy, rfl⟩ := List.mem_map.1 (show x ∈ (w.line e).map _ by simpa using hx)
        rw [hcame]
        exact hnow e y hy
      · exact hnow e x (by simpa [he] using hx)
  split
  · exact ⟨h.ordered, fun hx => hnow _ _ hx⟩
  · refine ⟨fun e => ?_, fun {e x} hx => ?_⟩
    · by_cases he : e = d
      · subst he
        simpa [List.pairwise_append, h.ordered e] using fun y hy => h.past hy
      · simpa [he] using h.ordered e
    · by_cases he : e = d
      · subst he
        rcases (by simpa using hx : x ∈ w.line e ∨ x = ⟨pid, 1, w.clock⟩) with hx | rfl
        · exact hnow e x hx
        · exact Nat.lt_succ_self _
      · exact hnow e x (by simpa [he] using hx)

theorem Timed.step {w : WaitLines δ} (h : Timed w) (op : PrcOp δ) : Timed (w.step op) := by
  cases op with
  | add d pid => exact h.add d pid
  | delete d pid =>
    refine h.shorten ?_
    generalize w.line d = l
    induction l with
    | nil => exact List.Sublist.slnil
    | cons x l ih =>
      by_cases hx : x.pid = pid
      · by_cases hadds : x.adds ≤ 1
        · simpa [hx, hadds] using ih.cons x.came
        · simpa [hx, hadds] using ih
      · simpa [hx] using ih
  | wake d gone => exact h.shorten ((List.dropWhile_sublist _).map _)

end Lines

variable [Fintype δ] {s : PrcSpace δ α} {blocks frees : List α} {queue : δ → List α} {w : WaitLines δ}

/-- The queues are the lines, and the free blocks the room. -/
structure InLine (s : PrcSpace δ α) (frees : List α) (queue : δ → List α) (w : WaitLines δ) : Prop where
  line (d : δ) : (queue d).map s.entry = (w.line d).map Waiter.entry
  pos {d : δ} {x : Waiter} (h : x ∈ w.line d) : 1 ≤ x.adds
  room : w.room = frees.length

omit [DecidableEq δ] [DecidableEq α] [Fintype δ] in
theorem InLine.waits_iff (h : InLine s frees queue w) (d : δ) (pid : Nat) :
    (w.line d).any (·.pid = pid) = true ↔ ∃ a ∈ queue d, s.processId a = pid := by
  have hpids : (queue d).map s.processId = (w.line d).map Waiter.pid := by
    simpa [PrcSpace.entry, Waiter.entry, comp_def] using congrArg (List.map Prod.fst) (h.line d)
  have hmem : pid ∈ (queue d).map s.processId ↔ pid ∈ (w.line d).map Waiter.pid := by rw [hpids]
  simpa [List.any_eq_true] using hmem.symm

omit [DecidableEq δ] [DecidableEq α] [Fintype δ] in
/-- An entry of a queue is one of its line. -/
theorem InLine.mem_entry (h : InLine s frees queue w) {d : δ} {a : α} (ha : a ∈ queue d) :
    ∃ x ∈ w.line d, s.processId a = x.pid ∧ s.refCnt a = x.adds := by
  have : s.entry a ∈ (w.line d).map Waiter.entry := h.line d ▸ List.mem_map_of_mem ha
  obtain ⟨x, hx, he⟩ := List.mem_map.1 this
  exact ⟨x, hx, (congrArg Prod.fst he).symm, (congrArg Prod.snd he).symm⟩

/-- What a call does to the blocks, whatever they count, and to the lines, as long as they can be counted. -/
def Steps (s s' : PrcSpace δ α) (blocks frees : List α) (queue : δ → List α) (op : PrcOp δ) : Prop :=
  ∃ frees' queue', s'.Orderly blocks frees' queue' ∧
    ∀ w : WaitLines δ, w.Countable → (w.step op).Countable → InLine s frees queue w → InLine s' frees' queue' (w.step op)

theorem step_add (h : s.Orderly blocks frees queue) (d : δ) (pid : Nat) :
    Steps s (s.mlkPrcblkAdd d pid).1 blocks frees queue (.add d pid) := by
  rcases PrcSpace.mlkPrcblkAdd_spec h.toKept d pid with ⟨a, ha, hpid, hadd⟩ | ⟨hnone, ⟨hfrees, hadd⟩ | ⟨a, frees', s', rfl, hadd, hkept,
    hpids, hcnts⟩⟩
  · rw [hadd]
    refine ⟨frees, queue, ⟨h.toKept.congr rfl rfl rfl rfl, h.once⟩, fun w _ hcount hline => ?_⟩
    have hany := (hline.waits_iff d pid).2 ⟨a, ha, hpid⟩
    simp only [WaitLines.step, WaitLines.add, if_pos hany] at hcount ⊢
    have hother : ∀ e, e ≠ d → ∀ b ∈ queue e, b ≠ a := fun e he b hb =>
      ne_of_mem_of_not_mem hb (h.pool.disjoint (i := some d) (j := some e) (by simpa using Ne.symm he) ha)
    refine ⟨fun e => ?_, fun {e x} hx => ?_, hline.room⟩
    · by_cases he : e = d
      · subst he
        -- the block of the process is told by its number
        have hsame : ∀ b ∈ queue e, b = a ↔ s.processId b = pid := fun b hb =>
          ⟨fun hba => hba ▸ hpid, fun hb' => List.inj_on_of_nodup_map (h.once e) hb ha (hb'.trans hpid.symm)⟩
        have hup := congrArg (List.map fun r : Nat × Int => if r.1 = pid then (r.1, r.2 + 1) else r) (hline.line e)
        rw [List.map_map, List.map_map] at hup
        simp only [update_self, List.map_map]
        refine Eq.trans (List.map_congr_left fun b hb => ?_) (hup.trans (List.map_congr_left fun x _ => ?_))
        · obtain ⟨x, hx, hxp, hxc⟩ := hline.mem_entry hb
          by_cases hba : b = a
          · have hle : x.adds + 1 ≤ 32767 := by
              have hmem : { x with adds := x.adds + 1 } ∈ (w.line e).map fun x => if x.pid = pid then { x with adds := x.adds + 1 } else x :=
                List.mem_map.2 ⟨x, hx, if_pos (hxp ▸ (hsame b hb).1 hba)⟩
              exact hcount e _ (by simpa using hmem)
            subst hba
            have hshort : short (s.refCnt b + 1) = s.refCnt b + 1 := short_eq (by omega) (by omega)
            simp [PrcSpace.entry, hpid, hshort]
          · have hbp : s.processId b ≠ pid := fun hb' => hba ((hsame b hb).2 hb')
            simp [PrcSpace.entry, hba, hbp]
        · by_cases hx : x.pid = pid <;> simp [Waiter.entry, hx]
      · simp only [update_of_ne he, ← hline.line e]
        exact List.map_congr_left fun b hb => by simp [PrcSpace.entry, hother e he b hb]
    · by_cases he : e = d
      · subst he
        obtain ⟨y, hy, rfl⟩ := List.mem_map.1 (show x ∈ (w.line e).map _ by simpa using hx)
        have := hline.pos hy
        split
        · exact Nat.le_succ_of_le this
        · exact this
      · exact hline.pos (by simpa [he] using hx)
  · rw [hadd]
    refine ⟨frees, queue, h, fun w _ _ hline => ?_⟩
    have hany : ¬(w.line d).any (·.pid = pid) = true := fun hw => by
      obtain ⟨b, hb, hbp⟩ := (hline.waits_iff d pid).1 hw
      exact hnone b hb hbp
    have hroom : w.room = 0 := by rw [hline.room, hfrees]; rfl
    simp only [WaitLines.step, WaitLines.add, if_neg hany, if_pos hroom]
    exact ⟨hline.line, hline.pos, hline.room⟩
  · rw [hadd]
    have hnew : ∀ e, ∀ b ∈ queue e, b ≠ a := fun e b hb =>
      ne_of_mem_of_not_mem hb (h.pool.disjoint (i := none) (j := some e) (by simp) (show a ∈ a :: frees' by simp))
    refine ⟨frees', _, ⟨hkept, fun e => ?_⟩, fun w _ _ hline => ?_⟩
    · by_cases he : e = d
      · subst he
        have hsame : (queue e).map s'.processId = (queue e).map s.processId :=
          List.map_congr_left fun b hb => by rw [hpids, update_of_ne (hnew e b hb)]
        rw [update_self, List.map_append, hsame, List.nodup_append]
        refine ⟨h.once e, by simp, ?_⟩
        simpa [hpids] using hnone
      · rw [update_of_ne he]
        have hsame : (queue e).map s'.processId = (queue e).map s.processId :=
          List.map_congr_left fun b hb => by rw [hpids, update_of_ne (hnew e b hb)]
        rw [hsame]
        exact h.once e
    · have hany : ¬(w.line d).any (·.pid = pid) = true := fun hw => by
        obtain ⟨b, hb, hbp⟩ := (hline.waits_iff d pid).1 hw
        exact hnone b hb hbp
      have hroom : ¬w.room = 0 := by rw [hline.room]; simp
      simp only [WaitLines.step, WaitLines.add, if_neg hany, if_neg hroom]
      have hsame : ∀ e, (queue e).map s'.entry = (queue e).map s.entry := fun e =>
        List.map_congr_left fun b hb => by simp [PrcSpace.entry, hpids, hcnts, hnew e b hb]
      refine ⟨fun e => ?_, fun {e x} hx => ?_, by simp [hline.room]⟩
      · by_cases he : e = d
        · subst he
          simp only [update_self, List.map_append, hsame, hline.line]
          simp [PrcSpace.entry, Waiter.entry, hpids, hcnts]
        · simp only [update_of_ne he, hsame, hline.line]
      · by_cases he : e = d
        · subst he
          rcases (by simpa using hx : x ∈ w.line e ∨ x = ⟨pid, 1, w.clock⟩) with hx | rfl
          · exact hline.pos hx
          · exact le_rfl
        · exact hline.pos (by simpa [he] using hx)

omit [DecidableEq δ] [DecidableEq α] [Fintype δ] in
/-- What is left of a queue from which blocks are taken. -/
theorem map_filter_eq (s' : PrcSpace δ α) {l : List α} {line : List Waiter} (hline : l.map s.entry = line.map Waiter.entry)
    {out : α → Bool} {f : Waiter → Option Waiter}
    (hout : ∀ a ∈ l, ∀ x ∈ line, s.entry a = x.entry → (if out a then none else some (s'.entry a)) = (f x).map Waiter.entry) :
    (l.filter fun a => !out a).map s'.entry = (line.filterMap f).map Waiter.entry := by
  induction l generalizing line with
  | nil =>
    obtain rfl : line = [] := by simpa using hline.symm
    rfl
  | cons a l ih =>
    cases line with
    | nil => simp at hline
    | cons x line =>
      obtain ⟨hax, hline⟩ := List.cons.inj hline
      have hrest := ih hline fun b hb y hy => hout b (by simp [hb]) y (by simp [hy])
      have hhead := hout a (by simp) x (by simp) hax
      by_cases ha : out a = true
      · have hf : f x = none := by simpa [ha] using hhead.symm
        simpa [ha, hf] using hrest
      · obtain ⟨y, hy, hya⟩ : ∃ y, f x = some y ∧ y.entry = s'.entry a := by simpa [ha] using hhead.symm
        simpa [ha, hy, hya] using hrest

section
variable (h : s.Orderly blocks frees queue)
include h

theorem step_delete (d : δ) (pid : Nat) : ∃ s', s.mlkPrcblkDelete d pid = some s' ∧ Steps s s' blocks frees queue (.delete d pid) := by
  obtain ⟨s', hs', hdel, hkept⟩ := PrcSpace.mlkPrcblkDelete_spec h.toKept d pid (.inr (h.once d))
  have hother : ∀ e, e ≠ d → ∀ b ∈ queue e, b ∉ queue d := fun e he b hb =>
    h.pool.disjoint (i := some e) (j := some d) (by simpa using he) hb
  refine ⟨s', hs', _, _, ⟨hkept, fun e => ?_⟩, fun w hcount _ hline => ?_⟩
  · by_cases he : e = d
    · subst he
      have hsame : ((queue e).filter fun x => !s.leaves pid x).map s'.processId =
          ((queue e).filter fun x => !s.leaves pid x).map s.processId := List.map_congr_left fun b hb => by
        obtain ⟨-, hbs⟩ := List.mem_filter.1 hb
        exact hdel.processId fun hbf => by simp [(List.mem_filter.1 hbf).2] at hbs
      rw [update_self, hsame]
      exact (h.once e).sublist (List.filter_sublist.map _)
    · have hsame : (queue e).map s'.processId = (queue e).map s.processId := List.map_congr_left fun b hb =>
        hdel.processId fun hbf => hother e he b hb (List.mem_filter.1 hbf).1
      rw [update_of_ne he, hsame]
      exact h.once e
  · -- a count in its range is decremented as it stands
    have hentry : ∀ a ∈ queue d, ∀ x ∈ w.line d, s.entry a = x.entry → (if s.leaves pid a then none else some (s'.entry a)) =
        (if x.pid = pid then if x.adds ≤ 1 then none else some { x with adds := x.adds - 1 } else some x).map Waiter.entry := by
      intro a ha x hx hax
      obtain ⟨hp, hc⟩ : s.processId a = x.pid ∧ s.refCnt a = x.adds := Prod.mk.inj hax
      have hpos := hline.pos hx
      have hmax := hcount d x hx
      have hshort : short (s.refCnt a - 1) = s.refCnt a - 1 := short_eq (by omega) (by omega)
      by_cases hleave : s.leaves pid a = true
      · have hgo : x.pid = pid ∧ x.adds ≤ 1 := by
          have : s.processId a = pid ∧ short (s.refCnt a - 1) ≤ 0 := by simpa [PrcSpace.leaves] using hleave
          exact ⟨hp ▸ this.1, by omega⟩
        simp [hleave, hgo]
      · have hna : a ∉ (queue d).filter (s.leaves pid) := fun haf => hleave (List.mem_filter.1 haf).2
        have hstay : ¬(x.pid = pid ∧ x.adds ≤ 1) := fun hgo => hleave (by
          simp only [PrcSpace.leaves, decide_eq_true_eq]
          exact ⟨hp.trans hgo.1, by omega⟩)
        rw [if_neg hleave, PrcSpace.entry, hdel.processId hna, hdel.refCnt hna, if_pos ha, PrcSpace.lessOne]
        by_cases hxp : x.pid = pid
        · have hadds : ¬x.adds ≤ 1 := fun hle => hstay ⟨hxp, hle⟩
          simp only [hp, hxp, if_true, if_neg hadds, Option.map_some, Waiter.entry, hshort]
          congr 2
          omega
        · simp [hp, hxp, hc, Waiter.entry]
    have hq := map_filter_eq s' (hline.line d) hentry
    refine ⟨fun e => ?_, fun {e x} hx => ?_, ?_⟩
    · by_cases he : e = d
      · subst he
        simpa [WaitLines.step, WaitLines.delete, WaitLines.shorten] using hq
      · simp only [WaitLines.step, WaitLines.delete, WaitLines.shorten, update_of_ne he, ← hline.line e]
        refine List.map_congr_left fun b hb => ?_
        have hbd := hother e he b hb
        have hnb : b ∉ (queue d).filter (s.leaves pid) := fun hbf => hbd (List.mem_filter.1 hbf).1
        rw [PrcSpace.entry, hdel.processId hnb, hdel.refCnt hnb, if_neg hbd]
        rfl
    · by_cases he : e = d
      · subst he
        obtain ⟨y, hy, hyx⟩ := List.mem_filterMap.1 (show x ∈ (w.line e).filterMap _ by
          simpa [WaitLines.step, WaitLines.delete, WaitLines.shorten] using hx)
        have hpos := hline.pos hy
        split_ifs at hyx
        · obtain rfl := Option.some.inj hyx
          show 1 ≤ y.adds - 1
          omega
        · obtain rfl := Option.some.inj hyx
          exact hpos
      · exact hline.pos (by simpa [WaitLines.step, WaitLines.delete, WaitLines.shorten, he] using hx)
    · have hlen := congrArg List.length hq
      have hlen' := congrArg List.length (hline.line d)
      have hpart := List.length_eq_length_filter_add (l := queue d) (s.leaves pid)
      simp only [List.length_map] at hlen hlen'
      simp only [WaitLines.step, WaitLines.delete, WaitLines.shorten, hline.room, List.length_append, List.length_reverse, ← hlen,
        ← hlen']
      omega

theorem step_wake (d : δ) (gone : Nat → Bool) :
    ∃ s' woken, s.mlkWakePending d gone = some (s', woken) ∧ Steps s s' blocks frees queue (.wake d gone) := by
  obtain ⟨s', woken, hs', hkept, hdata⟩ := PrcSpace.mlkWakePending_spec gone h.toKept (h.once d)
  have hother : ∀ e, e ≠ d → ∀ b ∈ queue e, b ∉ (queue d).takeWhile (s.isGone gone) := fun e he b hb hbt =>
    h.pool.disjoint (i := some e) (j := some d) (by simpa using he) hb ((List.takeWhile_sublist _).subset hbt)
  have hback : ∀ b ∈ (queue d).dropWhile (s.isGone gone), b ∉ (queue d).takeWhile (s.isGone gone) := by
    have hnd := h.pool.list_nodup (some d)
    rw [show PrcSpace.lists frees queue (some d) = (queue d).takeWhile (s.isGone gone) ++ (queue d).dropWhile (s.isGone gone) from
      List.takeWhile_append_dropWhile.symm] at hnd
    exact fun b hb hbt => (List.nodup_append.1 hnd).2.2 b hbt b hb rfl
  have hsame : ∀ e, ∀ b ∈ update queue d ((queue d).dropWhile (s.isGone gone)) e, s'.entry b = s.entry b := by
    intro e b hb
    have hbt : b ∉ (queue d).takeWhile (s.isGone gone) := by
      by_cases he : e = d
      · subst he
        exact hback b (by simpa using hb)
      · exact hother e he b (by simpa [he] using hb)
    rw [PrcSpace.entry, (hdata b hbt).1, (hdata b hbt).2]
    rfl
  refine ⟨s', woken, hs', _, _, ⟨hkept, fun e => ?_⟩, fun w _ _ hline => ?_⟩
  · have hpids : ∀ b ∈ update queue d ((queue d).dropWhile (s.isGone gone)) e, s'.processId b = s.processId b := fun b hb =>
      congrArg Prod.fst (hsame e b hb)
    rw [List.map_congr_left hpids]
    by_cases he : e = d
    · subst he
      simpa using (h.once e).sublist ((List.dropWhile_sublist _).map _)
    · simpa [he] using h.once e
  · have hdrop : ((queue d).dropWhile (s.isGone gone)).map s.entry =
        ((w.line d).dropWhile fun x => x.pid = 0 || gone x.pid).map Waiter.entry := by
      have := congrArg (List.dropWhile fun r : Nat × Int => decide (r.1 = 0) || gone r.1) (hline.line d)
      rwa [List.dropWhile_map, List.dropWhile_map] at this
    refine ⟨fun e => ?_, fun {e x} hx => ?_, ?_⟩
    · rw [List.map_congr_left (hsame e)]
      by_cases he : e = d
      · subst he
        simpa [WaitLines.step, WaitLines.wake, WaitLines.shorten] using hdrop
      · simpa [WaitLines.step, WaitLines.wake, WaitLines.shorten, he] using hline.line e
    · by_cases he : e = d
      · subst he
        exact hline.pos ((List.dropWhile_sublist _).subset (show x ∈ (w.line e).dropWhile _ by
          simpa [WaitLines.step, WaitLines.wake, WaitLines.shorten] using hx))
      · exact hline.pos (by simpa [WaitLines.step, WaitLines.wake, WaitLines.shorten, he] using hx)
    · have hlen := congrArg List.length hdrop
      have hlen' := congrArg List.length (hline.line d)
      have hpart : ((queue d).takeWhile (s.isGone gone)).length + ((queue d).dropWhile (s.isGone gone)).length = (queue d).length := by
        rw [← List.length_append, List.takeWhile_append_dropWhile]
      simp only [List.length_map] at hlen hlen'
      simp only [WaitLines.step, WaitLines.wake, WaitLines.shorten, hline.room, List.length_append, List.length_reverse, ← hlen, ← hlen']
      omega

/-- What any call does. -/
theorem step_orderly (op : PrcOp δ) : ∃ s', s.step op = some s' ∧ Steps s s' blocks frees queue op := by
  cases op with
  | add d pid => exact ⟨_, rfl, step_add h d pid⟩
  | delete d pid => exact step_delete h d pid
  | wake d gone =>
    obtain ⟨s', woken, hs', hsteps⟩ := step_wake h d gone
    exact ⟨s', by simp [PrcSpace.step, hs'], hsteps⟩

/-- What any calls do. -/
theorem run_orderly (ops : List (PrcOp δ)) : ∃ s' frees' queue', s.run ops = some s' ∧ s'.Orderly blocks frees' queue' ∧
      ∀ w : WaitLines δ, (∀ done, done <+: ops → (w.run done).Countable) → InLine s frees queue w → InLine s' frees' queue' (w.run ops) := by
  induction ops generalizing s frees queue with
  | nil => exact ⟨s, frees, queue, rfl, h, fun w _ hline => hline⟩
  | cons op ops ih =>
    obtain ⟨s₁, hs₁, frees₁, queue₁, h₁, hstep⟩ := step_orderly h op
    obtain ⟨s', frees', queue', hs', h', hrun⟩ := ih h₁
    refine ⟨s', frees', queue', by rw [PrcSpace.run, hs₁]; exact hs', h', fun w hcount hline => ?_⟩
    have hfirst : (w.step op).Countable := hcount [op] (by simp)
    exact hrun (w.step op) (fun done hdone => hcount (op :: done) (by simpa using hdone)) (hstep w (hcount [] (by simp)) hfirst hline)

end

omit [Fintype δ] in
theorem run_timed {w : WaitLines δ} (h : Timed w) (ops : List (PrcOp δ)) : Timed (w.run ops) := by
  induction ops generalizing w with
  | nil => exact h
  | cons op ops ih => exact ih (h.step op)

end PrcblkAux

open PrcblkAux

/-- Every call comes to an end. The number of free blocks is `prccnt`, and with those that are queued, each of them once, there are
always as many as there were. The lines of the processes are in the order they came, and where no process has more adds outstanding
than a `short` can count, every queue is the line of its node, with their number as the reference count. -/
theorem mlkPrcblk_kept [Fintype δ] {s : PrcSpace δ α} {blocks : List α} (h : s.Orderly blocks blocks fun _ => []) (ops : List (PrcOp δ)) :
    ∃ s' frees queue, s.run ops = some s' ∧ s'.Orderly blocks frees queue ∧
      (frees.length + ∑ d, (queue d).length = blocks.length ∧ s'.prccnt + ∑ d, (queue d).length = blocks.length) ∧
      ((WaitLines.empty blocks.length).run ops).Ordered ∧
      ((∀ done, done <+: ops → ((WaitLines.empty blocks.length).run (δ := δ) done).Countable) →
        ∀ d, (queue d).map s'.entry = (((WaitLines.empty blocks.length).run ops).line d).map Waiter.entry) := by
  obtain ⟨s', frees, queue, hs', h', hrun⟩ := run_orderly h ops
  have htotal : frees.length + ∑ d, (queue d).length = blocks.length := by
    rw [← h'.pool.sum_length, Fintype.sum_option]
    rfl
  have hstart : Timed (WaitLines.empty blocks.length : WaitLines δ) := ⟨fun _ => List.Pairwise.nil, nofun⟩
  refine ⟨s', frees, queue, hs', h', ⟨htotal, h'.prccnt ▸ htotal⟩, (run_timed hstart ops).ordered, fun hcount => ?_⟩
  exact (hrun _ hcount ⟨fun _ => rfl, nofun, rfl⟩).line

/-- A lock space with one node and two free blocks. -/
def twoPrcblks : PrcSpace Unit (Fin 2) where
  next a := if a = 0 then some 1 else none
  processId _ := 0
  refCnt _ := 0
  pending _ := none
  sequence _ := 0
  prcfree := some 0
  prccnt := 2
  maxPrccnt := 2
  wakeups := 1
  lockSequence := 0

theorem twoPrcblks_orderly : twoPrcblks.Orderly [0, 1] [0, 1] fun _ => [] := by
  refine ⟨⟨⟨fun i => ?_, ?_, by decide⟩, rfl, rfl⟩, fun _ => List.nodup_nil⟩
  · cases i with
    | none => exact ⟨rfl, rfl, rfl⟩
    | some d => rfl
  · rfl

/-- Two processes come, one of them twice, and that one goes once. -/
theorem mlkPrcblk_kept_two :
    ∃ s' frees queue, twoPrcblks.run [.add () 7, .add () 8, .add () 7, .delete () 7] = some s' ∧ s'.Orderly [0, 1] frees queue ∧
      s'.prccnt + ∑ d, (queue d).length = 2 ∧ (queue ()).map s'.entry = [(7, 1), (8, 1)] := by
  obtain ⟨s', frees, queue, hs', h', ⟨-, htotal⟩, -, hline⟩ :=
    mlkPrcblk_kept twoPrcblks_orderly [.add () 7, .add () 8, .add () 7, .delete () 7]
  refine ⟨s', frees, queue, hs', h', htotal, (hline fun done hdone => ?_) ()⟩
  have hall : ∀ done ∈ [PrcOp.add () 7, .add () 8, .add () 7, .delete () 7].inits, ∀ d,
      ∀ x ∈ ((WaitLines.empty 2).run done).line d, x.adds ≤ 32767 := by decide
  exact hall done (List.mem_inits _ _ |>.2 hdone)

namespace PrcblkAux

/-- Process 7 is at the head of the queue, and has come for so many times. -/
structure Queued (s : PrcSpace Unit (Fin 2)) (adds : Int) : Prop where
  pending : s.pending () = some 0
  entry : s.entry 0 = (7, short adds)
  top : s.maxPrccnt = 2

theorem Queued.add {s : PrcSpace Unit (Fin 2)} {adds : Int} (h : Queued s adds) :
    ∃ s', s.step (.add () 7) = some s' ∧ Queued s' (adds + 1) := by
  obtain ⟨hpid, hcnt⟩ : s.processId 0 = 7 ∧ s.refCnt 0 = short adds := Prod.mk.inj h.entry
  have hfind : s.findPrc 7 s.maxPrccnt none (s.pending ()) = (none, some 0) := by
    rw [h.top, h.pending, PrcSpace.findPrc, if_pos hpid]
  refine ⟨_, rfl, ?_⟩
  rw [PrcSpace.mlkPrcblkAdd, hfind]
  exact ⟨h.pending, by simp [PrcSpace.entry, hpid, hcnt, short], h.top⟩

theorem Queued.run {s : PrcSpace Unit (Fin 2)} {adds : Int} (h : Queued s adds) (n : Nat) :
    ∃ s', s.run (List.replicate n (.add () 7)) = some s' ∧ Queued s' (adds + n) := by
  induction n generalizing s adds with
  | zero => exact ⟨s, rfl, by simpa using h⟩
  | succ n ih =>
    obtain ⟨s₁, hs₁, h₁⟩ := h.add
    obtain ⟨s', hs', h'⟩ := ih h₁
    have hadds : adds + 1 + n = adds + (n + 1 : Nat) := by omega
    exact ⟨s', by rw [List.replicate_succ, PrcSpace.run, hs₁]; exact hs', hadds ▸ h'⟩

theorem line_run (n k room t : Nat) :
    ((WaitLines.mk (fun _ : Unit => [⟨7, k, 0⟩]) room t).run (List.replicate n (.add () 7))).line () = [⟨7, k + n, 0⟩] := by
  induction n generalizing k t with
  | zero => rfl
  | succ n ih =>
    have hline : update (fun _ : Unit => [(⟨7, k, 0⟩ : Waiter)]) () [⟨7, k + 1, 0⟩] = fun _ => [⟨7, k + 1, 0⟩] := by
      funext d
      rfl
    have hstep : (WaitLines.mk (fun _ : Unit => [⟨7, k, 0⟩]) room t).step (.add () 7) =
        WaitLines.mk (fun _ : Unit => [⟨7, k + 1, 0⟩]) room (t + 1) := by
      rfl
    refine (ih (k + 1) (t + 1)).trans ?_
    rw [Nat.add_right_comm, Nat.add_assoc]

theorem twoPrcblks_run {n : Nat} {c : Int} (hn : 0 < n) (hc : short n = c) :
    ∃ s', twoPrcblks.run (List.replicate n (.add () 7)) = some s' ∧ s'.pending () = some 0 ∧ s'.entry 0 = (7, c) ∧
      ((WaitLines.empty 2).run (List.replicate n (.add () 7))).line () = [⟨7, n, 0⟩] := by
  obtain ⟨n, rfl⟩ : ∃ m, n = m + 1 := ⟨n - 1, by omega⟩
  have hadds : (1 : Int) + n = (n + 1 : Nat) := by omega
  obtain ⟨s₁, hs₁, h₁⟩ : ∃ s₁, twoPrcblks.step (.add () 7) = some s₁ ∧ Queued s₁ 1 := ⟨_, rfl, rfl, rfl, rfl⟩
  obtain ⟨s', hs', h'⟩ := h₁.run n
  have hline : (WaitLines.empty 2).step (.add () 7) = WaitLines.mk (fun _ => [⟨7, 1, 0⟩]) 1 1 := by
    congr 1
  rw [List.replicate_succ]
  refine ⟨s', by rw [PrcSpace.run, hs₁]; exact hs', h'.pending, by rw [h'.entry, hadds, hc], ?_⟩
  rw [WaitLines.run, List.foldl_cons, Nat.add_comm n 1]
  exact line_run n 1 1 1

end PrcblkAux

/-- The count of a process that has come so often is negative. -/
theorem mlkPrcblk_refCnt_wraps :
    ∃ s', twoPrcblks.run (List.replicate 32768 (.add () 7)) = some s' ∧ s'.pending () = some 0 ∧ s'.entry 0 = (7, -32768) ∧
      ((WaitLines.empty 2).run (List.replicate 32768 (.add () 7))).line () = [⟨7, 32768, 0⟩] := by
  exact twoPrcblks_run (by decide) (by decide)

end Gtm
