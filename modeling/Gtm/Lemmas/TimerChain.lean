import Gtm.Timers.GtTimers

/-!
# The chains of timers

`TimerState.Chains` says that the chain of requests and the chain of unused blocks are lists without a common block, with some blocks
in flight between them, and that the requests are in the order of their expiry with one for each id. The moves of a block from one
place to another keep it; `remove_timer`, `add_timer` and `gt_timers_alloc` are made of these moves. `TimerState.Counts` says that the
counters and the record of the run agree with the chains.
-/

namespace Gtm

open PtrList

/-! ## Times -/

namespace AbsTime

/-- The time in microseconds. -/
def usecs (t : AbsTime) : Int := t.atSec * microsecsInSec + t.atUsec

theorem absTimeComp_neg {a b : AbsTime} : absTimeComp a b < 0 ↔ a.usecs < b.usecs := by
  have ha := a.usec_lt
  have hb := b.usec_lt
  simp only [absTimeComp, usecs, microsecsInSec] at *
  split_ifs <;> omega

theorem absTimeComp_nonneg {a b : AbsTime} : 0 ≤ absTimeComp a b ↔ b.usecs ≤ a.usecs := by
  have := @absTimeComp_neg a b
  omega

theorem le_iff {a b : AbsTime} : a ≤ b ↔ a.usecs ≤ b.usecs := by
  have ha := a.usec_lt
  have hb := b.usec_lt
  change absTimeComp a b ≤ 0 ↔ _
  simp only [absTimeComp, usecs, microsecsInSec] at *
  split_ifs <;> omega

theorem usecs_inj {a b : AbsTime} (h : a.usecs = b.usecs) : a = b := by
  have ha := a.usec_lt
  have hb := b.usec_lt
  simp only [usecs, microsecsInSec] at *
  ext <;> omega

theorem usecs_carry (sec : Int) (usec : Nat) (h : usec < 2 * microsecsInSec) : (carry sec usec h).usecs = sec * microsecsInSec + usec := by
  unfold carry
  split
  · have hc : ((usec - microsecsInSec : Nat) : Int) = usec - microsecsInSec := by omega
    rw [usecs, hc, Int.add_mul]
    omega
  · rfl

theorem usecs_subAbsTime (a b : AbsTime) : (subAbsTime a b).usecs = a.usecs - b.usecs := by
  have hb := b.usec_lt
  unfold subAbsTime
  split <;> simp only [usecs, microsecsInSec] at * <;> omega

/-- A timer set for the time that is left runs until the timer expires. -/
theorem addAbsTime_subAbsTime (a b : AbsTime) : addAbsTime b (subAbsTime a b) = a := by
  apply usecs_inj
  rw [addAbsTime, usecs_carry]
  have := usecs_subAbsTime a b
  simp only [usecs, microsecsInSec] at *
  omega

end AbsTime

/-! ## Lists of blocks -/

/-- A block but for its pointer. -/
def GtTimer.body (t : GtTimer) : GtTimer := { t with next := none }

namespace GtTimer

variable {t t' : GtTimer} (h : t.body = t'.body)
include h

theorem expirTime_of_body : t.expirTime = t'.expirTime := by
  have := congrArg expirTime h
  exact this

theorem tid_of_body : t.tid = t'.tid := by
  have := congrArg tid h
  exact this

theorem safe_of_body : t.safe = t'.safe := by
  have := congrArg safe h
  exact this

theorem start_of_body : t.start = t'.start := by
  have := congrArg start h
  exact this

end GtTimer

/-- The chain of requests, the chain of unused blocks, and the blocks in flight. -/
structure TimerChains (heap : Nat → GtTimer) (brk : Nat) (timeroot timefree : Option Nat) (chain free flight : List Nat) : Prop where
  root : IsList (fun p => (heap p).next) timeroot chain
  frees : IsList (fun p => (heap p).next) timefree free
  nodup : (flight ++ (chain ++ free)).Nodup
  below : ∀ p ∈ flight ++ (chain ++ free), p < brk
  sorted : chain.Pairwise fun p q => (heap p).expirTime ≤ (heap q).expirTime
  tids : (chain.map fun p => (heap p).tid).Nodup

/-- The chains of a state. -/
abbrev TimerState.Chains (s : TimerState) : List Nat → List Nat → List Nat → Prop :=
  TimerChains s.heap s.brk s.timeroot s.timefree

namespace TimerState

variable {s : TimerState}

theorem next_setNext (p : Nat) (q : Option Nat) : (s.setNext p q).next = Function.update s.next p q := by
  funext x
  by_cases hx : x = p
  · subst hx
    simp [next, setNext]
  · simp [next, setNext, hx]

theorem body_setNext (p : Nat) (q : Option Nat) (x : Nat) : ((s.setNext p q).heap x).body = (s.heap x).body := by
  by_cases hx : x = p
  · subst hx
    simp [setNext, GtTimer.body]
  · simp [setNext, hx]

section
variable (prev q : Option Nat)
include prev q

theorem next_linkRoot : (s.linkRoot prev q).next = link s.next prev q := by
  cases prev with
  | none => rfl
  | some p => exact next_setNext p q

theorem timeroot_linkRoot : (s.linkRoot prev q).timeroot = PtrList.linkRoot s.timeroot prev q := by
  cases prev <;> rfl

theorem body_linkRoot (x : Nat) : ((s.linkRoot prev q).heap x).body = (s.heap x).body := by
  cases prev with
  | none => rfl
  | some p => exact body_setNext p q x

theorem next_linkFree : (s.linkFree prev q).next = link s.next prev q := by
  cases prev with
  | none => rfl
  | some p => exact next_setNext p q

theorem timefree_linkFree : (s.linkFree prev q).timefree = PtrList.linkRoot s.timefree prev q := by
  cases prev <;> rfl

theorem body_linkFree (x : Nat) : ((s.linkFree prev q).heap x).body = (s.heap x).body := by
  cases prev with
  | none => rfl
  | some p => exact body_setNext p q x

end

end TimerState

namespace TimerChains

variable {s : TimerState} {chain free flight pre post : List Nat} {p : Nat}

theorem not_mem_flight (h : s.Chains chain free (p :: flight)) : p ∉ flight ∧ p ∉ chain ∧ p ∉ free := by
  have := (List.nodup_cons.1 h.nodup).1
  simpa using this

theorem disjoint (h : s.Chains chain free flight) : ∀ x ∈ chain, x ∉ free := by
  have := (List.nodup_append.1 h.nodup).2.1
  intro x hx hx'
  exact (List.nodup_append.1 this).2.2 x hx x hx' rfl

theorem length_chain_le (h : s.Chains chain free flight) : chain.length ≤ s.brk := by
  have hnd : chain.Nodup := (List.nodup_append.1 (List.nodup_append.1 h.nodup).2.1).1
  have hsub : chain ⊆ List.range s.brk := fun x hx => List.mem_range.2 (h.below x (by simp [hx]))
  simpa using (List.subperm_of_subset hnd hsub).length_le

theorem length_free_le (h : s.Chains chain free flight) : free.length ≤ s.brk := by
  have hnd : free.Nodup := (List.nodup_append.1 (List.nodup_append.1 h.nodup).2.1).2.1
  have hsub : free ⊆ List.range s.brk := fun x hx => List.mem_range.2 (h.below x (by simp [hx]))
  simpa using (List.subperm_of_subset hnd hsub).length_le

/-- Blocks that only move keep the order and the ids of the requests that stay. -/
theorem transport {s' : TimerState} {chain' free' flight' : List Nat} (h : s.Chains chain free flight)
    (hroot : IsList s'.next s'.timeroot chain') (hfrees : IsList s'.next s'.timefree free')
    (hperm : (flight' ++ (chain' ++ free')).Perm (flight ++ (chain ++ free))) (hsub : chain'.Sublist chain) (hbrk : s'.brk = s.brk)
    (hbody : ∀ x, (s'.heap x).body = (s.heap x).body) : s'.Chains chain' free' flight' where
  root := hroot
  frees := hfrees
  nodup := hperm.nodup_iff.2 h.nodup
  below := fun p hp => by
    rw [hbrk]
    exact h.below p (hperm.mem_iff.1 hp)
  sorted := by
    have hexp : ∀ x, (s'.heap x).expirTime = (s.heap x).expirTime := fun x => GtTimer.expirTime_of_body (hbody x)
    simp only [hexp]
    exact h.sorted.sublist hsub
  tids := by
    have htid : ∀ x, (s'.heap x).tid = (s.heap x).tid := fun x => GtTimer.tid_of_body (hbody x)
    simp only [htid]
    exact h.tids.sublist (hsub.map _)

theorem isRoot (h : s.Chains chain free flight) : IsList s.next s.timeroot chain := h.root

theorem isFree (h : s.Chains chain free flight) : IsList s.next s.timefree free := h.frees

/-- The pointer of a block leads to the blocks behind it. -/
theorem isList_behind {r : Option Nat} (h : IsList s.next r (pre ++ p :: post)) : IsList s.next (s.next p) post := by
  have : IsList s.next r ((pre ++ [p]) ++ post) := by simpa using h
  simpa using this.append_right

/-- A block is taken off the chain of requests. -/
theorem unlink (h : s.Chains (pre ++ p :: post) free flight) :
    (s.linkRoot pre.getLast? (s.next p)).Chains (pre ++ post) free (p :: flight) := by
  have hnd := List.nodup_append.1 (List.nodup_append.1 (List.nodup_append.1 h.nodup).2.1).1
  refine h.transport ?_ ?_ ?_ ?_ ?_ (s.body_linkRoot _ _)
  · rw [TimerState.next_linkRoot, TimerState.timeroot_linkRoot]
    refine h.isRoot.link hnd.1 (isList_behind h.isRoot) ?_
    intro x hx hx'
    exact hnd.2.2 x hx x (by simp [hx']) rfl
  · have hfree : (s.linkRoot pre.getLast? (s.next p)).timefree = s.timefree := by cases pre.getLast? <;> rfl
    rw [TimerState.next_linkRoot, hfree]
    refine h.isFree.congr fun x hx => link_of_not_mem ?_ _
    intro hx'
    exact h.disjoint x (by simp [hx']) hx
  · simp only [List.perm_iff_count, List.count_append, List.count_cons]
    intro x
    omega
  · exact List.Sublist.append_left (List.sublist_cons_self p post) pre
  · cases pre.getLast? <;> rfl

/-- A block is taken off the chain of unused blocks. -/
theorem unlinkFree (h : s.Chains chain (pre ++ p :: post) flight) :
    (s.linkFree pre.getLast? (s.next p)).Chains chain (pre ++ post) (p :: flight) := by
  have hnd := List.nodup_append.1 (List.nodup_append.1 (List.nodup_append.1 h.nodup).2.1).2.1
  refine h.transport ?_ ?_ ?_ (List.Sublist.refl _) ?_ (s.body_linkFree _ _)
  · have hroot : (s.linkFree pre.getLast? (s.next p)).timeroot = s.timeroot := by cases pre.getLast? <;> rfl
    rw [TimerState.next_linkFree, hroot]
    refine h.isRoot.congr fun x hx => link_of_not_mem ?_ _
    intro hx'
    exact h.disjoint x hx (by simp [hx'])
  · rw [TimerState.next_linkFree, TimerState.timefree_linkFree]
    refine h.isFree.link hnd.1 (isList_behind h.isFree) ?_
    intro x hx hx'
    exact hnd.2.2 x hx x (by simp [hx']) rfl
  · simp only [List.perm_iff_count, List.count_append, List.count_cons]
    intro x
    omega
  · cases pre.getLast? <;> rfl

/-- A block in flight is put on the chain of unused blocks. -/
theorem toFree (h : s.Chains chain free (p :: flight)) : (s.toFree p).Chains chain (p :: free) flight := by
  obtain ⟨-, hc, hf⟩ := h.not_mem_flight
  have hnext : (s.toFree p).next = Function.update s.next p s.timefree := TimerState.next_setNext p s.timefree
  refine h.transport ?_ ?_ ?_ (List.Sublist.refl _) rfl (s.body_setNext p s.timefree)
  · rw [hnext]
    exact h.isRoot.update hc _
  · rw [hnext]
    exact h.isFree.push hf
  · simp only [List.perm_iff_count, List.count_append, List.count_cons]
    intro x
    omega

/-- The place where a request goes is behind all that expire before it and in front of the others. -/
theorem sorted_insert (h : s.Chains (pre ++ post) free flight) (hpre : ∀ x ∈ pre, ¬ 0 ≤ absTimeComp (s.heap x).expirTime (s.heap p).expirTime)
    (hpost : ∀ x ∈ post.head?, 0 ≤ absTimeComp (s.heap x).expirTime (s.heap p).expirTime) :
    (pre ++ p :: post).Pairwise fun x y => (s.heap x).expirTime ≤ (s.heap y).expirTime := by
  obtain ⟨h1, h2, h3⟩ := List.pairwise_append.1 h.sorted
  have hle : ∀ x ∈ pre, (s.heap x).expirTime ≤ (s.heap p).expirTime := by
    intro x hx
    have := hpre x hx
    rw [AbsTime.absTimeComp_nonneg] at this
    rw [AbsTime.le_iff]
    omega
  have hge : ∀ x ∈ post, (s.heap p).expirTime ≤ (s.heap x).expirTime := by
    intro x hx
    cases post with
    | nil => simp at hx
    | cons y post =>
      have hy := hpost y (by simp)
      rw [AbsTime.absTimeComp_nonneg] at hy
      rw [AbsTime.le_iff]
      rcases List.mem_cons.1 hx with rfl | hx
      · exact hy
      · have := (List.pairwise_cons.1 h2).1 x hx
        rw [AbsTime.le_iff] at this
        omega
  refine List.pairwise_append.2 ⟨h1, List.pairwise_cons.2 ⟨hge, h2⟩, ?_⟩
  intro x hx y hy
  rcases List.mem_cons.1 hy with rfl | hy
  · exact hle x hx
  · exact h3 x hx y hy

/-- A block in flight that points to the chain of unused blocks becomes its first. -/
theorem push {heap : Nat → GtTimer} {brk : Nat} {timeroot timefree : Option Nat}
    (h : TimerChains heap brk timeroot timefree chain free (p :: flight)) (hp : (heap p).next = timefree) :
    TimerChains heap brk timeroot (some p) chain (p :: free) flight := by
  have hperm : (flight ++ (chain ++ p :: free)).Perm (p :: flight ++ (chain ++ free)) := by
    simp only [List.perm_iff_count, List.count_append, List.count_cons]
    intro x
    omega
  constructor
  · exact h.root
  · subst hp
    exact ⟨rfl, h.frees⟩
  · exact hperm.nodup_iff.2 h.nodup
  · exact fun x hx => h.below x (hperm.mem_iff.1 hx)
  · exact h.sorted
  · exact h.tids

/-- A block in flight with a new id is put into the chain of requests. -/
theorem insertTimer (h : s.Chains chain free (p :: flight)) (htid : ∀ x ∈ chain, (s.heap x).tid ≠ (s.heap p).tid) :
    ∃ pre post, chain = pre ++ post ∧ (insertTimer p s).Chains (pre ++ p :: post) free flight ∧
      ∀ x, ((Gtm.insertTimer p s).heap x).body = (s.heap x).body := by
  obtain ⟨-, hc, hf⟩ := h.not_mem_flight
  obtain ⟨pre, post, hl, hpre, hpost, hw⟩ := walk_split
    (fun x => decide (absTimeComp (s.heap x).expirTime (s.heap p).expirTime ≥ 0)) h.isRoot h.length_chain_le none
  rw [Option.or_none] at hw
  have hs : Gtm.insertTimer p s = (s.setNext p post.head?).linkRoot pre.getLast? (some p) := by
    rw [Gtm.insertTimer, hw]
  have hbody : ∀ x, ((Gtm.insertTimer p s).heap x).body = (s.heap x).body := by
    intro x
    rw [hs, TimerState.body_linkRoot, TimerState.body_setNext]
  refine ⟨pre, post, hl, ?_, hbody⟩
  subst hl
  have hnd := List.nodup_append.1 (List.nodup_append.1 (List.nodup_append.1 h.nodup).2.1).1
  have hcpost : p ∉ post := fun hx => hc (by simp [hx])
  have hcpre : p ∉ pre := fun hx => hc (by simp [hx])
  have hperm : (flight ++ ((pre ++ p :: post) ++ free)).Perm (p :: flight ++ ((pre ++ post) ++ free)) := by
    simp only [List.perm_iff_count, List.count_append, List.count_cons]
    intro x
    omega
  have hnext : (Gtm.insertTimer p s).next = link (Function.update s.next p post.head?) pre.getLast? (some p) := by
    rw [hs, TimerState.next_linkRoot, TimerState.next_setNext]
  have hroot : (Gtm.insertTimer p s).timeroot = PtrList.linkRoot s.timeroot pre.getLast? (some p) := by
    rw [hs, TimerState.timeroot_linkRoot]
    rfl
  have hfree : (Gtm.insertTimer p s).timefree = s.timefree := by
    rw [hs]
    cases pre.getLast? <;> rfl
  have hbrk : (Gtm.insertTimer p s).brk = s.brk := by
    rw [hs]
    cases pre.getLast? <;> rfl
  have hexp : ∀ x, ((Gtm.insertTimer p s).heap x).expirTime = (s.heap x).expirTime := fun x => GtTimer.expirTime_of_body (hbody x)
  have htids : ∀ x, ((Gtm.insertTimer p s).heap x).tid = (s.heap x).tid := fun x => GtTimer.tid_of_body (hbody x)
  have hbehind : IsList (Function.update s.next p post.head?) (some p) (p :: post) := by
    have := h.isRoot.append_right
    have hhead := this.eq_head?
    rw [hhead] at this
    exact this.push hcpost
  constructor
  · change IsList (Gtm.insertTimer p s).next _ _
    rw [hnext, hroot]
    refine (h.isRoot.update hc _).link hnd.1 hbehind ?_
    intro x hx hx'
    rcases List.mem_cons.1 hx' with rfl | hx'
    · exact hcpre hx
    · exact hnd.2.2 x hx x hx' rfl
  · change IsList (Gtm.insertTimer p s).next _ _
    rw [hnext, hfree]
    refine (h.isFree.update hf _).congr fun x hx => link_of_not_mem ?_ _
    intro hx'
    exact h.disjoint x (by simp [hx']) hx
  · exact hperm.nodup_iff.2 h.nodup
  · intro x hx
    rw [hbrk]
    exact h.below x (hperm.mem_iff.1 hx)
  · simp only [hexp]
    refine h.sorted_insert ?_ ?_
    · intro x hx
      simpa using hpre x hx
    · intro x hx
      simpa using hpost x hx
  · simp only [htids]
    have hmid : ((pre ++ p :: post).map fun x => (s.heap x).tid).Perm ((p :: (pre ++ post)).map fun x => (s.heap x).tid) :=
      List.perm_middle.map _
    rw [hmid.nodup_iff, List.map_cons, List.nodup_cons]
    refine ⟨?_, h.tids⟩
    intro hx
    obtain ⟨x, hx, hxt⟩ := List.mem_map.1 hx
    exact htid x hx hxt

/-- A block in flight can be written to. -/
theorem update (h : s.Chains chain free (p :: flight)) (t : GtTimer) :
    TimerChains (Function.update s.heap p t) s.brk s.timeroot s.timefree chain free (p :: flight) := by
  obtain ⟨-, hc, hf⟩ := h.not_mem_flight
  have hother : ∀ x ∈ chain ++ free, Function.update s.heap p t x = s.heap x := by
    intro x hx
    refine Function.update_of_ne ?_ _ _
    rintro rfl
    rcases List.mem_append.1 hx with hx | hx
    · exact hc hx
    · exact hf hx
  constructor
  · exact h.root.congr fun x hx => by rw [hother x (by simp [hx])]
  · exact h.frees.congr fun x hx => by rw [hother x (by simp [hx])]
  · exact h.nodup
  · exact h.below
  · refine h.sorted.imp_of_mem fun {x y} hx hy hxy => ?_
    rw [hother x (by simp [hx]), hother y (by simp [hy])]
    exact hxy
  · have : chain.map (fun x => (Function.update s.heap p t x).tid) = chain.map fun x => (s.heap x).tid :=
      List.map_congr_left fun x hx => by rw [hother x (by simp [hx])]
    rw [this]
    exact h.tids

/-- A block that is given out by `malloc` is in flight. -/
theorem malloc (h : s.Chains chain free flight) : TimerChains s.heap (s.brk + 1) s.timeroot s.timefree chain free (s.brk :: flight) := by
  constructor
  · exact h.root
  · exact h.frees
  · rw [List.cons_append, List.nodup_cons]
    refine ⟨?_, h.nodup⟩
    intro hx
    exact absurd (h.below _ hx) (by omega)
  · intro x hx
    rcases List.mem_cons.1 hx with rfl | hx
    · omega
    · have := h.below x hx
      omega
  · exact h.sorted
  · exact h.tids

end TimerChains

/-- The counters and the record of the run agree with the chains: each timer that was started is on the chain, was taken off it by
`remove_timer`, or was taken off it by `timer_handler`, and only once. -/
structure TimerCounts (heap : Nat → GtTimer) (numTimersFree safeTimerCnt : Int) (started : Nat) (cancelled fired : List Nat)
    (chain free : List Nat) : Prop where
  frees : numTimersFree = free.length
  safes : safeTimerCnt = chain.countP fun p => (heap p).safe
  starts : ∀ n, (chain.map fun p => (heap p).start).count n + cancelled.count n + fired.count n = if n < started then 1 else 0

/-- The counters of a state. -/
abbrev TimerState.Counts (s : TimerState) : List Nat → List Nat → Prop :=
  TimerCounts s.heap s.numTimersFree s.safeTimerCnt s.started s.cancelled s.fired

/-- Two states are at the same place of `timer_handler` with the same system timer. -/
structure TimerState.SameControl (s s' : TimerState) : Prop where
  timerActive : s'.timerActive = s.timerActive
  sysTimerAt : s'.sysTimerAt = s.sysTimerAt
  itimer : s'.itimer = s.itimer
  timerStackCount : s'.timerStackCount = s.timerStackCount
  timerInHandler : s'.timerInHandler = s.timerInHandler
  ctl : s'.ctl = s.ctl

/-- What an operation on the chains does: the blocks stay on one of the two, and the counters stay right. -/
structure TimerMove (s s' : TimerState) (chain free flight chain' free' : List Nat) : Prop where
  chains : s'.Chains chain' free' flight
  mem : ∀ x, x ∈ chain ∨ x ∈ free → x ∈ chain' ∨ x ∈ free'
  counts : s.Counts chain free → s'.Counts chain' free'
  control : s.SameControl s'

variable {s : TimerState} {chain free flight : List Nat}

namespace TimerMove

theorem refl (h : s.Chains chain free flight) : TimerMove s s chain free flight chain free :=
  ⟨h, fun _ hx => hx, id, rfl, rfl, rfl, rfl, rfl, rfl⟩

theorem trans {s' s'' : TimerState} {chain' free' chain'' free'' : List Nat} (h : TimerMove s s' chain free flight chain' free')
    (h' : TimerMove s' s'' chain' free' flight chain'' free'') : TimerMove s s'' chain free flight chain'' free'' where
  chains := h'.chains
  mem := fun x hx => h'.mem x (h.mem x hx)
  counts := h'.counts ∘ h.counts
  control := ⟨h'.control.timerActive.trans h.control.timerActive, h'.control.sysTimerAt.trans h.control.sysTimerAt,
      h'.control.itimer.trans h.control.itimer, h'.control.timerStackCount.trans h.control.timerStackCount,
      h'.control.timerInHandler.trans h.control.timerInHandler, h'.control.ctl.trans h.control.ctl⟩

end TimerMove

/-! ## Removal -/

/-- The chain without the request of an id. -/
def withoutTid (s : TimerState) (tid : Int) (chain : List Nat) : List Nat := chain.filter fun p => (s.heap p).tid != tid

/-- `find_timer` finds the request of the id, of which there is one at most. -/
theorem findTimer_spec (h : s.Chains chain free flight) (tid : Int) : (findTimer tid s).1 = none ∧ withoutTid s tid chain = chain ∨
      ∃ pre tp post, chain = pre ++ tp :: post ∧ (s.heap tp).tid = tid ∧ withoutTid s tid chain = pre ++ post ∧
        findTimer tid s = (some tp, pre.getLast?) := by
  obtain ⟨pre, post, hl, hpre, hpost, hw⟩ := walk_split (fun p => (s.heap p).tid == tid) h.isRoot h.length_chain_le none
  rw [Option.or_none] at hw
  have hfind : findTimer tid s = (post.head?, pre.getLast?) := by rw [findTimer, hw]
  have hkeep : withoutTid s tid pre = pre := List.filter_eq_self.2 fun x hx => by simpa [bne] using hpre x hx
  cases post with
  | nil =>
    left
    rw [List.append_nil] at hl
    rw [hl, hkeep, hfind]
    exact ⟨rfl, rfl⟩
  | cons tp post =>
    right
    have htp : (s.heap tp).tid = tid := by simpa using hpost tp (by simp)
    refine ⟨pre, tp, post, hl, htp, ?_, hfind⟩
    have hnd := h.tids
    rw [hl, List.map_append, List.map_cons] at hnd
    have hpost' : withoutTid s tid post = post := by
      refine List.filter_eq_self.2 fun x hx => ?_
      have hne := (List.nodup_cons.1 (List.nodup_append.1 hnd).2.1).1
      rw [bne_iff_ne]
      rintro hxt
      exact hne (List.mem_map.2 ⟨x, hx, by rw [hxt, htp]⟩)
    rw [hl, withoutTid, List.filter_append, List.filter_cons_of_neg (by simp [htp])]
    exact congrArg₂ _ hkeep hpost'

/-- What `remove_timer` does to the request that it finds. -/
theorem removeTimer_found {tid : Int} {tp : Nat} {prev : Option Nat} (hfind : findTimer tid s = (some tp, prev)) :
    removeTimer tid s = { (s.linkRoot prev (s.next tp)).toFree tp with
        deferredTimersCheckNeeded :=
          if prev.isNone && (s.linkRoot prev (s.next tp)).timeroot.isNone then false else s.deferredTimersCheckNeeded
        safeTimerCnt := if (s.heap tp).safe then s.safeTimerCnt - 1 else s.safeTimerCnt
        cancelled := (s.heap tp).start :: s.cancelled } := by
  have hstart : (((s.linkRoot prev (s.next tp)).toFree tp).heap tp).start = (s.heap tp).start := by
    refine GtTimer.start_of_body ?_
    exact ((s.linkRoot prev (s.next tp)).body_setNext tp _ tp).trans (s.body_linkRoot prev _ tp)
  unfold removeTimer
  rw [hfind, ← hstart]
  cases prev <;> dsimp only <;> split_ifs <;> rfl

/-- What `remove_timer` does. -/
theorem removeTimer_spec (h : s.Chains chain free flight) (tid : Int) :
    ∃ free', TimerMove s (removeTimer tid s) chain free flight (withoutTid s tid chain) free' ∧
      (∀ x, ((removeTimer tid s).heap x).body = (s.heap x).body) ∧
      ((removeTimer tid s).deferredTimersCheckNeeded = s.deferredTimersCheckNeeded ∨ withoutTid s tid chain = []) := by
  rcases findTimer_spec h tid with ⟨hfind, hself⟩ | ⟨pre, tp, post, rfl, -, hself, hfind⟩
  · have hs : removeTimer tid s = s := by
      unfold removeTimer
      split
      · rfl
      · rename_i heq
        rw [heq] at hfind
        exact absurd hfind (by simp)
    rw [hs, hself]
    exact ⟨free, .refl h, fun _ => rfl, .inl rfl⟩
  · have hs := removeTimer_found hfind
    have hbody : ∀ x, ((removeTimer tid s).heap x).body = (s.heap x).body := by
      intro x
      rw [hs]
      exact ((s.linkRoot pre.getLast? (s.next tp)).body_setNext tp _ x).trans (s.body_linkRoot _ _ x)
    rw [hself]
    refine ⟨tp :: free, ⟨?_, ?_, ?_, ?_⟩, hbody, ?_⟩
    · rw [hs]
      exact h.unlink.toFree
    · intro x hx
      simp only [List.mem_append, List.mem_cons] at hx ⊢
      tauto
    · intro hc
      have hsafe : ∀ x, ((removeTimer tid s).heap x).safe = (s.heap x).safe := fun x => GtTimer.safe_of_body (hbody x)
      have hstart : ∀ x, ((removeTimer tid s).heap x).start = (s.heap x).start := fun x => GtTimer.start_of_body (hbody x)
      constructor
      · have : (removeTimer tid s).numTimersFree = s.numTimersFree + 1 := by
          rw [hs]
          cases pre.getLast? <;> rfl
        rw [this, hc.frees]
        rfl
      · have : (removeTimer tid s).safeTimerCnt = if (s.heap tp).safe then s.safeTimerCnt - 1 else s.safeTimerCnt := by rw [hs]
        rw [this, hc.safes]
        simp only [hsafe, List.countP_append, List.countP_cons]
        split_ifs <;> omega
      · intro n
        have hcan : (removeTimer tid s).cancelled = (s.heap tp).start :: s.cancelled := by rw [hs]
        have hfired : (removeTimer tid s).fired = s.fired := by
          rw [hs]
          cases pre.getLast? <;> rfl
        have hstarted : (removeTimer tid s).started = s.started := by
          rw [hs]
          cases pre.getLast? <;> rfl
        have := hc.starts n
        rw [hcan, hfired, hstarted]
        simp only [hstart, List.map_append, List.map_cons, List.count_append, List.count_cons] at this ⊢
        omega
    · rw [hs]
      constructor <;> cases pre.getLast? <;> rfl
    · rw [hs]
      by_cases hr : (pre.getLast?.isNone && (s.linkRoot pre.getLast? (s.next tp)).timeroot.isNone) = true
      · right
        rw [Bool.and_eq_true, Option.isNone_iff_eq_none, Option.isNone_iff_eq_none] at hr
        have := h.unlink.isRoot
        rw [hr.2] at this
        exact (List.head?_eq_none_iff.1 this.eq_head?.symm)
      · left
        exact if_neg hr

/-! ## Allocation -/

/-- The requests on the chain are blocks that were given out before. -/
theorem TimerCounts.congr {heap' : Nat → GtTimer} {numTimersFree : Int} {free' : List Nat} (hc : s.Counts chain free)
    (hheap : ∀ x ∈ chain, (heap' x).body = (s.heap x).body) (hfrees : numTimersFree = free'.length) :
    TimerCounts heap' numTimersFree s.safeTimerCnt s.started s.cancelled s.fired chain free' where
  frees := hfrees
  safes := by
    rw [hc.safes]
    congr 1
    refine List.countP_congr fun x hx => ?_
    rw [GtTimer.safe_of_body (hheap x hx)]
  starts := by
    have : chain.map (fun x => (heap' x).start) = chain.map fun x => (s.heap x).start :=
      List.map_congr_left fun x hx => GtTimer.start_of_body (hheap x hx)
    rw [this]
    exact hc.starts

theorem gtTimersAllocLoop_spec (cnt : Nat) (h : s.Chains chain free flight) :
    ∃ new heap, new.length = cnt ∧ (∀ x < s.brk, heap x = s.heap x) ∧
      gtTimersAllocLoop cnt s = { s with heap, brk := s.brk + cnt, timefree := (new ++ free).head? } ∧
      (gtTimersAllocLoop cnt s).Chains chain (new ++ free) flight := by
  induction cnt generalizing s free with
  | zero =>
    refine ⟨[], s.heap, rfl, fun _ _ => rfl, ?_, h⟩
    rw [List.nil_append, ← h.isFree.eq_head?]
    rfl
  | succ cnt ih =>
    let t : GtTimer := { s.heap s.brk with hdLenMax := gtTimerInitDataLen, next := s.timefree }
    let s' : TimerState := { s with heap := Function.update s.heap s.brk t, timefree := some s.brk, brk := s.brk + 1 }
    have hfly : TimerChains (Function.update s.heap s.brk t) (s.brk + 1) s.timeroot s.timefree chain free (s.brk :: flight) :=
      TimerChains.update (s := { s with brk := s.brk + 1 }) h.malloc t
    have h' : s'.Chains chain (s.brk :: free) flight := hfly.push (by rw [Function.update_self])
    obtain ⟨new, heap, hlen, hheap, heq, hch⟩ := ih h'
    refine ⟨new ++ [s.brk], heap, by simp [hlen], ?_, ?_, ?_⟩
    · intro x hx
      have hne : x ≠ s.brk := by omega
      rw [hheap x (show x < s.brk + 1 by omega)]
      exact Function.update_of_ne hne _ _
    · rw [List.append_assoc, List.singleton_append]
      change gtTimersAllocLoop cnt s' = _
      rw [heq]
      have hbrk : s.brk + 1 + cnt = s.brk + (cnt + 1) := by omega
      simp only [s', hbrk]
    · rw [List.append_assoc]
      exact hch

/-- What `gt_timers_alloc` does. -/
theorem gtTimersAlloc_spec (h : s.Chains chain free flight) : ∃ free', TimerMove s (gtTimersAlloc s) chain free flight chain free' ∧
      (∀ x < s.brk, (gtTimersAlloc s).heap x = s.heap x) ∧ (gtTimersAlloc s).deferredTimersCheckNeeded = s.deferredTimersCheckNeeded := by
  obtain ⟨new, heap, hlen, hheap, heq, hch⟩ := gtTimersAllocLoop_spec timerBlockSize h
  have hs : gtTimersAlloc s = { s with
      heap, brk := s.brk + timerBlockSize, timefree := (new ++ free).head?, numTimersFree := s.numTimersFree + timerBlockSize } := by
    rw [gtTimersAlloc, heq]
  rw [heq] at hch
  rw [hs]
  refine ⟨new ++ free, ⟨hch, ?_, ?_, ⟨rfl, rfl, rfl, rfl, rfl, rfl⟩⟩, hheap, rfl⟩
  · intro x hx
    simp only [List.mem_append]
    tauto
  · intro hc
    refine hc.congr ?_ ?_
    · intro x hx
      exact congrArg GtTimer.body (hheap x (h.below x (by simp [hx])))
    · rw [hc.frees, List.length_append]
      push_cast
      omega

/-- What `add_timer` takes for a new request. -/
theorem obtainBlock_spec (hdataLen : Nat) (h : s.Chains chain free flight) : ∃ ntp free' heap brk timefree numTimersFree,
      obtainBlock hdataLen s = (ntp, { s with heap, brk, timefree, numTimersFree }) ∧
      TimerChains heap brk s.timeroot timefree chain free' (ntp :: flight) ∧ (∀ x ∈ chain, (heap x).body = (s.heap x).body) ∧
      (∀ x ∈ free, x = ntp ∨ x ∈ free') ∧ (s.numTimersFree = free.length → numTimersFree = free'.length) := by
  obtain ⟨pre, post, hl, -, -, hw⟩ := walk_split (fun p => decide ((s.heap p).hdLenMax ≥ hdataLen)) h.isFree h.length_free_le none
  cases post with
  | nil =>
    rw [List.append_nil] at hl
    have hs : obtainBlock hdataLen s = (s.brk, { s with
        heap := Function.update s.heap s.brk { s.heap s.brk with hdLenMax := hdataLen }, brk := s.brk + 1 }) := by
      rw [obtainBlock, hw]
      rfl
    refine ⟨_, free, _, _, s.timefree, s.numTimersFree, hs, ?_, ?_, fun x hx => .inr hx, id⟩
    · exact TimerChains.update (s := { s with brk := s.brk + 1 }) h.malloc _
    · intro x hx
      have hne : x ≠ s.brk := by
        have := h.below x (by simp [hx])
        omega
      rw [Function.update_of_ne hne]
  | cons ntp post =>
    subst hl
    have hs : obtainBlock hdataLen s = (ntp, { s with
        heap := (s.linkFree pre.getLast? (s.next ntp)).heap
        brk := s.brk
        timefree := (s.linkFree pre.getLast? (s.next ntp)).timefree
        numTimersFree := s.numTimersFree - 1 }) := by
      rw [obtainBlock, hw]
      cases pre.getLast? <;> rfl
    have hunlink := h.unlinkFree
    have hroot : (s.linkFree pre.getLast? (s.next ntp)).timeroot = s.timeroot := by cases pre.getLast? <;> rfl
    have hbrk : (s.linkFree pre.getLast? (s.next ntp)).brk = s.brk := by cases pre.getLast? <;> rfl
    rw [TimerState.Chains, hroot, hbrk] at hunlink
    refine ⟨ntp, pre ++ post, _, _, _, _, hs, hunlink, fun x _ => s.body_linkFree _ _ x, ?_, ?_⟩
    · intro x hx
      simp only [List.mem_append, List.mem_cons] at hx ⊢
      tauto
    · intro hc
      rw [hc, List.length_append, List.length_append, List.length_cons]
      omega

/-- What `add_timer` does, for an id that is not on the chain. -/
theorem addTimer_spec (h : s.Chains chain free flight) {tid : Int} (htid : ∀ x ∈ chain, (s.heap x).tid ≠ tid) (atp : AbsTime)
    (timeToExpir : Nat) (handler : Option Nat) (hdataLen : Nat) (safeTimer : Bool) :
    ∃ ntp s' pre post free', addTimer atp tid timeToExpir handler hdataLen safeTimer s = (ntp, s') ∧ chain = pre ++ post ∧
      TimerMove s s' chain free flight (pre ++ ntp :: post) free' ∧
      (∀ x ∈ chain, (s'.heap x).expirTime = (s.heap x).expirTime) ∧ (s'.heap ntp).tid = tid ∧
      s'.deferredTimersCheckNeeded = s.deferredTimersCheckNeeded := by
  obtain ⟨ntp, free', heap, brk, timefree, numTimersFree, hob, hch, hbody, hmem, hnum⟩ := obtainBlock_spec hdataLen h
  let t : GtTimer := { heap ntp with
    tid, handler, safe := safeTimer, expirTime := addIntToAbsTime atp timeToExpir, start := s.started }
  let s₁ : TimerState := { s with
    heap := Function.update heap ntp t, brk, timefree, numTimersFree
    safeTimerCnt := if safeTimer then s.safeTimerCnt + 1 else s.safeTimerCnt
    started := s.started + 1 }
  have hch₁ : s₁.Chains chain free' (ntp :: flight) := TimerChains.update (s := { s with heap, brk, timefree, numTimersFree }) hch t
  have hself : s₁.heap ntp = t := Function.update_self _ _ _
  have hother : ∀ x ∈ chain, (s₁.heap x).body = (s.heap x).body := by
    intro x hx
    have hne : x ≠ ntp := by
      rintro rfl
      exact hch₁.not_mem_flight.2.1 hx
    rw [← hbody x hx]
    exact congrArg GtTimer.body (Function.update_of_ne hne _ _)
  obtain ⟨pre, post, hl, hch₂, hbody₂⟩ := hch₁.insertTimer fun x hx => by
    rw [GtTimer.tid_of_body (hother x hx), hself]
    exact htid x hx
  have hheap : ∀ x ∈ chain, ((insertTimer ntp s₁).heap x).body = (s.heap x).body := fun x hx =>
    (hbody₂ x).trans (hother x hx)
  have hnew : ((insertTimer ntp s₁).heap ntp).body = t.body := by rw [hbody₂, hself]
  have hins : ∃ heap timeroot, insertTimer ntp s₁ = { s₁ with heap, timeroot } := by
    unfold insertTimer
    dsimp only
    cases (walk s₁.next (fun p => decide (absTimeComp (s₁.heap p).expirTime (s₁.heap ntp).expirTime ≥ 0)) s₁.brk none
      s₁.timeroot).1 <;> exact ⟨_, _, rfl⟩
  obtain ⟨heap', timeroot', hins⟩ := hins
  refine ⟨ntp, insertTimer ntp s₁, pre, post, free', ?_, hl, ⟨hch₂, ?_, ?_, ?_⟩, ?_, ?_, ?_⟩
  · rw [addTimer, hob]
  · intro x hx
    simp only [List.mem_append, List.mem_cons]
    rcases hx with hx | hx
    · rw [hl, List.mem_append] at hx
      tauto
    · rcases hmem x hx with rfl | hx
      · simp
      · exact .inr hx
  · intro hc
    have hsafe : ∀ x ∈ chain, ((insertTimer ntp s₁).heap x).safe = (s.heap x).safe := fun x hx => GtTimer.safe_of_body (hheap x hx)
    have hcnt : (insertTimer ntp s₁).safeTimerCnt = if safeTimer then s.safeTimerCnt + 1 else s.safeTimerCnt := by rw [hins]
    have hsafes : chain.countP (fun x => ((insertTimer ntp s₁).heap x).safe) = chain.countP fun x => (s.heap x).safe :=
      List.countP_congr fun x hx => by rw [hsafe x hx]
    have hstarts : chain.map (fun x => ((insertTimer ntp s₁).heap x).start) = chain.map fun x => (s.heap x).start :=
      List.map_congr_left fun x hx => GtTimer.start_of_body (hheap x hx)
    have hnewsafe : ((insertTimer ntp s₁).heap ntp).safe = safeTimer := GtTimer.safe_of_body hnew
    have hnewstart : ((insertTimer ntp s₁).heap ntp).start = s.started := GtTimer.start_of_body hnew
    constructor
    · rw [hins]
      exact hnum hc.frees
    · rw [hcnt, hc.safes, ← hsafes, hl, List.countP_append, List.countP_append, List.countP_cons, hnewsafe]
      cases safeTimer <;> simp <;> omega
    · intro n
      have hn := hc.starts n
      rw [← hstarts, hl, List.map_append, List.count_append] at hn
      have hcan : (insertTimer ntp s₁).cancelled = s.cancelled := by rw [hins]
      have hfired : (insertTimer ntp s₁).fired = s.fired := by rw [hins]
      have hstarted : (insertTimer ntp s₁).started = s.started + 1 := by rw [hins]
      rw [hcan, hfired, List.map_append, List.map_cons, List.count_append, List.count_cons, hnewstart]
      simp only [beq_iff_eq]
      split_ifs at hn ⊢ <;> omega
  · rw [hins]
    exact ⟨rfl, rfl, rfl, rfl, rfl, rfl⟩
  · exact fun x hx => GtTimer.expirTime_of_body (hheap x hx)
  · exact GtTimer.tid_of_body hnew
  · rw [hins]

end Gtm
