import Gtm.Lemmas.TimerSteps

/-!
# Timers

In every run of the timer routines, with whatever the handlers do and whenever alarms come, no request that waits is forgotten. The
chains stay lists, in order and without a common block. The counters and the record of what was fired are right as long as no handler
that `timer_handler` calls behind a deferred request has that request taken off the chain: `timer_handler` goes on from the block of
the deferred request, which is then an unused one.
-/

namespace Gtm

open PtrList

/-- The chain, the free chain and the counters agree with each other, and every timer that was started is on the chain, was cancelled
or was fired, and only once. -/
structure TimersConsistent (s : TimerState) (chain free : List Nat) : Prop where
  root : IsList s.next s.timeroot chain
  frees : IsList s.next s.timefree free
  nodup : (chain ++ free).Nodup
  sorted : chain.Pairwise fun p q => (s.heap p).expirTime ≤ (s.heap q).expirTime
  tids : (chain.map fun p => (s.heap p).tid).Nodup
  numTimersFree : s.numTimersFree = free.length
  safeTimerCnt : s.safeTimerCnt = chain.countP fun p => (s.heap p).safe
  starts : ∀ n, n < s.started →
    (chain.map fun p => (s.heap p).start).count n + s.cancelled.count n + s.fired.count n = 1

/-- A block is on the chain of requests. -/
def TimerState.OnChain (s : TimerState) (p : Nat) : Prop := ∃ chain, IsList s.next s.timeroot chain ∧ p ∈ chain

/-- When a handler returns, the deferred request that `timer_handler` remembers is on the chain. -/
def DeferredKept (s : TimerState) : TimerAct → Prop
  | .resume =>
    match s.ctl with
    | .call f _ => ∀ q, f.tpopPrev = some q → s.OnChain q
    | _ => True
  | _ => True

namespace TimerQueueAux

variable {s s' : TimerState} {chain free flight : List Nat} {cfg : TimerConfig} {m : Moment}

/-- What holds in every state: the lists, the place of `timer_handler`, and the system timer outside of it. -/
structure TimerInv (s : TimerState) (chain free flight : List Nat) : Prop where
  chains : s.Chains chain free flight
  ctl : s.CtlOk chain free flight
  armed : s.ctl = .idle ∨ s.ctl = .leave → s.Armed chain

/-- The deferred request that the loop remembers is on the chain. -/
def Held (s : TimerState) (chain : List Nat) : Prop :=
  ∀ f r, s.ctl = .scan f r → ∀ q, f.tpopPrev = some q → q ∈ chain

/-- A step with the invariant, and with the counters as long as the deferred request is kept. -/
def Steps (s s' : TimerState) (chain free : List Nat) (kept : Prop) : Prop :=
  ∃ chain' free' flight', TimerInv s' chain' free' flight' ∧
    (s.Counts chain free → Held s chain → kept → s'.Counts chain' free' ∧ Held s' chain')

theorem onChain_iff (h : s.Chains chain free flight) {p : Nat} : s.OnChain p ↔ p ∈ chain := by
  constructor
  · rintro ⟨l, hl, hp⟩
    rwa [h.isRoot.unique hl]
  · exact fun hp => ⟨chain, h.isRoot, hp⟩

/-- A routine that is called from outside or from a handler. -/
theorem steps_of_outcome {chain' free' : List Nat} {kept : Prop} (hc : s.ctl.callable = true)
    (h : TimerOutcome s s' chain free flight chain' free') : Steps s s' chain free kept := by
  refine ⟨chain', free', flight, ⟨h.chains, h.ctl, ?_⟩, fun hcounts _ _ => ⟨h.counts hcounts, ?_⟩⟩
  · rintro (hidle | hleave)
    · exact h.armed hidle
    · rcases h.stays with hs | ⟨f, r, hs, -⟩
      · rw [← hs, hleave] at hc
        exact absurd hc (by decide)
      · rw [hs] at hleave
        exact absurd hleave (by simp)
  · intro f r hscan q hq
    rcases h.stays with hs | ⟨f', r', hs, hnone⟩
    · rw [← hs, hscan] at hc
      exact absurd hc (by simp [PopCtl.callable])
    · rw [hs] at hscan
      cases hscan
      rw [hnone] at hq
      exact absurd hq (by simp)

theorem sigalrm_steps (h : TimerInv s chain free flight) : Steps s (sigalrm m s) chain free True := by
  have hctl : ({ s with itimer := none } : TimerState).CtlOk chain free flight := by
    have := h.ctl
    exact this
  by_cases hc : s.ctl.callable = true
  · obtain ⟨h₁, h₂, h₃, h₄, h₅⟩ := timerHandler_outcome (m := m) (s := { s with itimer := none }) h.chains hctl hc
    exact steps_of_outcome hc ⟨h₁, h₂, h₃, h₄, h₅⟩
  · -- `timer_handler` is at work, and the second one leaves
    have hst : 0 < s.timerStackCount := by
      have := h.ctl
      unfold TimerState.CtlOk at this
      cases hs : s.ctl with
      | idle => exact absurd hc (by simp [hs, PopCtl.callable])
      | call f p => exact absurd hc (by simp [hs, PopCtl.callable])
      | scan f r => rw [hs] at this; have := this.1; omega
      | scanned f => rw [hs] at this; have := this.1; omega
      | leave => rw [hs] at this; have := this.1; omega
    have heq : sigalrm m s = { s with itimer := none, deferredTimersCheckNeeded := true } := by
      rw [sigalrm, timerHandler, if_pos hst]
    rw [heq]
    refine ⟨chain, free, flight, ⟨h.chains, ?_, fun _ _ => .inl rfl⟩, fun hcounts hheld _ => ⟨hcounts, hheld⟩⟩
    exact hctl

/-- A turn of the loop ends with its block on the free chain. -/
theorem popDone_steps {f : PopFrame} {p : Nat} {kept : Prop} {s₀ : TimerState} {chain₀ free₀ : List Nat}
    (h : s.Chains chain free [p]) (hst : s.timerStackCount = 1) (hin : s.timerInHandler = false)
    (hprev : ∀ q, f.tpopPrev = some q → q ∈ chain ∨ q ∈ free) (hcounts : s₀.Counts chain₀ free₀ → Held s₀ chain₀ → kept →
      s.Counts chain free ∧ ∀ q, f.tpopPrev = some q → q ∈ chain) : Steps s₀ (popDone f p s) chain₀ free₀ kept := by
  obtain ⟨h₁, h₂, h₃⟩ := popDone_spec h hst hin hprev
  refine ⟨chain, p :: free, [], ⟨h₁, h₂, by simp [popDone]⟩, ?_⟩
  intro hc hheld hk
  obtain ⟨hc', hq⟩ := hcounts hc hheld hk
  refine ⟨h₃ hc', ?_⟩
  intro f' r hscan
  obtain ⟨rfl, -⟩ := PopCtl.scan.inj hscan
  exact hq

theorem popTake_eq (prev : Option Nat) (p : Nat) (s : TimerState) :
    popTake prev p s = { s.linkRoot prev (s.next p) with
        safeTimerCnt := if (s.heap p).safe then s.safeTimerCnt - 1 else s.safeTimerCnt
        fired := (s.heap p).start :: s.fired } := by
  unfold popTake
  cases prev <;> dsimp only <;> split <;> rfl

theorem popTake_chains (prev : Option Nat) (p : Nat) (s : TimerState) : (popTake prev p s).Chains = (s.linkRoot prev (s.next p)).Chains := by
  rw [popTake_eq]

/-- A request that is fired leaves the chain, and the counters follow. -/
theorem popTake_counts {chain' free' : List Nat} {prev : Option Nat} {p : Nat} {pre post : List Nat} (hl : chain = pre ++ p :: post)
    (hl' : chain' = pre ++ post) (hfree : free' = free) (hc : s.Counts chain free) : (popTake prev p s).Counts chain' free' := by
  have hbody : ∀ x, ((popTake prev p s).heap x).body = (s.heap x).body := by
    intro x
    rw [popTake_eq]
    exact s.body_linkRoot prev _ x
  have hsafe : ∀ x, ((popTake prev p s).heap x).safe = (s.heap x).safe := fun x => GtTimer.safe_of_body (hbody x)
  have hstart : ∀ x, ((popTake prev p s).heap x).start = (s.heap x).start := fun x => GtTimer.start_of_body (hbody x)
  subst hl hl' hfree
  constructor
  · rw [← hc.frees, popTake_eq]
    cases prev <;> rfl
  · have hcnt : (popTake prev p s).safeTimerCnt = if (s.heap p).safe then s.safeTimerCnt - 1 else s.safeTimerCnt := by rw [popTake_eq]
    rw [hcnt, hc.safes]
    simp only [hsafe, List.countP_append, List.countP_cons]
    split_ifs <;> omega
  · intro n
    have hcan : (popTake prev p s).cancelled = s.cancelled := by
      rw [popTake_eq]
      cases prev <;> rfl
    have hfired : (popTake prev p s).fired = (s.heap p).start :: s.fired := by rw [popTake_eq]
    have hstarted : (popTake prev p s).started = s.started := by
      rw [popTake_eq]
      cases prev <;> rfl
    have := hc.starts n
    rw [hcan, hfired, hstarted]
    simp only [hstart, List.map_append, List.map_cons, List.count_append, List.count_cons] at this ⊢
    omega

/-- A turn of the loop. -/
theorem popScan_steps {f : PopFrame} {r : Option Nat} (h : TimerInv s chain free flight) (hs : s.ctl = .scan f r) :
    Steps s (popScan cfg m f r s) chain free True := by
  have hctl := h.ctl
  unfold TimerState.CtlOk at hctl
  rw [hs] at hctl
  obtain ⟨hst, hin, rfl, hr, hprev⟩ := hctl
  -- behind the loop nothing is remembered
  have hend : ∀ f', Steps s { s with ctl := .scanned f' } chain free True := fun f' =>
    ⟨chain, free, [], ⟨h.chains, ⟨hst, hin, rfl⟩, by simp⟩, fun hc _ _ => ⟨hc, fun _ _ h' => by simp at h'⟩⟩
  unfold popScan
  cases r with
  | none => exact hend f
  | some p =>
    have hp : f.tpopPrev.elim s.timeroot s.next = some p := hr.symm
    dsimp only
    split
    · exact hend f
    · split
      · obtain ⟨chain', free', hch, hprev', hkeep⟩ := tpop_unlink h.chains hp hprev
        rw [← popTake_chains] at hch
        have hcounts : s.Counts chain free → Held s chain → True →
            (popTake f.tpopPrev p s).Counts chain' free' ∧ ∀ q, f.tpopPrev = some q → q ∈ chain' := by
          intro hc hheld _
          obtain ⟨⟨pre, post, hl, hl'⟩, hfree, hq⟩ := hkeep (hheld f (some p) hs)
          exact ⟨popTake_counts hl hl' hfree hc, hq⟩
        have hst₁ : (popTake f.tpopPrev p s).timerStackCount = 1 := by
          rw [popTake_eq]
          cases f.tpopPrev <;> exact hst
        have hin₁ : (popTake f.tpopPrev p s).timerInHandler = false := by
          rw [popTake_eq]
          cases f.tpopPrev <;> exact hin
        split
        · refine ⟨chain', free', [p], ⟨hch, ⟨hst₁, rfl, hprev'⟩, by simp⟩, ?_⟩
          intro hc hheld hk
          exact ⟨(hcounts hc hheld hk).1, fun _ _ h' => by simp at h'⟩
        · exact popDone_steps hch hst₁ hin₁ hprev' hcounts
      · -- the request is deferred
        split
        · exact hend _
        · have hpin : p ∈ chain ∨ p ∈ free := by
            rcases tpop_place h.chains hp hprev with ⟨pre, post, rfl, -⟩ | ⟨pre, post, q, rfl, -, -, -⟩
            · exact .inl (by simp)
            · exact .inr (by simp)
          refine ⟨chain, free, [], ⟨h.chains, ⟨hst, hin, rfl, rfl, ?_⟩, by simp⟩, fun hc hheld _ => ⟨hc, ?_⟩⟩
          · intro q hq
            obtain rfl : p = q := Option.some.inj hq
            exact hpin
          · intro f' r' hscan q hq
            obtain ⟨rfl, -⟩ := PopCtl.scan.inj hscan
            obtain rfl : p = q := Option.some.inj hq
            rcases tpop_place h.chains hp hprev with ⟨pre, post, rfl, -⟩ | ⟨pre, post, q, rfl, -, hfq, hq⟩
            · simp
            · exact absurd (hheld f (some p) hs q hfq) hq

/-- The handler of a request returns. -/
theorem popReturn_steps {f : PopFrame} {p : Nat} (h : TimerInv s chain free flight) (hs : s.ctl = .call f p) :
    Steps s (popReturn m f p s) chain free (∀ q, f.tpopPrev = some q → s.OnChain q) := by
  have hctl := h.ctl
  unfold TimerState.CtlOk at hctl
  rw [hs] at hctl
  obtain ⟨hst, rfl, hprev⟩ := hctl
  have hkept : s.Counts chain free → Held s chain → (∀ q, f.tpopPrev = some q → s.OnChain q) →
      s.Counts chain free ∧ ∀ q, f.tpopPrev = some q → q ∈ chain :=
    fun hc _ hk => ⟨hc, fun q hq => (onChain_iff h.chains).1 (hk q hq)⟩
  unfold popReturn
  split
  · exact popDone_steps h.chains hst rfl hprev hkept
  · exact popDone_steps h.chains hst rfl hprev hkept

/-- What is done behind the loop sets the system timer or asks for a check. -/
theorem popArm_steps {f : PopFrame} (h : TimerInv s chain free flight) (hs : s.ctl = .scanned f) :
    Steps s (popArm cfg m f s) chain free True := by
  have hctl := h.ctl
  unfold TimerState.CtlOk at hctl
  rw [hs] at hctl
  obtain ⟨hst, hin, rfl⟩ := hctl
  have hheld : ∀ s' : TimerState, Held { s' with ctl := .leave } chain := by
    intro s' f' r' hscan
    exact absurd hscan (by simp)
  unfold popArm
  split
  · rcases startFirstTimer_spec cfg m h.chains f.curr with ⟨hg, -⟩ | ⟨hst', -⟩ | ⟨-, harm, i, t, a, b, heq⟩
    · rcases hg with hg | hg
      · omega
      · rw [hin] at hg
        exact absurd hg (by simp)
    · omega
    · rw [heq] at harm ⊢
      exact ⟨chain, free, [], ⟨h.chains, ⟨hst, hin, rfl⟩, fun _ => harm⟩, fun hc _ _ => ⟨hc, hheld _⟩⟩
  · split
    · exact ⟨chain, free, [], ⟨h.chains, ⟨hst, hin, rfl⟩, fun _ _ => .inl rfl⟩, fun hc _ _ => ⟨hc, hheld _⟩⟩
    · rename_i hroot
      simp only [Bool.or_eq_true, not_or] at hroot
      have hnil := h.chains.eq_nil hroot.1
      exact ⟨chain, free, [], ⟨h.chains, ⟨hst, hin, rfl⟩, fun _ hne => absurd hnil hne⟩, fun hc _ _ => ⟨hc, hheld _⟩⟩

/-- Every step keeps the invariant. -/
theorem timerStep_steps {a : TimerAct} (h : TimerInv s chain free flight) (hs : timerStep cfg m s a = some s') :
    Steps s s' chain free (DeferredKept s a) := by
  cases a with
  | resume =>
    simp only [timerStep, resume] at hs
    unfold DeferredKept
    cases hctl : s.ctl with
    | idle => simp [hctl] at hs
    | scan f r =>
      simp only [hctl, Option.some.injEq] at hs
      subst hs
      exact popScan_steps h hctl
    | call f p =>
      simp only [hctl, Option.some.injEq] at hs
      subst hs
      exact popReturn_steps h hctl
    | scanned f =>
      simp only [hctl, Option.some.injEq] at hs
      subst hs
      exact popArm_steps h hctl
    | leave =>
      simp only [hctl, Option.some.injEq] at hs
      subst hs
      have hok := h.ctl
      unfold TimerState.CtlOk at hok
      rw [hctl] at hok
      obtain ⟨hst, hin, rfl⟩ := hok
      refine ⟨chain, free, [], ⟨h.chains, ⟨?_, hin, rfl⟩, fun _ => h.armed (.inr hctl)⟩, fun hc _ _ => ⟨hc, fun _ _ h' => ?_⟩⟩
      · show s.timerStackCount - 1 = 0
        omega
      · simp at h'
  | sigalrm =>
    simp only [timerStep, Option.some.injEq] at hs
    subst hs
    exact sigalrm_steps h
  | call c =>
    simp only [timerStep] at hs
    split at hs
    · rename_i hc
      obtain rfl := Option.some.inj hs
      obtain ⟨chain', free', hout⟩ := timerCall_outcome h.chains h.ctl hc (fun hidle => h.armed (.inl hidle)) c
      exact steps_of_outcome hc hout
    · exact absurd hs (by simp)

/-- The state at the start. -/
theorem prealloc_inv (heap : Nat → GtTimer) (sysTimerAt : AbsTime) :
    ∃ free, TimerInv (preallocGtTimers heap sysTimerAt) [] free [] ∧ (preallocGtTimers heap sysTimerAt).Counts [] free := by
  let s₀ : TimerState :=
    { heap, brk := 0, timeroot := none, timefree := none, numTimersFree := 0, safeTimerCnt := 0, timerActive := false, sysTimerAt
      itimer := none, timerStackCount := 0, timerInHandler := false, deferredTimersCheckNeeded := false, ctl := .idle
      started := 0, cancelled := [], fired := [] }
  have h₀ : s₀.Chains [] [] [] := ⟨rfl, rfl, by simp, by simp, by simp, by simp⟩
  have hc₀ : s₀.Counts [] [] := ⟨rfl, rfl, by simp [s₀]⟩
  obtain ⟨free, hm, -⟩ := gtTimersAlloc_spec h₀
  have hctl : s₀.CtlOk [] [] [] := ⟨rfl, rfl, rfl⟩
  exact ⟨free, ⟨hm.chains, hm.ctlOk hctl rfl, fun _ hne => absurd rfl hne⟩, hm.counts hc₀⟩

variable {ok : TimerState → TimerAct → Prop}

theorem reach_inv (h : TimersReach cfg ok s) : ∃ chain free flight, TimerInv s chain free flight := by
  induction h with
  | init heap sysTimerAt =>
    obtain ⟨free, h, -⟩ := prealloc_inv heap sysTimerAt
    exact ⟨[], free, [], h⟩
  | step _ _ hs ih =>
    obtain ⟨chain, free, flight, h⟩ := ih
    obtain ⟨chain', free', flight', h', -⟩ := timerStep_steps h hs
    exact ⟨chain', free', flight', h'⟩

theorem reach_counts (h : TimersReach cfg DeferredKept s) :
    ∃ chain free flight, TimerInv s chain free flight ∧ s.Counts chain free ∧ Held s chain := by
  induction h with
  | init heap sysTimerAt =>
    obtain ⟨free, h, hc⟩ := prealloc_inv heap sysTimerAt
    refine ⟨[], free, [], h, hc, ?_⟩
    intro f r hscan
    have hctl : (preallocGtTimers heap sysTimerAt).ctl = .idle := rfl
    rw [hctl] at hscan
    exact absurd hscan (by simp)
  | step _ hk hs ih =>
    obtain ⟨chain, free, flight, h, hc, hheld⟩ := ih
    obtain ⟨chain', free', flight', h', hcounts⟩ := timerStep_steps h hs
    exact ⟨chain', free', flight', h', hcounts hc hheld hk⟩

end TimerQueueAux

open TimerQueueAux

/-- In every run in which a deferred request stays on the chain while handlers that are called behind it run, the chains and the
counters are right in every state, and every timer that was started is on the chain, was cancelled, or was fired once. -/
theorem timers_consistent {cfg : TimerConfig} {s : TimerState} (h : TimersReach cfg DeferredKept s) :
    ∃ chain free, TimersConsistent s chain free := by
  obtain ⟨chain, free, flight, h, hc, -⟩ := reach_counts h
  refine ⟨chain, free, h.chains.isRoot, h.chains.isFree, (List.nodup_append.1 h.chains.nodup).2.1, h.chains.sorted, h.chains.tids,
    hc.frees, hc.safes, ?_⟩
  intro n hn
  rw [hc.starts n, if_pos hn]

/-! ## Runs on given steps -/

/-- Steps one after the other, each at its moment and each one checked. -/
def runTimers (cfg : TimerConfig) (check : TimerState → TimerAct → Bool) : List (Moment × TimerAct) → TimerState → Option TimerState
  | [], s => some s
  | (m, a) :: l, s => if check s a then (timerStep cfg m s a).bind (runTimers cfg check l) else none

theorem TimersReach.run {cfg : TimerConfig} {ok : TimerState → TimerAct → Prop} {check : TimerState → TimerAct → Bool}
    (hok : ∀ s a, check s a = true → ok s a) {l : List (Moment × TimerAct)} {s s' : TimerState} (h : TimersReach cfg ok s)
    (hr : runTimers cfg check l s = some s') : TimersReach cfg ok s' := by
  induction l generalizing s with
  | nil =>
    obtain rfl : s = s' := Option.some.inj hr
    exact h
  | cons ma l ih =>
    rw [runTimers] at hr
    split at hr
    · rename_i hcheck
      obtain ⟨s₁, hs₁, hr₁⟩ := Option.bind_eq_some_iff.1 hr
      exact ih (.step h (hok _ _ hcheck) hs₁) hr₁
    · exact absurd hr (by simp)

/-- No handler returns. -/
def noReturn (s : TimerState) : TimerAct → Bool
  | .resume =>
    match s.ctl with
    | .call .. => false
    | _ => true
  | _ => true

theorem deferredKept_of_noReturn (s : TimerState) (a : TimerAct) (h : noReturn s a = true) : DeferredKept s a := by
  unfold noReturn at h
  unfold DeferredKept
  cases a with
  | resume => cases hs : s.ctl <;> simp [hs] at h ⊢
  | sigalrm => trivial
  | call c => trivial

/-- A whole number of seconds. -/
def wholeSecs (sec : Int) : AbsTime := ⟨sec, 0, by decide⟩

/-- A moment at which nothing but `intrpt_ok_state` is out of the ordinary. -/
def momentAt (sec : Int) (intrptOkState : Nat) : Moment :=
  { intrptOkState, processExiting := false, fastLockCount := 0, multiThreadInUse := false, inExtCall := false
    curr := wholeSecs sec, popCurr := wholeSecs sec, alarm := false }

/-- A process in which the handler 3 is safe, at its start. -/
def oneSafeHandler : TimerConfig := { wcsStaleFptr := some 1, wcsCleanDbsyncFptr := some 2, safeHandlers := [3] }

/-- Its state at the start. -/
def timersAtStart : TimerState :=
  preallocGtTimers (fun _ => ⟨wholeSecs 0, none, none, 0, false, 0, 0⟩) (wholeSecs 0)

/-- A timer that is not safe, a safe one after it, and a safe one that is cancelled. All would have expired when the alarm comes in a
state in which timers are deferred, and the handler of the safe timer is called. -/
def deferAndCall : List (Moment × TimerAct) :=
  [(momentAt 0 0, .call (.startTimer 10 1000 (some 7) 0)), (momentAt 0 0, .call (.startTimer 11 2000 (some 3) 0)),
    (momentAt 0 0, .call (.startTimer 12 3000 (some 3) 0)), (momentAt 0 0, .call (.cancelTimer 12)),
    (momentAt 5 1, .sigalrm), (momentAt 5 1, .resume), (momentAt 5 1, .resume)]

/-- In the handler of the safe timer everything is right, and the first timer is remembered. -/
theorem timers_consistent_in_handler :
    ∃ s, runTimers oneSafeHandler noReturn deferAndCall timersAtStart = some s ∧ s.cancelled = [2] ∧ s.fired = [1] ∧
      ∃ chain free, TimersConsistent s chain free := by
  have hmap : (runTimers oneSafeHandler noReturn deferAndCall timersAtStart).map (fun s => (s.cancelled, s.fired)) =
      some ([2], [1]) := by decide
  obtain ⟨s, hrun, hs⟩ := Option.map_eq_some_iff.1 hmap
  simp only [Prod.mk.injEq] at hs
  exact ⟨s, hrun, hs.1, hs.2, timers_consistent (TimersReach.run deferredKept_of_noReturn (.init _ _) hrun)⟩

/-- The handler cancels the first timer and returns. `timer_handler` goes on with the unused blocks, and calls the handler of the timer
that was cancelled long before. -/
theorem timers_inconsistent_after_cancel :
    ∃ s, runTimers oneSafeHandler (fun _ _ => true) (deferAndCall ++
        [(momentAt 5 1, .call (.cancelTimer 10)), (momentAt 5 1, .resume), (momentAt 5 1, .resume)]) timersAtStart = some s ∧
      TimersReach oneSafeHandler (fun _ _ => True) s ∧ s.safeTimerCnt = -1 ∧ s.cancelled = [0, 2] ∧ s.fired = [2, 1] ∧
      ∀ chain free, ¬ TimersConsistent s chain free := by
  have hmap : (runTimers oneSafeHandler (fun _ _ => true) (deferAndCall ++
      [(momentAt 5 1, .call (.cancelTimer 10)), (momentAt 5 1, .resume), (momentAt 5 1, .resume)]) timersAtStart).map
        (fun s => (s.safeTimerCnt, s.cancelled, s.fired)) = some (-1, [0, 2], [2, 1]) := by decide
  obtain ⟨s, hrun, hs⟩ := Option.map_eq_some_iff.1 hmap
  simp only [Prod.mk.injEq] at hs
  refine ⟨s, hrun, TimersReach.run (fun _ _ _ => trivial) (.init _ _) hrun, hs.1, hs.2.1, hs.2.2, ?_⟩
  intro chain free hc
  have := hc.safeTimerCnt
  omega

/-! ## The system timer -/

end Gtm
