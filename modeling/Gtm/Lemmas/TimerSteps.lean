import Gtm.Lemmas.TimerChain

/-!
# The steps of the timers

What every routine does to the chains, to the place of `timer_handler`, and to the system timer. `start_first_timer` ends with the
system timer set for the first request, with `deferred_timers_check_needed`, or with a call of `timer_handler`. Behind its loop
`timer_handler` does the same once more, so that nothing has to be known about the system timer while it is at work.
-/

namespace Gtm

open PtrList

variable {s s' : TimerState} {chain free flight chain' free' : List Nat} {cfg : TimerConfig} {m : Moment}

/-- A request that waits on the chain is not forgotten: the check is asked for, or the system timer is set for a time that is not
after any request. -/
def TimerState.Armed (s : TimerState) (chain : List Nat) : Prop :=
  chain ≠ [] → s.deferredTimersCheckNeeded = true ∨
    ∃ t, s.itimer = some t ∧ s.sysTimerAt = t ∧ ∀ p ∈ chain, t ≤ (s.heap p).expirTime

/-- The place of `timer_handler` fits the variables: the walk goes on behind `tpop_prev`, which is on one of the chains, and the block
whose handler is running is on neither. -/
def TimerState.CtlOk (s : TimerState) (chain free flight : List Nat) : Prop :=
  match s.ctl with
  | .idle => s.timerStackCount = 0 ∧ s.timerInHandler = false ∧ flight = []
  | .scan f tpop => s.timerStackCount = 1 ∧ s.timerInHandler = false ∧ flight = [] ∧ tpop = f.tpopPrev.elim s.timeroot s.next ∧
      ∀ q, f.tpopPrev = some q → q ∈ chain ∨ q ∈ free
  | .call f p => s.timerStackCount = 1 ∧ flight = [p] ∧ ∀ q, f.tpopPrev = some q → q ∈ chain ∨ q ∈ free
  | .scanned _ => s.timerStackCount = 1 ∧ s.timerInHandler = false ∧ flight = []
  | .leave => s.timerStackCount = 1 ∧ s.timerInHandler = false ∧ flight = []

/-! ## The system timer -/

/-- What the loop of `start_first_timer` does along a part of the chain. -/
theorem startFirstLoop_spec (cfg : TimerConfig) (m : Moment) (currTime : AbsTime) {r : Option Nat} {l : List Nat} (h : IsList s.next r l) {fuel : Nat}
    (hf : l.length ≤ fuel) :
    (s.timerStackCount = 0 ∧ ∃ b, startFirstLoop cfg m currTime fuel r s = timerHandler m { s with deferredTimersCheckNeeded := b }) ∨
      ∃ i t a b, startFirstLoop cfg m currTime fuel r s =
          { s with itimer := i, sysTimerAt := t, timerActive := a, deferredTimersCheckNeeded := b } ∧
        (b = true ∨ l = [] ∨ (i = some t ∧ ∃ p ∈ l.head?, t = (s.heap p).expirTime)) ∧
        (s.deferredTimersCheckNeeded = true → b = true) := by
  induction l generalizing s r fuel with
  | nil =>
    have hr : r = none := h
    subst hr
    right
    refine ⟨s.itimer, s.sysTimerAt, s.timerActive, s.deferredTimersCheckNeeded, ?_, .inr (.inl rfl), id⟩
    cases fuel <;> rfl
  | cons p l ih =>
    obtain ⟨rfl, hl⟩ := h
    obtain ⟨fuel, rfl⟩ : ∃ k, fuel = k + 1 := ⟨fuel - 1, by simp at hf; omega⟩
    rw [startFirstLoop]
    split
    · split
      · -- an expired request that may be handled
        by_cases hst : s.timerStackCount = 0
        · exact .inl ⟨hst, s.deferredTimersCheckNeeded, rfl⟩
        · right
          refine ⟨s.itimer, s.sysTimerAt, s.timerActive, true, ?_, .inl rfl, fun _ => rfl⟩
          rw [timerHandler, if_pos (by omega)]
      · -- an expired request that is deferred
        rcases ih (s := { s with deferredTimersCheckNeeded := true }) hl (by simpa using hf) with h | ⟨i, t, a, b, heq, -, hb⟩
        · exact .inl h
        · exact .inr ⟨i, t, a, b, heq, .inl (hb rfl), fun _ => hb rfl⟩
    · right
      refine ⟨some (s.heap p).expirTime, (s.heap p).expirTime, true, s.deferredTimersCheckNeeded, ?_, .inr (.inr ⟨rfl, p, rfl, rfl⟩), id⟩
      rw [sysSettimer, AbsTime.addAbsTime_subAbsTime]

/-- The first request of the chain is not after the others. -/
theorem TimerChains.head_le (h : s.Chains chain free flight) {p : Nat} (hp : p ∈ chain.head?) :
    ∀ q ∈ chain, (s.heap p).expirTime ≤ (s.heap q).expirTime := by
  intro q hq
  cases chain with
  | nil => simp at hq
  | cons x chain =>
    obtain rfl : x = p := by simpa using hp
    rcases List.mem_cons.1 hq with rfl | hq
    · exact AbsTime.le_iff.2 (Int.le_refl _)
    · exact (List.pairwise_cons.1 h.sorted).1 q hq

/-- What `start_first_timer` does. -/
theorem startFirstTimer_spec (cfg : TimerConfig) (m : Moment) (h : s.Chains chain free flight) (currTime : AbsTime) :
    (1 < s.timerStackCount ∨ s.timerInHandler = true) ∧ startFirstTimer cfg m currTime s = { s with deferredTimersCheckNeeded := false } ∨
      s.timerStackCount = 0 ∧ s.timerInHandler = false ∧
        (∃ b, startFirstTimer cfg m currTime s = timerHandler m { s with deferredTimersCheckNeeded := b }) ∨
      s.timerInHandler = false ∧ (startFirstTimer cfg m currTime s).Armed chain ∧ ∃ i t a b, startFirstTimer cfg m currTime s =
          { s with itimer := i, sysTimerAt := t, timerActive := a, deferredTimersCheckNeeded := b } := by
  unfold startFirstTimer
  dsimp only
  split
  · rename_i hg
    left
    simpa using hg
  · rename_i hg
    right
    have hin : s.timerInHandler = false := by
      simp only [Bool.or_eq_true, not_or, Bool.not_eq_true] at hg
      exact hg.2
    -- an alarm sets the flag and leaves, since `timer_handler` is at work
    obtain ⟨i₀, b₀, hs₀, hi₀⟩ : ∃ i b, (if (m.alarm && decide (0 < s.timerStackCount)) = true then
          sigalrm m { s with deferredTimersCheckNeeded := false }
        else { s with deferredTimersCheckNeeded := false }) = { s with itimer := i, deferredTimersCheckNeeded := b } ∧
          (s.timerStackCount = 0 → i = s.itimer) := by
      split
      · rename_i ha
        rw [Bool.and_eq_true, decide_eq_true_eq] at ha
        refine ⟨none, true, ?_, fun hst => absurd ha.2 (by omega)⟩
        simp only [sigalrm, timerHandler, if_pos ha.2]
      · exact ⟨s.itimer, false, rfl, fun _ => rfl⟩
    rw [hs₀]
    rcases startFirstLoop_spec (s := { s with itimer := i₀, deferredTimersCheckNeeded := b₀ }) cfg m currTime
        (show IsList s.next s.timeroot chain from h.isRoot) (show chain.length ≤ s.brk from h.length_chain_le) with
      ⟨hst, b, heq⟩ | ⟨i, t, a, b, heq, harm, -⟩
    · left
      have hi := hi₀ hst
      subst hi
      exact ⟨hst, hin, b, heq⟩
    · right
      rw [heq]
      refine ⟨hin, ?_, i, t, a, b, rfl⟩
      intro hne
      rcases harm with hb | hnil | ⟨hi, p, hp, ht⟩
      · exact .inl hb
      · exact absurd hnil hne
      · subst ht
        exact .inr ⟨_, hi, rfl, h.head_le hp⟩

/-! ## The routines -/

/-- What a call of a routine leaves behind. It stays at the same place of `timer_handler` or it starts it. -/
structure TimerOutcome (s s' : TimerState) (chain free flight chain' free' : List Nat) : Prop where
  chains : s'.Chains chain' free' flight
  ctl : s'.CtlOk chain' free' flight
  armed : s'.ctl = .idle → s'.Armed chain'
  counts : s.Counts chain free → s'.Counts chain' free'
  stays : s'.ctl = s.ctl ∨ ∃ f r, s'.ctl = .scan f r ∧ f.tpopPrev = none

theorem PopCtl.callable_iff {c : PopCtl} : c.callable = true ↔ c = .idle ∨ ∃ f p, c = .call f p := by
  cases c <;> simp [PopCtl.callable]

section
variable (hm : TimerMove s s' chain free flight chain' free') (hctl : s.CtlOk chain free flight) (hc : s.ctl.callable = true)
include hm hctl hc

/-- Moves on the chains leave the place of `timer_handler` as it fits. -/
theorem TimerMove.ctlOk : s'.CtlOk chain' free' flight := by
  unfold TimerState.CtlOk at *
  rw [hm.control.ctl]
  rcases PopCtl.callable_iff.1 hc with hidle | ⟨f, p, hcall⟩
  · rw [hidle] at hctl ⊢
    rw [hm.control.timerStackCount, hm.control.timerInHandler]
    exact hctl
  · rw [hcall] at hctl ⊢
    rw [hm.control.timerStackCount]
    exact ⟨hctl.1, hctl.2.1, fun q hq => hm.mem q (hctl.2.2 q hq)⟩

/-- A routine that ends without `start_first_timer`. -/
theorem TimerMove.outcome (harmed : s.ctl = .idle → s'.Armed chain') : TimerOutcome s s' chain free flight chain' free' where
  chains := hm.chains
  ctl := hm.ctlOk hctl hc
  armed := fun h => harmed (by rw [← hm.control.ctl]; exact h)
  counts := hm.counts
  stays := .inl hm.control.ctl

end

/-- A call of `timer_handler` from anywhere but its own loop. -/
theorem timerHandler_outcome (h : s.Chains chain free flight) (hctl : s.CtlOk chain free flight) (hc : s.ctl.callable = true) :
    TimerOutcome s (timerHandler m s) chain free flight chain free := by
  unfold timerHandler
  rcases PopCtl.callable_iff.1 hc with hidle | ⟨f, p, hcall⟩
  · have hst : s.timerStackCount = 0 ∧ s.timerInHandler = false ∧ flight = [] := by
      unfold TimerState.CtlOk at hctl
      rwa [hidle] at hctl
    rw [if_neg (by omega)]
    refine ⟨h, ?_, by simp, id, .inr ⟨_, _, rfl, rfl⟩⟩
    refine ⟨?_, hst.2.1, hst.2.2, rfl, by simp⟩
    show s.timerStackCount + 1 = 1
    omega
  · have hst : s.timerStackCount = 1 := by
      unfold TimerState.CtlOk at hctl
      rw [hcall] at hctl
      exact hctl.1
    rw [if_pos (by omega)]
    refine ⟨h, ?_, ?_, id, .inl rfl⟩
    · exact hctl
    · intro _ _
      exact .inl rfl

/-- A routine that ends with `start_first_timer`. -/
theorem TimerMove.startFirst (hm : TimerMove s s' chain free flight chain' free') (hctl : s.CtlOk chain free flight)
    (hc : s.ctl.callable = true) (currTime : AbsTime) :
    TimerOutcome s (startFirstTimer cfg m currTime s') chain free flight chain' free' := by
  have hctl' := hm.ctlOk hctl hc
  have hc' : s'.ctl.callable = true := by rwa [hm.control.ctl]
  rcases startFirstTimer_spec cfg m hm.chains currTime with ⟨hg, heq⟩ | ⟨-, hin, b, heq⟩ | ⟨hin, harm, i, t, a, b, heq⟩
  · rw [heq]
    refine ⟨hm.chains, ?_, ?_, hm.counts, .inl hm.control.ctl⟩
    · exact hctl'
    · intro hidle
      unfold TimerState.CtlOk at hctl'
      rw [show s'.ctl = .idle from hidle] at hctl'
      rcases hg with hg | hg
      · exact absurd hctl'.1 (by omega)
      · exact absurd hctl'.2.1 (by simp [hg])
  · rw [heq]
    have hctlb : ({ s' with deferredTimersCheckNeeded := b } : TimerState).CtlOk chain' free' flight := by
      exact hctl'
    have hout := timerHandler_outcome (m := m) (s := { s' with deferredTimersCheckNeeded := b }) hm.chains hctlb hc'
    refine ⟨hout.chains, hout.ctl, hout.armed, hout.counts ∘ hm.counts, ?_⟩
    rw [← hm.control.ctl]
    exact hout.stays
  · refine ⟨?_, ?_, fun _ => harm, ?_, ?_⟩
    · rw [heq]
      exact hm.chains
    · rw [heq]
      exact hctl'
    · rw [heq]
      exact hm.counts
    · rw [heq]
      exact .inl hm.control.ctl

theorem TimerChains.eq_nil (h : s.Chains chain free flight) (hroot : ¬ s.timeroot.isSome = true) : chain = [] := by
  have := h.isRoot.eq_head?
  rw [Option.not_isSome_iff_eq_none.1 hroot] at this
  exact List.head?_eq_none_iff.1 this.symm

/-- Requests are taken off the chain. -/
structure TimersRemoved (s s' : TimerState) (chain free flight chain' free' : List Nat) : Prop
    extends TimerMove s s' chain free flight chain' free' where
  subset : chain' ⊆ chain
  body : ∀ x, (s'.heap x).body = (s.heap x).body
  flag : s'.deferredTimersCheckNeeded = s.deferredTimersCheckNeeded ∨ chain' = []

namespace TimersRemoved

theorem refl (h : s.Chains chain free flight) : TimersRemoved s s chain free flight chain free :=
  ⟨.refl h, List.Subset.refl _, fun _ => rfl, .inl rfl⟩

theorem trans {s'' : TimerState} {chain'' free'' : List Nat} (h : TimersRemoved s s' chain free flight chain' free')
    (h' : TimersRemoved s' s'' chain' free' flight chain'' free'') : TimersRemoved s s'' chain free flight chain'' free'' where
  toTimerMove := h.toTimerMove.trans h'.toTimerMove
  subset := fun _ hx => h.subset (h'.subset hx)
  body := fun x => (h'.body x).trans (h.body x)
  flag := by
    rcases h'.flag with hf' | hnil'
    · rcases h.flag with hf | hnil
      · exact .inl (hf'.trans hf)
      · have := h'.subset
        rw [hnil] at this
        exact .inr (List.subset_nil.1 this)
    · exact .inr hnil'

/-- What is left on the chain is still not forgotten. -/
theorem armed (h : TimersRemoved s s' chain free flight chain' free') (ha : s.Armed chain) : s'.Armed chain' := by
  intro hne
  have hne' : chain ≠ [] := by
    rintro rfl
    exact hne (List.subset_nil.1 h.subset)
  rcases ha hne' with hb | ⟨t, hi, ht, hle⟩
  · rcases h.flag with hf | hnil
    · exact .inl (hf.trans hb)
    · exact absurd hnil hne
  · refine .inr ⟨t, h.control.itimer.trans hi, h.control.sysTimerAt.trans ht, ?_⟩
    intro p hp
    rw [GtTimer.expirTime_of_body (h.body p)]
    exact hle p (h.subset hp)

end TimersRemoved

theorem removeTimer_removed (h : s.Chains chain free flight) (tid : Int) :
    ∃ free', TimersRemoved s (removeTimer tid s) chain free flight (withoutTid s tid chain) free' := by
  obtain ⟨free', hm, hbody, hflag⟩ := removeTimer_spec h tid
  exact ⟨free', hm, fun _ hx => List.mem_of_mem_filter hx, hbody, hflag⟩

/-- `clear_timers` takes all requests off the chain. -/
theorem clearTimersLoop_removed (fuel : Nat) (h : s.Chains chain free flight) (hf : chain.length ≤ fuel) :
    ∃ free', TimersRemoved s (clearTimersLoop fuel s) chain free flight [] free' := by
  induction fuel generalizing s chain free with
  | zero =>
    obtain rfl : chain = [] := List.length_eq_zero_iff.1 (by omega)
    exact ⟨free, .refl h⟩
  | succ fuel ih =>
    rw [clearTimersLoop]
    cases chain with
    | nil =>
      have hr : s.timeroot = none := h.isRoot
      simp only [hr]
      exact ⟨free, .refl h⟩
    | cons p chain =>
      have hr : s.timeroot = some p := h.isRoot.1
      obtain ⟨free₁, h₁⟩ := removeTimer_removed h (s.heap p).tid
      have hlen : (withoutTid s (s.heap p).tid (p :: chain)).length ≤ fuel := by
        rw [withoutTid, List.filter_cons_of_neg (by simp)]
        have := List.length_filter_le (fun x => (s.heap x).tid != (s.heap p).tid) chain
        simp only [List.length_cons] at hf
        omega
      obtain ⟨free₂, h₂⟩ := ih h₁.chains hlen
      simp only [hr]
      exact ⟨free₂, h₁.trans h₂⟩

/-- `cancel_unsafe_timers` takes requests off the chain one by one. -/
theorem cancelUnsafeLoop_removed (fuel : Nat) (r : Option Nat) (h : s.Chains chain free flight) :
    ∃ chain' free', TimersRemoved s (cancelUnsafeLoop fuel r s) chain free flight chain' free' := by
  induction fuel generalizing s chain free r with
  | zero => exact ⟨chain, free, .refl h⟩
  | succ fuel ih =>
    cases r with
    | none => exact ⟨chain, free, .refl h⟩
    | some curr =>
      rw [cancelUnsafeLoop]
      split
      · obtain ⟨free₁, h₁⟩ := removeTimer_removed h (s.heap curr).tid
        obtain ⟨chain₂, free₂, h₂⟩ := ih (s.next curr) h₁.chains
        exact ⟨chain₂, free₂, h₁.trans h₂⟩
      · exact ih (s.next curr) h

section Routines

variable (h : s.Chains chain free flight) (hctl : s.CtlOk chain free flight) (hc : s.ctl.callable = true)
  (harmed : s.ctl = .idle → s.Armed chain)
include h hctl hc harmed

theorem cancelTimer_outcome (tid : Int) : ∃ chain' free', TimerOutcome s (cancelTimer cfg m tid s) chain free flight chain' free' := by
  obtain ⟨free', hr⟩ := removeTimer_removed h tid
  refine ⟨withoutTid s tid chain, free', ?_⟩
  unfold cancelTimer
  dsimp only
  split
  · split
    · exact hr.startFirst hctl hc _
    · rename_i hroot
      have hnil := hr.chains.eq_nil hroot
      have hout := hr.outcome hctl hc fun hidle => hr.armed (harmed hidle)
      split
      · -- the system timer is stopped, and there is no request left
        refine ⟨hout.chains, ?_, fun _ hne => absurd hnil hne, hout.counts, hout.stays⟩
        have := hout.ctl
        exact this
      · exact hout
  · exact hr.outcome hctl hc fun hidle => hr.armed (harmed hidle)

theorem clearTimers_outcome : ∃ chain' free', TimerOutcome s (clearTimers s) chain free flight chain' free' := by
  unfold clearTimers
  split
  · exact ⟨chain, free, (TimerMove.refl h).outcome hctl hc harmed⟩
  · obtain ⟨free', hr⟩ := clearTimersLoop_removed s.brk h h.length_chain_le
    have hctl' := hr.ctlOk hctl hc
    refine ⟨[], free', hr.chains, ?_, fun _ hne => absurd rfl hne, hr.counts, .inl hr.control.ctl⟩
    have hc' : (clearTimersLoop s.brk s).ctl.callable = true := by rwa [hr.control.ctl]
    unfold TimerState.CtlOk at *
    rcases PopCtl.callable_iff.1 hc' with hidle | ⟨f, p, hcall⟩
    · rw [hidle] at hctl' ⊢
      exact ⟨hctl'.1, rfl, hctl'.2.2⟩
    · rw [hcall] at hctl' ⊢
      exact hctl'

theorem cancelUnsafeTimers_outcome : ∃ chain' free', TimerOutcome s (cancelUnsafeTimers cfg m s) chain free flight chain' free' := by
  obtain ⟨chain', free', hr⟩ := cancelUnsafeLoop_removed s.brk s.timeroot h
  refine ⟨chain', free', ?_⟩
  have hout := hr.outcome hctl hc fun hidle => hr.armed (harmed hidle)
  unfold cancelUnsafeTimers
  dsimp only
  split
  · split
    · exact hr.startFirst hctl hc _
    · exact hout
  · rename_i hroot
    have hnil := hr.chains.eq_nil hroot
    have hctl' := hout.ctl
    split
    · refine ⟨hout.chains, ?_, fun _ hne => absurd hnil hne, hout.counts, hout.stays⟩
      exact hctl'
    · refine ⟨hout.chains, ?_, fun _ hne => absurd hnil hne, hout.counts, hout.stays⟩
      exact hctl'

theorem startTimerInt_outcome (tid : Int) (timeToExpir : Nat) (handler : Option Nat) (hdataLen : Nat) (safeTimer : Bool) : ∃ chain' free',
      TimerOutcome s (startTimerInt cfg m tid timeToExpir handler hdataLen safeTimer s) chain free flight chain' free' := by
  obtain ⟨free₁, hr⟩ := removeTimer_removed h tid
  unfold startTimerInt
  dsimp only
  obtain ⟨s₂, hs₂, free₂, hm₂, hheap₂, hflag₂⟩ : ∃ s₂, (if (removeTimer tid s).numTimersFree < gtTimerExpandTrigger ∧
        (removeTimer tid s).timerStackCount < 1 then gtTimersAlloc (removeTimer tid s) else removeTimer tid s) = s₂ ∧
      ∃ free₂, TimerMove (removeTimer tid s) s₂ (withoutTid s tid chain) free₁ flight (withoutTid s tid chain) free₂ ∧
        (∀ x < (removeTimer tid s).brk, s₂.heap x = (removeTimer tid s).heap x) ∧
        s₂.deferredTimersCheckNeeded = (removeTimer tid s).deferredTimersCheckNeeded := by
    split
    · obtain ⟨free₂, h₂⟩ := gtTimersAlloc_spec hr.chains
      exact ⟨_, rfl, free₂, h₂⟩
    · exact ⟨_, rfl, free₁, .refl hr.chains, fun _ _ => rfl, rfl⟩
  rw [hs₂]
  have hkept : ∀ x ∈ withoutTid s tid chain, s₂.heap x = (removeTimer tid s).heap x := fun x hx =>
    hheap₂ x (hr.chains.below x (by simp [hx]))
  have htid : ∀ x ∈ withoutTid s tid chain, (s₂.heap x).tid ≠ tid := by
    intro x hx
    rw [hkept x hx, GtTimer.tid_of_body (hr.body x)]
    have := List.of_mem_filter hx
    simpa using this
  obtain ⟨ntp, s₃, pre, post, free₃, hadd, hl, hm₃, hexp₃, htid₃, hflag₃⟩ :=
    addTimer_spec hm₂.chains htid m.curr timeToExpir handler hdataLen safeTimer
  rw [hadd]
  have hm := (hr.toTimerMove.trans hm₂).trans hm₃
  refine ⟨pre ++ ntp :: post, free₃, ?_⟩
  split
  · exact hm.startFirst hctl hc _
  · rename_i hcond
    simp only [Bool.or_eq_true, Bool.and_eq_true, Bool.not_eq_true', decide_eq_true_eq, beq_iff_eq, not_or, not_and] at hcond
    obtain ⟨⟨hroot, hact⟩, hlate⟩ := hcond
    have hact : s₃.timerActive = true := by simpa using hact
    refine hm.outcome hctl hc fun hidle _ => ?_
    have hne : withoutTid s tid chain ≠ [] := by
      intro hnil
      rw [hnil] at hl
      obtain ⟨rfl, rfl⟩ := List.append_eq_nil_iff.1 hl.symm
      rw [hm₃.chains.isRoot.1] at hroot
      exact hroot (by simpa using htid₃)
    rcases hr.armed (harmed hidle) hne with hb | ⟨t, hi, ht, hle⟩
    · exact .inl (hflag₃.trans (hflag₂.trans hb))
    · right
      have hsys : s₃.sysTimerAt = t := hm₃.control.sysTimerAt.trans (hm₂.control.sysTimerAt.trans ht)
      refine ⟨t, hm₃.control.itimer.trans (hm₂.control.itimer.trans hi), hsys, ?_⟩
      intro p hp
      have hold : ∀ x ∈ withoutTid s tid chain, t ≤ (s₃.heap x).expirTime := by
        intro x hx
        rw [hexp₃ x hx, hkept x hx]
        exact hle x hx
      simp only [List.mem_append, List.mem_cons] at hp
      rcases hp with hp | rfl | hp
      · exact hold p (by rw [hl]; simp [hp])
      · -- the new request is not before the time the system timer is set for
        have hlate := hlate hact
        rw [hsys] at hlate
        rw [AbsTime.le_iff]
        have h₁ := t.usec_lt
        simp only [AbsTime.usecs, microsecsInSec] at *
        omega
      · exact hold p (by rw [hl]; simp [hp])

theorem startTimer_outcome (tid : Int) (timeToExpir : Nat) (handler : Option Nat) (hdataLen : Nat) :
    ∃ chain' free', TimerOutcome s (startTimer cfg m tid timeToExpir handler hdataLen s) chain free flight chain' free' := by
  unfold startTimer
  dsimp only
  split
  · exact ⟨chain, free, (TimerMove.refl h).outcome hctl hc harmed⟩
  · exact startTimerInt_outcome h hctl hc harmed _ _ _ _ _

/-- What a call of any routine leaves behind. -/
theorem timerCall_outcome (c : TimerCall) : ∃ chain' free', TimerOutcome s (c.run cfg m s) chain free flight chain' free' := by
  cases c with
  | startTimer tid timeToExpir handler hdataLen => exact startTimer_outcome h hctl hc harmed _ _ _ _
  | cancelTimer tid => exact cancelTimer_outcome h hctl hc harmed tid
  | cancelUnsafeTimers => exact cancelUnsafeTimers_outcome h hctl hc harmed
  | clearTimers => exact clearTimers_outcome h hctl hc harmed
  | checkForDeferredTimers =>
    have hctl' : ({ s with deferredTimersCheckNeeded := false } : TimerState).CtlOk chain free flight := by
      exact hctl
    obtain ⟨h₁, h₂, h₃, h₄, h₅⟩ := timerHandler_outcome (m := m) (s := { s with deferredTimersCheckNeeded := false }) h hctl' hc
    exact ⟨chain, free, h₁, h₂, h₃, h₄, h₅⟩
  | timerHandler => exact ⟨chain, free, timerHandler_outcome h hctl hc⟩

end Routines

/-! ## The loop of `timer_handler` -/

/-- The block behind a block of a list. -/
theorem isList_next {r : Option Nat} {l : List Nat} (h : IsList s.next r l) {q p : Nat} (hq : q ∈ l) (hp : s.next q = some p) :
    ∃ pre post, l = pre ++ p :: post ∧ pre.getLast? = some q := by
  obtain ⟨pre, post, rfl⟩ := List.append_of_mem hq
  have hbehind := TimerChains.isList_behind h
  rw [hp] at hbehind
  cases post with
  | nil => exact absurd hbehind (by simp)
  | cons x post =>
    obtain rfl : p = x := Option.some.inj hbehind.1
    exact ⟨pre ++ [q], post, by simp, by simp⟩

/-- The block the walk is at stands behind `tpop_prev`, in the chain of requests or, if `tpop_prev` has got there, in the chain of
unused blocks. -/
theorem tpop_place (h : s.Chains chain free flight) {prev : Option Nat} {p : Nat} (hp : prev.elim s.timeroot s.next = some p)
    (hprev : ∀ q, prev = some q → q ∈ chain ∨ q ∈ free) : (∃ pre post, chain = pre ++ p :: post ∧ pre.getLast? = prev) ∨
      ∃ pre post q, free = pre ++ p :: post ∧ pre.getLast? = prev ∧ prev = some q ∧ q ∉ chain := by
  cases prev with
  | none =>
    left
    have hroot := h.isRoot
    rw [show s.timeroot = some p from hp] at hroot
    cases chain with
    | nil => exact absurd hroot (by simp)
    | cons x chain =>
      obtain rfl : p = x := Option.some.inj hroot.1
      exact ⟨[], chain, rfl, rfl⟩
  | some q =>
    by_cases hq : q ∈ chain
    · exact .inl (isList_next h.isRoot hq hp)
    · right
      have hqf := (hprev q rfl).resolve_left hq
      obtain ⟨pre, post, hl, hlast⟩ := isList_next h.isFree hqf hp
      exact ⟨pre, post, q, hl, hlast, rfl, hq⟩

/-- The block the walk is at is taken off the list it is on. -/
theorem tpop_unlink (h : s.Chains chain free []) {prev : Option Nat} {p : Nat} (hp : prev.elim s.timeroot s.next = some p)
    (hprev : ∀ q, prev = some q → q ∈ chain ∨ q ∈ free) :
    ∃ chain' free', (s.linkRoot prev (s.next p)).Chains chain' free' [p] ∧ (∀ q, prev = some q → q ∈ chain' ∨ q ∈ free') ∧
      ((∀ q, prev = some q → q ∈ chain) →
        (∃ pre post, chain = pre ++ p :: post ∧ chain' = pre ++ post) ∧ free' = free ∧ ∀ q, prev = some q → q ∈ chain') := by
  rcases tpop_place h hp hprev with ⟨pre, post, rfl, rfl⟩ | ⟨pre, post, q, rfl, hlast, rfl, hq⟩
  · have hmem : ∀ q, pre.getLast? = some q → q ∈ pre ++ post := fun q hq => by simp [List.mem_of_getLast? hq]
    exact ⟨pre ++ post, free, h.unlink, fun q hq => .inl (hmem q hq), fun _ => ⟨⟨pre, post, rfl, rfl⟩, rfl, hmem⟩⟩
  · refine ⟨chain, pre ++ post, ?_, ?_, ?_⟩
    · have := h.unlinkFree
      rw [hlast] at this
      exact this
    · intro q' hq'
      rw [← hlast] at hq'
      right
      simp [List.mem_of_getLast? hq']
    · intro hall
      exact absurd (hall q rfl) hq

/-- The end of a turn of the loop. -/
theorem popDone_spec {f : PopFrame} {p : Nat} (h : s.Chains chain free [p]) (hst : s.timerStackCount = 1)
    (hin : s.timerInHandler = false) (hprev : ∀ q, f.tpopPrev = some q → q ∈ chain ∨ q ∈ free) :
    (popDone f p s).Chains chain (p :: free) [] ∧ (popDone f p s).CtlOk chain (p :: free) [] ∧
      (s.Counts chain free → (popDone f p s).Counts chain (p :: free)) := by
  refine ⟨h.toFree, ⟨hst, hin, rfl, rfl, ?_⟩, ?_⟩
  · intro q hq
    rcases hprev q hq with hq | hq
    · exact .inl hq
    · exact .inr (by simp [hq])
  · intro hc
    have hnum : s.numTimersFree + 1 = (p :: free).length := by rw [hc.frees, List.length_cons, Int.natCast_succ]
    exact hc.congr (fun x _ => s.body_setNext p s.timefree x) hnum

end Gtm
