import Gtm.Lib.PtrList

/-!
# Timers

The timers of a process (`gt_timers.c`, `gt_timer.h`, `time_calc.c`): a chain of pending requests in the order of their expiry, a
chain of unused request blocks, and one system timer that is set for the first request that has not expired. `timer_handler` is
the handler of the alarm signal and is called directly as well. It walks along the chain, calls the handlers of the requests that
have expired, and passes by those that may not be handled now, which it remembers in `tpop_prev`.

The handlers it calls may start and cancel timers, and a signal may come at any time, so `timer_handler` is not one function here
but a control point in the state: `step` takes it from its start to the next place where a handler or a signal can get in. The other
routines block the signal while they work. A request block is known by its number, and a pointer is that number with `none` for
`NULL`. Memory that `malloc` gives out holds whatever it held before.
-/

namespace Gtm

/-! ## Times -/

/-- `MICROSECS_IN_SEC`. -/
def microsecsInSec : Nat := 1000000

/-- `MILLISECS_IN_SEC`. -/
def millisecsInSec : Nat := 1000

/-- `MICROSECS_IN_MSEC`. -/
def microsecsInMsec : Nat := 1000

/-- `ABS_TIME`, the microseconds of which are a part of a second. -/
@[ext] structure AbsTime where
  atSec : Int
  atUsec : Nat
  usec_lt : atUsec < microsecsInSec
deriving DecidableEq, Repr

/-- `abs_time_comp`. -/
def absTimeComp (atp1 atp2 : AbsTime) : Int :=
  if atp1.atSec > atp2.atSec then 1
  else if atp1.atSec < atp2.atSec then -1
  else if atp1.atUsec = atp2.atUsec then 0
  else if atp1.atUsec > atp2.atUsec then 1
  else -1

/-- A time is not after another. -/
instance : LE AbsTime := ⟨fun atp1 atp2 => absTimeComp atp1 atp2 ≤ 0⟩

/-- A number of microseconds below two seconds, carried into the seconds. -/
def AbsTime.carry (sec : Int) (usec : Nat) (h : usec < 2 * microsecsInSec) : AbsTime :=
  if hc : usec ≥ microsecsInSec then ⟨sec + 1, usec - microsecsInSec, by omega⟩
  else ⟨sec, usec, by omega⟩

/-- `add_int_to_abs_time`, for a number of milliseconds that is not negative. -/
def addIntToAbsTime (atps : AbsTime) (ival : Nat) : AbsTime :=
  let ivalSec := ival / millisecsInSec
  let ivalUsec := (ival - ivalSec * millisecsInSec) * microsecsInMsec
  AbsTime.carry (atps.atSec + ivalSec) (atps.atUsec + ivalUsec) (by
    have := atps.usec_lt
    simp only [ivalUsec, ivalSec, microsecsInSec, millisecsInSec, microsecsInMsec] at this ⊢
    omega)

/-- `sub_abs_time`. -/
def subAbsTime (atp1 atp2 : AbsTime) : AbsTime :=
  if h : atp2.atUsec > atp1.atUsec then
    ⟨atp1.atSec - atp2.atSec - 1, atp1.atUsec + microsecsInSec - atp2.atUsec, by have := atp2.usec_lt; omega⟩
  else
    ⟨atp1.atSec - atp2.atSec, atp1.atUsec - atp2.atUsec, by have := atp1.usec_lt; omega⟩

/-- The time for which the system sets a timer that is to run for `delta` from `curr` on. -/
def addAbsTime (curr delta : AbsTime) : AbsTime :=
  AbsTime.carry (curr.atSec + delta.atSec) (curr.atUsec + delta.atUsec) (by
    have := curr.usec_lt
    have := delta.usec_lt
    omega)

/-! ## The state -/

/-- A request block (`GT_TIMER`). `start` is the number of the `start_timer` it was last used for. -/
structure GtTimer where
  expirTime : AbsTime
  handler : Option Nat
  next : Option Nat
  tid : Int
  safe : Bool
  hdLenMax : Nat
  start : Nat

/-- What `timer_handler` has in its local variables. -/
structure PopFrame where
  curr : AbsTime
  safeForTimerPop : Bool
  tpopPrev : Option Nat
  timerDeferCnt : Nat
deriving DecidableEq

/-- Where the process is: outside of `timer_handler`, at the top of its loop with `tpop`, in the handler of the block `tpop`, behind
the loop, or about to leave. -/
inductive PopCtl
  | idle
  | scan (f : PopFrame) (tpop : Option Nat)
  | call (f : PopFrame) (tpop : Nat)
  | scanned (f : PopFrame)
  | leave
deriving DecidableEq

/-- The variables of `gt_timers.c`. Blocks from `brk` on have not been given out by `malloc`, and `itimer` is the time the system
timer is set for, if it is. `started`, `cancelled` and `fired` record the run: how many timers were started, and the numbers of those
that were taken off the chain by `remove_timer` and by `timer_handler`. -/
structure TimerState where
  heap : Nat → GtTimer
  brk : Nat
  timeroot : Option Nat
  timefree : Option Nat
  numTimersFree : Int
  safeTimerCnt : Int
  timerActive : Bool
  sysTimerAt : AbsTime
  itimer : Option AbsTime
  timerStackCount : Nat
  timerInHandler : Bool
  deferredTimersCheckNeeded : Bool
  ctl : PopCtl
  started : Nat
  cancelled : List Nat
  fired : List Nat

/-- What is set up once: the two handlers that are known by their pointers, and the table of the safe handlers. -/
structure TimerConfig where
  wcsStaleFptr : Option Nat
  wcsCleanDbsyncFptr : Option Nat
  safeHandlers : List Nat

/-- What a routine finds in the rest of the process when it is called: the variables of `SAFE_FOR_ANY_TIMER` and
`SAFE_FOR_TIMER_POP`, `in_ext_call`, what the clock shows to the routine and to a `timer_handler` that it calls, and whether an
alarm comes in the middle of `start_first_timer`. -/
structure Moment where
  intrptOkState : Nat
  processExiting : Bool
  fastLockCount : Int
  multiThreadInUse : Bool
  inExtCall : Bool
  curr : AbsTime
  popCurr : AbsTime
  alarm : Bool

namespace Moment

variable (m : Moment)

/-- `SAFE_FOR_ANY_TIMER`, where `INTRPT_OK_TO_INTERRUPT` is zero. -/
def safeForAnyTimer : Bool := m.intrptOkState == 0 && !m.processExiting && m.fastLockCount == 0

/-- `SAFE_FOR_TIMER_POP`. -/
def safeForTimerPop : Bool := m.safeForAnyTimer && !m.multiThreadInUse

/-- `SAFE_FOR_TIMER_START`. -/
def safeForTimerStart : Bool := m.safeForAnyTimer

/-- A handler that waits for the end of an external call. -/
def waitsForExtCall (cfg : TimerConfig) (t : GtTimer) : Bool := m.inExtCall && cfg.wcsStaleFptr == t.handler

end Moment

namespace TimerState

variable (s : TimerState)

/-- The pointers of the blocks. -/
def next (p : Nat) : Option Nat := (s.heap p).next

/-- A write to the pointer of a block. -/
def setNext (p : Nat) (q : Option Nat) : TimerState :=
  { s with heap := Function.update s.heap p { s.heap p with next := q } }

/-- The block before, or `timeroot` if there is none, is pointed elsewhere. -/
def linkRoot (prev q : Option Nat) : TimerState :=
  match prev with
  | some p => s.setNext p q
  | none => { s with timeroot := q }

/-- The block before, or `timefree` if there is none, is pointed elsewhere. -/
def linkFree (prev q : Option Nat) : TimerState :=
  match prev with
  | some p => s.setNext p q
  | none => { s with timefree := q }

/-- A block is put on the free chain. -/
def toFree (p : Nat) : TimerState :=
  let s := s.setNext p s.timefree
  { s with timefree := some p, numTimersFree := s.numTimersFree + 1 }

end TimerState

/-! ## Allocation -/

/-- `TIMER_BLOCK_SIZE`. -/
def timerBlockSize : Nat := 64

/-- `GT_TIMER_EXPAND_TRIGGER`. -/
def gtTimerExpandTrigger : Int := 8

/-- `GT_TIMER_INIT_DATA_LEN`. -/
def gtTimerInitDataLen : Nat := 8

/-- The loop of `gt_timers_alloc`. -/
def gtTimersAllocLoop : Nat → TimerState → TimerState
  | 0, s => s
  | cnt + 1, s =>
    gtTimersAllocLoop cnt
      { s with
        heap := Function.update s.heap s.brk { s.heap s.brk with hdLenMax := gtTimerInitDataLen, next := s.timefree }
        timefree := some s.brk
        brk := s.brk + 1 }

/-- `gt_timers_alloc`. -/
def gtTimersAlloc (s : TimerState) : TimerState :=
  let s := gtTimersAllocLoop timerBlockSize s
  { s with numTimersFree := s.numTimersFree + timerBlockSize }

/-- The state after `prealloc_gt_timers`, with the memory as it happens to be. -/
def preallocGtTimers (heap : Nat → GtTimer) (sysTimerAt : AbsTime) : TimerState :=
  gtTimersAlloc
    { heap, brk := 0, timeroot := none, timefree := none, numTimersFree := 0, safeTimerCnt := 0, timerActive := false, sysTimerAt
      itimer := none, timerStackCount := 0, timerInHandler := false, deferredTimersCheckNeeded := false, ctl := .idle
      started := 0, cancelled := [], fired := [] }

/-! ## The chain -/

/-- `find_timer`: the timer and the one before it. -/
def findTimer (tid : Int) (s : TimerState) : Option Nat × Option Nat :=
  let (prev, tc) := PtrList.walk s.next (fun p => (s.heap p).tid == tid) s.brk none s.timeroot
  (tc, prev)

/-- `remove_timer`. -/
def removeTimer (tid : Int) (s : TimerState) : TimerState :=
  match findTimer tid s with
  | (none, _) => s
  | (some tp, tprev) =>
    let safe := (s.heap tp).safe
    let s := s.linkRoot tprev (s.next tp)
    let s := if tprev.isNone && s.timeroot.isNone then { s with deferredTimersCheckNeeded := false } else s
    let s := if safe then { s with safeTimerCnt := s.safeTimerCnt - 1 } else s
    let s := s.toFree tp
    { s with cancelled := (s.heap tp).start :: s.cancelled }

/-- The unused block that `add_timer` takes: the first that is large enough, or one that is allocated. -/
def obtainBlock (hdataLen : Nat) (s : TimerState) : Nat × TimerState :=
  match PtrList.walk s.next (fun p => decide ((s.heap p).hdLenMax ≥ hdataLen)) s.brk none s.timefree with
  | (lastntp, some ntp) =>
    let s := s.linkFree lastntp (s.next ntp)
    (ntp, { s with numTimersFree := s.numTimersFree - 1 })
  | (_, none) =>
    (s.brk,
      { s with
        heap := Function.update s.heap s.brk { s.heap s.brk with hdLenMax := hdataLen }
        brk := s.brk + 1 })

/-- The block is put into the chain in front of the first that does not expire before it. -/
def insertTimer (ntp : Nat) (s : TimerState) : TimerState :=
  let expir := (s.heap ntp).expirTime
  let (tpp, tp) :=
    PtrList.walk s.next (fun p => decide (absTimeComp (s.heap p).expirTime expir ≥ 0)) s.brk none s.timeroot
  (s.setNext ntp tp).linkRoot tpp (some ntp)

/-- `add_timer`. -/
def addTimer (atp : AbsTime) (tid : Int) (timeToExpir : Nat) (handler : Option Nat) (hdataLen : Nat) (safeTimer : Bool)
    (s : TimerState) : Nat × TimerState :=
  let (ntp, s) := obtainBlock hdataLen s
  let s :=
    { s with
      heap := Function.update s.heap ntp
        { s.heap ntp with tid, handler, safe := safeTimer, expirTime := addIntToAbsTime atp timeToExpir, start := s.started }
      safeTimerCnt := if safeTimer then s.safeTimerCnt + 1 else s.safeTimerCnt
      started := s.started + 1 }
  (ntp, insertTimer ntp s)

/-! ## The system timer -/

/-- `SYS_SETTIMER` and `sys_settimer`, where `setitimer` succeeds. `delta` counts from the reading `curr`. -/
def sysSettimer (t : GtTimer) (curr delta : AbsTime) (s : TimerState) : TimerState :=
  { s with sysTimerAt := t.expirTime, itimer := some (addAbsTime curr delta), timerActive := true }

/-- `sys_canc_timer`. -/
def sysCancTimer (s : TimerState) : TimerState := { s with itimer := none, timerActive := false }

/-- The start of `timer_handler`, up to its loop. A second one leaves at once. -/
def timerHandler (m : Moment) (s : TimerState) : TimerState :=
  if 0 < s.timerStackCount then { s with deferredTimersCheckNeeded := true }
  else
    { s with
      timerStackCount := s.timerStackCount + 1
      deferredTimersCheckNeeded := false
      timerActive := false
      ctl := .scan { curr := m.popCurr, safeForTimerPop := m.safeForTimerPop, tpopPrev := none, timerDeferCnt := 0 } s.timeroot }

/-- The alarm signal: the system timer is no longer set, and `timer_handler` is called. -/
def sigalrm (m : Moment) (s : TimerState) : TimerState := timerHandler m { s with itimer := none }

/-- The loop of `start_first_timer`. Nothing follows a call of `timer_handler` in it or in the routines that call it. -/
def startFirstLoop (cfg : TimerConfig) (m : Moment) (currTime : AbsTime) : Nat → Option Nat → TimerState → TimerState
  | fuel + 1, some tpop, s =>
    let t := s.heap tpop
    let eltime := subAbsTime t.expirTime currTime
    if eltime.atSec < 0 || (eltime.atSec == 0 && eltime.atUsec == 0) then
      if t.safe || (m.safeForTimerStart && decide (s.timerStackCount < 1) && !m.waitsForExtCall cfg t) then timerHandler m s
      else startFirstLoop cfg m currTime fuel t.next { s with deferredTimersCheckNeeded := true }
    else sysSettimer t currTime eltime s
  | _, _, s => s

/-- `start_first_timer`. An alarm can come while it works only if it is called out of `timer_handler`. -/
def startFirstTimer (cfg : TimerConfig) (m : Moment) (currTime : AbsTime) (s : TimerState) : TimerState :=
  let s := { s with deferredTimersCheckNeeded := false }
  if 1 < s.timerStackCount || s.timerInHandler then s
  else
    let s := if m.alarm && decide (0 < s.timerStackCount) then sigalrm m s else s
    startFirstLoop cfg m currTime s.brk s.timeroot s

/-! ## The routines -/

/-- `start_timer_int`, which takes a timer of the same id off the chain first. -/
def startTimerInt (cfg : TimerConfig) (m : Moment) (tid : Int) (timeToExpir : Nat) (handler : Option Nat) (hdataLen : Nat)
    (safeTimer : Bool) (s : TimerState) : TimerState :=
  let s := removeTimer tid s
  let s := if s.numTimersFree < gtTimerExpandTrigger ∧ s.timerStackCount < 1 then gtTimersAlloc s else s
  let (newt, s) := addTimer m.curr tid timeToExpir handler hdataLen safeTimer s
  let expir := (s.heap newt).expirTime
  if (s.timeroot.any fun p => (s.heap p).tid == tid) || !s.timerActive ||
      (s.timerActive && (decide (expir.atSec < s.sysTimerAt.atSec) ||
        (expir.atSec == s.sysTimerAt.atSec && decide (expir.atUsec < s.sysTimerAt.atUsec)))) then
    startFirstTimer cfg m m.curr s
  else s

/-- Whether `start_timer` may add a timer with the handler in any state, and whether the timer is safe. -/
def safeHandler (cfg : TimerConfig) (handler : Option Nat) : Bool × Bool :=
  match handler with
  | none => (true, true)
  | some h =>
    if cfg.wcsCleanDbsyncFptr = some h then (true, false)
    else if cfg.wcsStaleFptr = some h then (true, false)
    else if h ∈ cfg.safeHandlers then (true, true)
    else (false, false)

/-- `start_timer`. -/
def startTimer (cfg : TimerConfig) (m : Moment) (tid : Int) (timeToExpir : Nat) (handler : Option Nat) (hdataLen : Nat)
    (s : TimerState) : TimerState :=
  let (safeToAdd, safeTimer) := safeHandler cfg handler
  if !safeToAdd && !m.safeForTimerStart then s
  else startTimerInt cfg m tid timeToExpir handler hdataLen safeTimer s

/-- `cancel_timer`. -/
def cancelTimer (cfg : TimerConfig) (m : Moment) (tid : Int) (s : TimerState) : TimerState :=
  let firstTimer := s.timeroot.any fun p => (s.heap p).tid == tid
  let s := removeTimer tid s
  if firstTimer then
    if s.timeroot.isSome then startFirstTimer cfg m m.curr s
    else if s.timerActive then sysCancTimer s
    else s
  else s

/-- The loop of `clear_timers`. -/
def clearTimersLoop : Nat → TimerState → TimerState
  | 0, s => s
  | fuel + 1, s =>
    match s.timeroot with
    | none => s
    | some p => clearTimersLoop fuel (removeTimer (s.heap p).tid s)

/-- `clear_timers`. -/
def clearTimers (s : TimerState) : TimerState :=
  if s.timeroot.isNone then s
  else
    let s := clearTimersLoop s.brk s
    { s with timerInHandler := false, timerActive := false, deferredTimersCheckNeeded := false }

/-- The loop of `cancel_unsafe_timers`. -/
def cancelUnsafeLoop : Nat → Option Nat → TimerState → TimerState
  | fuel + 1, some curr, s =>
    let next := s.next curr
    cancelUnsafeLoop fuel next (if !(s.heap curr).safe then removeTimer (s.heap curr).tid s else s)
  | _, _, s => s

/-- `cancel_unsafe_timers`. -/
def cancelUnsafeTimers (cfg : TimerConfig) (m : Moment) (s : TimerState) : TimerState :=
  let active := s.timeroot
  let s := cancelUnsafeLoop s.brk s.timeroot s
  if s.timeroot.isSome then
    if active != s.timeroot || !s.timerActive then startFirstTimer cfg m m.curr s else s
  else
    let s := { s with deferredTimersCheckNeeded := false }
    if s.timerActive then sysCancTimer s else s

/-- `check_for_deferred_timers`. -/
def checkForDeferredTimers (m : Moment) (s : TimerState) : TimerState :=
  timerHandler m { s with deferredTimersCheckNeeded := false }

/-! ## The rest of `timer_handler` -/

/-- The request at `tpop` is taken off the chain, behind `tpop_prev`. -/
def popTake (tpopPrev : Option Nat) (tpop : Nat) (s : TimerState) : TimerState :=
  let t := s.heap tpop
  let s := s.linkRoot tpopPrev t.next
  let s := if t.safe then { s with safeTimerCnt := s.safeTimerCnt - 1 } else s
  { s with fired := t.start :: s.fired }

/-- The end of a turn of the loop that handled `tpop`: its block goes to the free chain, and the walk goes on behind `tpop_prev`. -/
def popDone (f : PopFrame) (tpop : Nat) (s : TimerState) : TimerState :=
  let s := s.toFree tpop
  { s with ctl := .scan f (f.tpopPrev.elim s.timeroot s.next) }

/-- A turn of the loop of `timer_handler`, up to the call of the handler. -/
def popScan (cfg : TimerConfig) (m : Moment) (f : PopFrame) (tpop : Option Nat) (s : TimerState) : TimerState :=
  match tpop with
  | none => { s with ctl := .scanned f }
  | some p =>
    let t := s.heap p
    if absTimeComp f.curr t.expirTime < 0 then { s with ctl := .scanned f }
    else if (f.safeForTimerPop && !m.waitsForExtCall cfg t) || t.safe then
      let s := popTake f.tpopPrev p s
      match t.handler with
      | some _ => { s with timerInHandler := true, ctl := .call f p }
      | none => popDone f p s
    else
      let f := { f with timerDeferCnt := f.timerDeferCnt + 1, tpopPrev := some p }
      if s.safeTimerCnt == 0 && !m.waitsForExtCall cfg t then { s with ctl := .scanned f }
      else { s with ctl := .scan f t.next }

/-- The handler of `tpop` returns. -/
def popReturn (m : Moment) (f : PopFrame) (tpop : Nat) (s : TimerState) : TimerState :=
  let f := if (s.heap tpop).safe then f else { f with curr := m.curr }
  popDone f tpop { s with timerInHandler := false }

/-- What `timer_handler` does behind its loop. -/
def popArm (cfg : TimerConfig) (m : Moment) (f : PopFrame) (s : TimerState) : TimerState :=
  let s :=
    if f.safeForTimerPop || decide (0 < s.safeTimerCnt) then startFirstTimer cfg m f.curr s
    else if s.timeroot.isSome || decide (0 < f.timerDeferCnt) then { s with deferredTimersCheckNeeded := true }
    else s
  { s with ctl := .leave }

/-- `timer_handler` goes on from where it is. -/
def resume (cfg : TimerConfig) (m : Moment) (s : TimerState) : Option TimerState :=
  match s.ctl with
  | .idle => none
  | .scan f tpop => some (popScan cfg m f tpop s)
  | .call f tpop => some (popReturn m f tpop s)
  | .scanned f => some (popArm cfg m f s)
  | .leave => some { s with timerStackCount := s.timerStackCount - 1, ctl := .idle }

/-- A call of one of the routines. -/
inductive TimerCall
  | startTimer (tid : Int) (timeToExpir : Nat) (handler : Option Nat) (hdataLen : Nat)
  | cancelTimer (tid : Int)
  | cancelUnsafeTimers
  | clearTimers
  | checkForDeferredTimers
  | timerHandler

/-- What a call does. -/
def TimerCall.run (cfg : TimerConfig) (m : Moment) (s : TimerState) : TimerCall → TimerState
  | .startTimer tid timeToExpir handler hdataLen => Gtm.startTimer cfg m tid timeToExpir handler hdataLen s
  | .cancelTimer tid => Gtm.cancelTimer cfg m tid s
  | .cancelUnsafeTimers => Gtm.cancelUnsafeTimers cfg m s
  | .clearTimers => Gtm.clearTimers s
  | .checkForDeferredTimers => Gtm.checkForDeferredTimers m s
  | .timerHandler => Gtm.timerHandler m s

/-- What can happen next: `timer_handler` goes on, an alarm comes, or a routine is called. -/
inductive TimerAct
  | resume
  | sigalrm
  | call (c : TimerCall)

/-- The process makes calls of its own outside of `timer_handler` and in the handlers that it calls. -/
def PopCtl.callable : PopCtl → Bool
  | .idle | .call .. => true
  | _ => false

/-- One step of the process. -/
def timerStep (cfg : TimerConfig) (m : Moment) (s : TimerState) : TimerAct → Option TimerState
  | .resume => resume cfg m s
  | .sigalrm => some (sigalrm m s)
  | .call c => if s.ctl.callable then some (c.run cfg m s) else none

/-- The states that are reached from the start by steps that meet a condition. -/
inductive TimersReach (cfg : TimerConfig) (ok : TimerState → TimerAct → Prop) : TimerState → Prop
  | init (heap : Nat → GtTimer) (sysTimerAt : AbsTime) : TimersReach cfg ok (preallocGtTimers heap sysTimerAt)
  | step {s s' : TimerState} {m : Moment} {a : TimerAct} (h : TimersReach cfg ok s) (ha : ok s a)
      (hs : timerStep cfg m s a = some s') : TimersReach cfg ok s'

end Gtm
