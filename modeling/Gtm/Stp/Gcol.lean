import Gtm.Stp.Sort

/-!
# Garbage collection of the string pool

`stp_gcol` (`stp_gcol_src.h`): the live strings are sorted by address, the space they need is added up, the pool is expanded when
that leaves too little, and the strings are slid to the start of the pool or copied into the new one, a contiguous block at a time.
Addresses are numbers in one memory; a pointer to an `mstr` is the number of the `mstr`.
-/

namespace Gtm

/-- `mstr`: a string by its address and length. -/
structure Mstr where
  addr : Nat
  len : Nat
deriving DecidableEq, Repr

/-- `spdesc`: the string pool. `strpllim` is zero when no limit is watched. -/
structure Spdesc where
  base : Nat
  free : Nat
  top : Nat
  invokestpgcollevel : Nat
  strpllim : Nat
  strpllimwarned : Bool
deriving DecidableEq, Repr

/-- What `stp_gcol` reads and changes: the pool, the memory, the strings and the variables that steer expansion. -/
structure Stp where
  stringpool : Spdesc
  mem : Nat → UInt8
  mstrs : Nat → Mstr
  lowReclaimPasses : Nat
  incrFactor : Nat
  stopNonMandatoryExpansion : Bool

/-- The setting of `mstr_native_align`, the page size, and the answers of `malloc`: for each attempt of a call and each size the
address of the memory, if there is any. -/
structure StpEnv where
  mstrNativeAlign : Bool
  osPageSize : Nat
  malloc : Nat → Nat → Option Nat

/-- The errors `stp_gcol` raises. `memory` is the one of a failed `malloc`. -/
inductive StpError where
  | memory
  | stpoflow
  | stpexpfail (size : Nat)
  | stpcrit
deriving DecidableEq, Repr

/-- `NATIVE_WSIZE`. -/
def nativeWsize : Nat := 8

/-- `ROUND_UP2`. -/
def roundUp2 (value modulus : Nat) : Nat := (value + (modulus - 1)) / modulus * modulus

/-- `PADLEN` to the native word. -/
def padlen (value : Nat) : Nat := roundUp2 value nativeWsize - value

/-- `stringpool.free` (or `totspace`) rounded up when strings are aligned. -/
def alignUp (align : Bool) (value : Nat) : Nat := if align then roundUp2 value nativeWsize else value

/-- `memmove`; `memcpy` where the two ranges are apart. -/
def memmove (mem : Nat → UInt8) (dst src len : Nat) : Nat → UInt8 :=
  fun a => if dst ≤ a ∧ a < dst + len then mem (src + (a - dst)) else mem a

theorem memmove_of_lt (mem : Nat → UInt8) {dst src len a : Nat} (h : a < dst ∨ dst + len ≤ a) : memmove mem dst src len a = mem a := by
  unfold memmove
  rw [if_neg (by omega)]

theorem memmove_shift (mem : Nat → UInt8) {dst src len k : Nat} (h : k < len) : memmove mem dst src len (dst + k) = mem (src + k) := by
  unfold memmove
  rw [if_pos (by omega), Nat.add_sub_cancel_left]

/-- The strings after a contiguous block, the end of the block and the strings that follow it. -/
structure ContiguousBlock where
  mstrs : Nat → Mstr
  endaddr : Nat
  rest : List Nat

/-- `PROCESS_CONTIGUOUS_BLOCK`: the strings that overlap or adjoin the block up to `endaddr` are moved by `delta`. -/
def processContiguousBlock (align : Bool) (delta : Int) : List Nat → (Nat → Mstr) → Nat → Nat → ContiguousBlock
  | [], mstrs, endaddr, _ => ⟨mstrs, endaddr, []⟩
  | cstr :: rest, mstrs, endaddr, pad =>
    let m := mstrs cstr
    if endaddr < m.addr ∧ m.addr ≠ endaddr + pad then ⟨mstrs, endaddr, cstr :: rest⟩
    else
      processContiguousBlock align delta rest (Function.update mstrs cstr { m with addr := ((m.addr : Int) - delta).toNat })
        (if endaddr < m.addr + m.len then m.addr + m.len else endaddr) (if align then padlen m.len else 0)

/-- What the compaction loops change. -/
structure Compaction where
  mem : Nat → UInt8
  mstrs : Nat → Mstr
  free : Nat

/-- The loop of `COPY2STPOOL` and `MOVE_WITHIN_STPOOL` over the strings that are left. -/
def compactLoop (align : Bool) (move : (Nat → UInt8) → Nat → Nat → Nat → Nat → UInt8) : Nat → List Nat → Compaction → Compaction
  | 0, _, c => c
  | _ + 1, [], c => c
  | fuel + 1, cstr :: rest, c =>
    let free := alignUp align c.free
    let begaddr := (c.mstrs cstr).addr
    let b := processContiguousBlock align ((begaddr : Int) - free) (cstr :: rest) c.mstrs begaddr 0
    let blklen := b.endaddr - begaddr
    compactLoop align move fuel b.rest ⟨move c.mem free begaddr blklen, b.mstrs, free + blklen⟩

/-- `COPY2STPOOL`. -/
def copy2stpool (align : Bool) (cstrs : List Nat) (c : Compaction) : Compaction :=
  compactLoop align memmove cstrs.length cstrs c

/-- `MOVE_WITHIN_STPOOL`: a block that is in its place already is left alone. -/
def moveWithinStpool (align : Bool) (cstrs : List Nat) (c : Compaction) : Compaction :=
  compactLoop align (fun mem dst src len => if src = dst then mem else memmove mem dst src len) cstrs.length cstrs c

/-- One turn of the loop that adds up `totspace`; the second number is the end of what is counted (`straddr`). -/
def totspaceStep (align : Bool) (p : Nat × Nat) (m : Mstr) : Nat × Nat :=
  if p.2 < m.addr + m.len then
    (alignUp align (p.1 + if p.2 ≤ m.addr then m.len else m.addr + m.len - p.2), m.addr + m.len)
  else p

/-- The space the live strings need after compaction. -/
def totspace (align : Bool) (ms : List Mstr) : Nat := (ms.foldl (totspaceStep align) (0, (ms.head?.map Mstr.addr).getD 0)).1

/-- `STP_NUM_INCRS`. -/
def stpNumIncrs : Nat := 4

/-- `STP_MAXLOWRECLAIM_PASSES`. -/
def stpMaxlowreclaimPasses : Nat := 2

/-- `STP_SPACE_USED_MULTIPLIER`. -/
def stpSpaceUsedMultiplier : Nat := 3

/-- `STP_GCOL_TRIGGER_FLOOR`. -/
def stpGcolTriggerFloor : Nat := 100000

/-- `STP_LOWRECLAIM_LEVEL`: 31.25 percent. -/
def stpLowreclaimLevel (x : Nat) : Nat := x / 4 + x / 8 - x / 16

/-- What `stp_init` asks of `malloc` for a pool of the given size. -/
def stpInitLen (env : StpEnv) (size : Nat) : Nat := size + 8 + 2 * env.osPageSize

/-- `stp_init` once it has memory: the pool ends below the last page boundary but one. -/
def stpInit (env : StpEnv) (pool : Spdesc) (size addr : Nat) : Spdesc :=
  let top := (addr + stpInitLen env size) / env.osPageSize * env.osPageSize - env.osPageSize - 8
  { pool with base := addr, free := addr, top := top, invokestpgcollevel := top }

/-- How the expansion loop ends: with memory for a pool, without any, or with an error. -/
inductive Expansion where
  | expanded (size addr : Nat)
  | unexpanded (stpIncr : Nat)
  | raised (e : StpError)
deriving DecidableEq, Repr

/-- `stp_incr`, raised to what is needed. -/
def atLeast (stpIncr : Nat) (spaceNeeded : Int) : Nat := if (stpIncr : Int) < spaceNeeded then spaceNeeded.toNat else stpIncr

/-- An increment above what is needed gets smaller when it is halved. -/
theorem half_lt_of_retry {nonMandatory : Bool} {spaceNeeded : Int} {stpIncr : Nat} (hm : nonMandatory = false → 0 < spaceNeeded)
    (hz : ¬ (nonMandatory = true ∧ atLeast stpIncr spaceNeeded = 0)) (hr : spaceNeeded < atLeast stpIncr spaceNeeded) :
    (if spaceNeeded < atLeast stpIncr spaceNeeded then atLeast stpIncr spaceNeeded / 2 else atLeast stpIncr spaceNeeded) < stpIncr := by
  have hne : atLeast stpIncr spaceNeeded ≠ 0 := by
    cases nonMandatory with
    | false =>
      have := hm rfl
      omega
    | true => exact fun h0 => hz ⟨rfl, h0⟩
  rw [if_pos hr]
  by_cases h : (stpIncr : Int) < spaceNeeded
  · simp only [atLeast, h, if_true] at *
    omega
  · simp only [atLeast, h, if_false] at *
    omega

/-- The expansion loop with the values it leaves in `incr_factor` and `stop_non_mandatory_expansion`. An expansion is mandatory
when space is needed. -/
def expandLoop (env : StpEnv) (pool : Spdesc) (spaceNeeded : Int) (nonMandatory : Bool) (hm : nonMandatory = false → 0 < spaceNeeded)
    (attempt incrFactor : Nat) (stop : Bool) (stpIncr0 : Nat) : Expansion × Nat × Bool :=
  let size := pool.top - pool.base
  let stpIncr := atLeast stpIncr0 spaceNeeded
  if nonMandatory = true ∧ stpIncr = 0 then (.unexpanded stpIncr, incrFactor, stop)
  else if pool.strpllimwarned = true ∧ pool.strpllim < stpIncr + size then (.raised .stpoflow, incrFactor, stop)
  else
    match env.malloc attempt (stpInitLen env (stpIncr + size)) with
    | some addr => (.expanded (stpIncr + size) addr, incrFactor, stop)
    | none =>
      -- without more than is needed to fall back from, the memory error is not caught
      if ¬ spaceNeeded < stpIncr then (.raised .memory, incrFactor, stop)
      else if 1 < incrFactor then
        expandLoop env pool spaceNeeded nonMandatory hm (attempt + 1) (incrFactor - 1) (stop || nonMandatory)
          (size * (incrFactor - 1) / stpNumIncrs)
      else
        expandLoop env pool spaceNeeded nonMandatory hm (attempt + 1) incrFactor (stop || nonMandatory)
          (if spaceNeeded < stpIncr then stpIncr / 2 else stpIncr)
termination_by (incrFactor, stpIncr0)
decreasing_by
  · exact Prod.Lex.left _ _ (by omega)
  · exact Prod.Lex.right _ (half_lt_of_retry hm (by assumption) (not_not.1 (by assumption)))

namespace Stp

/-- The array of live strings after `stpg_sort`. -/
def sortedLive (s : Stp) (live : List Nat) : List Nat :=
  (List.range live.length).map (stpgSort (fun i => (s.mstrs i).addr) live.length fun i => live.getD i 0)

/-- `space_after_compact`. -/
def spaceAfterCompact (s : Stp) (env : StpEnv) (live : List Nat) : Int :=
  (s.stringpool.top : Int) - s.stringpool.base - totspace env.mstrNativeAlign ((s.sortedLive live).map s.mstrs)

/-- `space_needed` beyond what compaction leaves. -/
def spaceNeeded (s : Stp) (env : StpEnv) (live : List Nat) (spaceAsked : Nat) : Int :=
  (roundUp2 spaceAsked nativeWsize : Int) - s.spaceAfterCompact env live

/-- `low_reclaim_passes` after this pass. -/
def reclaimPasses (s : Stp) (env : StpEnv) (live : List Nat) : Nat :=
  if s.spaceAfterCompact env live < stpLowreclaimLevel (s.stringpool.top - s.stringpool.base) then s.lowReclaimPasses + 1 else 0

/-- Whether an expansion is attempted: because space is needed, or because too little was reclaimed twice and memory has not run
out before. -/
def Expands (s : Stp) (env : StpEnv) (live : List Nat) (spaceAsked : Nat) : Prop :=
  0 < s.spaceNeeded env live spaceAsked ∨
    s.stopNonMandatoryExpansion = false ∧ stpMaxlowreclaimPasses ≤ s.reclaimPasses env live

instance (s : Stp) (env : StpEnv) (live : List Nat) (spaceAsked : Nat) : Decidable (s.Expands env live spaceAsked) :=
  inferInstanceAs (Decidable (_ ∨ _))

/-- `non_mandatory_expansion` in a call that expands. -/
def nonMandatory (s : Stp) (env : StpEnv) (live : List Nat) (spaceAsked : Nat) : Bool :=
  decide (¬ 0 < s.spaceNeeded env live spaceAsked)

theorem spaceNeeded_pos_of_mandatory (s : Stp) (env : StpEnv) (live : List Nat) (spaceAsked : Nat)
    (h : s.nonMandatory env live spaceAsked = false) : 0 < s.spaceNeeded env live spaceAsked := by
  simpa [nonMandatory] using h

/-- The expansion of a call that expands. -/
def expansion (s : Stp) (env : StpEnv) (live : List Nat) (spaceAsked : Nat) : Expansion × Nat × Bool :=
  expandLoop env s.stringpool (s.spaceNeeded env live spaceAsked) (s.nonMandatory env live spaceAsked)
    (s.spaceNeeded_pos_of_mandatory env live spaceAsked) 0 s.incrFactor s.stopNonMandatoryExpansion
    ((s.stringpool.top - s.stringpool.base) * s.incrFactor / stpNumIncrs)

/-- The end of `stp_gcol`: the level of the next collection, and the error when the pool has grown past its limit. -/
def finish (s : Stp) (spaceAsked : Nat) : Stp × Option StpError :=
  let pool := s.stringpool
  let level := stpSpaceUsedMultiplier * (spaceAsked + pool.free - pool.base) + pool.base
  let pool := { pool with
    invokestpgcollevel := if level - pool.base < stpGcolTriggerFloor ∨ pool.top < level then pool.top else level }
  if 0 < pool.strpllim ∧ pool.strpllimwarned = false ∧ pool.strpllim < pool.top - pool.base then
    ({ s with stringpool := { pool with strpllimwarned := true } }, some .stpcrit)
  else ({ s with stringpool := pool }, none)

/-- The state with the outcome of a compaction. -/
def setCompaction (s : Stp) (c : Compaction) : Stp :=
  { s with stringpool := { s.stringpool with free := c.free }, mem := c.mem, mstrs := c.mstrs }

/-- `stp_gcol`: the state it leaves and the error it raises, if it does. -/
def stpGcol (s : Stp) (env : StpEnv) (live : List Nat) (spaceAsked : Nat) : Stp × Option StpError :=
  let oldFree := s.stringpool.free
  let s1 := { s with
    stringpool := { s.stringpool with free := s.stringpool.base }
    lowReclaimPasses := s.reclaimPasses env live }
  let cstrs := s.sortedLive live
  if s.Expands env live spaceAsked then
    let (exp, incrFactor, stop) := s.expansion env live spaceAsked
    let s2 := { s1 with incrFactor := incrFactor, stopNonMandatoryExpansion := stop }
    match exp with
    | .raised e => (s2, some e)
    | .expanded size addr =>
      let s3 := { s2 with
        stringpool := stpInit env s2.stringpool size addr
        incrFactor := if incrFactor < stpNumIncrs then incrFactor + 1 else incrFactor
        lowReclaimPasses := 0 }
      (s3.setCompaction (copy2stpool env.mstrNativeAlign cstrs ⟨s3.mem, s3.mstrs, s3.stringpool.free⟩)).finish spaceAsked
    | .unexpanded stpIncr =>
      if s.spaceAfterCompact env live < s.spaceNeeded env live spaceAsked then
        ({ s2 with stringpool := { s2.stringpool with free := oldFree } },
          some (.stpexpfail (stpIncr + (s.stringpool.top - s.stringpool.base))))
      else
        -- the cursor stands at the end of the array since the loop that added up the space
        let s3 := { s2 with lowReclaimPasses := 0 }
        (s3.setCompaction (moveWithinStpool env.mstrNativeAlign [] ⟨s3.mem, s3.mstrs, s3.stringpool.free⟩)).finish spaceAsked
  else
    let s2 := { s1 with incrFactor := if 1 < s.incrFactor then s.incrFactor - 1 else s.incrFactor }
    (s2.setCompaction (moveWithinStpool env.mstrNativeAlign cstrs ⟨s2.mem, s2.mstrs, s2.stringpool.free⟩)).finish spaceAsked

end Stp

end Gtm
