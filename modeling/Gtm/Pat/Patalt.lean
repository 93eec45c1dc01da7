import Mathlib

/-!
# Alternations of patterns

`do_patalt` decides whether a string is a row of pieces each of which one of some patterns matches. It tries the patterns and the lengths
of the first piece one by one, and calls itself for the rest of the string. What has been decided is kept in a cache, which
`do_pattern` makes anew on each level of nested alternations, and which grows where it does not help. The deeper levels have no cache.

A pointer into a string is the number of the character, from 1 on, and 0 is the null pointer.
-/

namespace Gtm

namespace Pattern

/-- `PAT_MAX_REPEAT`. -/
def patMaxRepeat : Nat := 1048576

/-- `PTE_MAX_ENTRIES`. -/
def pteMaxEntries : Nat := 16384

/-- `PTE_BEGIN_ENTRIES`. -/
def pteBeginEntries : Nat := 1024

/-- `PTE_STRLEN_CUTOFF`. -/
def pteStrlenCutoff : Nat := 48

/-- `PTE_FILL_RATIO_NUM`. -/
def pteFillRatioNum : Nat := 3

/-- `PTE_FILL_RATIO_DEN`. -/
def pteFillRatioDen : Nat := 4

/-- `PTE_CSH_MISS_FACTOR`. -/
def pteCshMissFactor : Nat := 8

/-! ## Compiled patterns -/

/-- A compiled pattern: its first word, its total minimum and maximum, and its stream. The totals of a fixed one agree. -/
structure CompiledPat (π : Type) where
  fixed : Bool
  totMin : Nat
  totMax : Nat
  stream : π
  fixed_eq : fixed = true → totMin = totMax

/-- The two evaluators, which may raise an error. Both check the length of the string first. -/
structure PatEnv (α π ε : Type) where
  doPattern : CompiledPat π → List α → Except ε Bool
  doPatfixed : CompiledPat π → List α → Except ε Bool
  doPattern_length {p : CompiledPat π} {s : List α} : doPattern p s = .ok true → p.totMin ≤ s.length ∧ s.length ≤ p.totMax
  doPatfixed_length {p : CompiledPat π} {s : List α} : doPatfixed p s = .ok true → s.length = p.totMin

/-- `BOUND_MULTIPLY`. -/
def boundMultiply (x y : Nat) : Nat := if patMaxRepeat ≤ x * y then patMaxRepeat else x * y

/-- A compiled alternation: the address of its first pattern, its bounds, which are cut to `PAT_MAX_REPEAT`, and its patterns. -/
structure PatAlt (π : Type) where
  firstalt : Nat
  repMin : Nat
  repMax : Nat
  first : CompiledPat π
  others : List (CompiledPat π)
  repMin_le : repMin ≤ repMax
  repMax_le : repMax ≤ patMaxRepeat

namespace PatAlt

variable {π : Type} (p : PatAlt π)

/-- All its patterns. -/
def alts : List (CompiledPat π) := p.first :: p.others

/-- `altmin`. -/
def altmin : Nat := p.others.foldl (fun m a => if a.totMin < m then a.totMin else m) p.first.totMin

/-- `altmax`. -/
def altmax : Nat := p.others.foldl (fun m a => if m < a.totMax then a.totMax else m) p.first.totMax

/-- Its entry in the array `min`, as `add_atom` makes it. -/
def mintmp : Nat := boundMultiply p.repMin p.altmin

/-- Its entry in the array `max`. -/
def maxtmp : Nat := boundMultiply p.repMax p.altmax

/-- `min_incr`. -/
def minIncr : Nat := if p.mintmp ≠ 0 then p.mintmp / p.repMin else 0

/-- `max_incr`. -/
def maxIncr : Nat := if p.maxtmp ≠ 0 then p.maxtmp / p.repMax else 0

end PatAlt

/-! ## The cache -/

/-- `pte_csh`. -/
structure PteCsh where
  patptr : Nat
  strptr : Nat
  charlen : Nat
  repcnt : Nat
  count : Nat
  mtch : Bool

/-- The cache of a level: the entries, how many there are and have been allocated, how many there are for each length and for the long
strings, and the counts of calls. -/
structure CshLevel where
  arr : Nat → PteCsh
  curSize : Nat
  allocSize : Nat
  entriesPerLen : Nat
  tailCount : Nat
  calls : Nat
  hits : Nat
  maxedOut : Nat

/-- An entry of cleared memory. -/
def PteCsh.null : PteCsh := ⟨0, 0, 0, 0, 0, false⟩

/-- `PTE_CSH_INCR_CURALT_DEPTH`, where the level has a cache. -/
def pteCshIncr (allocSize maxedOut : Nat) : CshLevel where
  arr := fun _ => .null
  curSize := pteBeginEntries
  allocSize := allocSize
  entriesPerLen := pteBeginEntries / pteFillRatioDen * pteFillRatioNum / pteStrlenCutoff
  tailCount := pteBeginEntries / pteFillRatioDen * (pteFillRatioDen - pteFillRatioNum)
  calls := 1
  hits := 1
  maxedOut := maxedOut

namespace CshLevel

variable (c : CshLevel)

/-- Where the entries for a length start. -/
def bucket (charlen : Nat) : Nat := (if charlen < pteStrlenCutoff then charlen else pteStrlenCutoff) * c.entriesPerLen

/-- How many there are. -/
def bucketSize (charlen : Nat) : Nat := if charlen < pteStrlenCutoff then c.entriesPerLen else c.tailCount

/-- The array with another entry. -/
def setEntry (i : Nat) (e : PteCsh) : CshLevel := { c with arr := fun j => if j = i then e else c.arr j }

/-- The loop of `pte_csh_present`: the entry that is found. -/
def presentLoop (patptr strptr charlen repcnt : Nat) : Nat → Nat → Option Nat
  | 0, _ => none
  | n + 1, i =>
    let e := c.arr i
    if e.strptr ≠ strptr ∨ e.patptr ≠ patptr ∨ e.charlen ≠ charlen ∨ e.repcnt ≠ repcnt then
      if e.strptr ≠ 0 then presentLoop patptr strptr charlen repcnt n (i + 1) else none
    else some i

/-- `pte_csh_present`. -/
def present (patptr strptr charlen repcnt : Nat) : Option (Bool × CshLevel) :=
  (c.presentLoop patptr strptr charlen repcnt (c.bucketSize charlen) (c.bucket charlen)).map fun i =>
    ((c.arr i).mtch, c.setEntry i { c.arr i with count := (c.arr i).count + 1 })

/-- The first loop of `pte_csh_insert`: a free entry, or the one with the least count; and whether it is free. -/
def insertLoop : Nat → Nat → Nat → Nat × Bool
  | 0, _, minPte => (minPte, false)
  | n + 1, i, minPte =>
    if (c.arr i).patptr = 0 then (i, true)
    else insertLoop n (i + 1) (if (c.arr i).count < (c.arr minPte).count then i else minPte)

/-- `pte_csh_insert`. -/
def insert (patptr strptr charlen repcnt : Nat) (mtch : Bool) : CshLevel :=
  let start := c.bucket charlen
  let top := start + c.bucketSize charlen
  let (i, free) := c.insertLoop (c.bucketSize charlen) start start
  let c := if free then c else { c with arr := fun j => if start ≤ j ∧ j < top then { c.arr j with count := 1 } else c.arr j }
  c.setEntry i ⟨patptr, strptr, charlen, repcnt, 0, mtch⟩

/-- After a miss: where there are many, the cache is cleared, with twice the entries. -/
def grow : CshLevel :=
  if c.curSize < c.calls ∧ c.calls / pteCshMissFactor < c.calls - c.hits then
    let c := { c with calls := 1, hits := 1 }
    let twice (c : CshLevel) : CshLevel :=
      { c with
        arr := fun _ => .null, curSize := c.curSize * 2, entriesPerLen := c.entriesPerLen * 2, tailCount := c.tailCount * 2 }
    if c.curSize < c.allocSize then twice c
    else if c.allocSize < pteMaxEntries then twice { c with allocSize := c.curSize * 2 }
    else { c with maxedOut := c.maxedOut + 1 }
  else c

end CshLevel

/-- What `do_patalt` starts with: a result that is there, if the level has a cache. -/
def lookup (patptr strptr charlen repcnt : Nat) : Option CshLevel → Option Bool × Option CshLevel
  | none => (none, none)
  | some c =>
    let c := { c with calls := c.calls + 1 }
    match c.present patptr strptr charlen repcnt with
    | some (mtch, c) => (some mtch, some { c with hits := c.hits + 1 })
    | none => (none, some c.grow)

/-! ## The search -/

/-- `PATALTER2LARGE`, or an error that the evaluation of a pattern has raised. -/
inductive PatErr (ε : Type) where
  | patalter2large
  | raised (e : ε)

/-- What `do_patalt` returns, with the cache. -/
abbrev PatOut (ε : Type) := Except (PatErr ε) (Bool × Option CshLevel)

/-- Go on with `next` if there is no match yet. -/
def PatOut.orNext {ε : Type} (r : PatOut ε) (next : Option CshLevel → PatOut ε) : PatOut ε :=
  match r with
  | .error e => .error e
  | .ok (true, l) => .ok (true, l)
  | .ok (false, l) => next l

section Search

variable {α π ε : Type} (env : PatEnv α π ε) (text : List α) (p : PatAlt π)

/-- A piece of the string. -/
def piece (strptr charlen : Nat) : List α := (text.drop (strptr - 1)).take charlen

/-- The evaluator for a pattern. -/
def evalPat (a : CompiledPat π) (s : List α) : Except ε Bool := if a.fixed then env.doPatfixed a s else env.doPattern a s

/-- The call for the rest, if the count of pieces allows it and the bounds for the length do not exclude it. Past `repmin` the lower
bound is negative. -/
def recurse (rest : Option (Nat → Nat → Option CshLevel → PatOut ε)) (strptr totchar repcnt charlen : Nat) (l : Option CshLevel) :
    PatOut ε :=
  match rest with
  | none => .ok (false, l)
  | some doPatalt =>
    if totchar - charlen ≤ (p.repMax - repcnt) * p.maxIncr ∧ (p.repMin - repcnt) * p.minIncr ≤ totchar - charlen then
      doPatalt (strptr + charlen) (totchar - charlen) l
    else .ok (false, l)

/-- The loop over the lengths of the first piece. -/
def lenLoop (rest : Option (Nat → Nat → Option CshLevel → PatOut ε)) (strptr totchar repcnt : Nat) (a : CompiledPat π) :
    Nat → Nat → Option CshLevel → PatOut ε
  | 0, _, l => .ok (false, l)
  | n + 1, charlen, l =>
    match if charlen = 0 then .ok true else evalPat env a (piece text strptr charlen) with
    | .error e => .error (.raised e)
    | .ok mtch =>
      PatOut.orNext
        (if mtch = true ∧ (charlen < totchar ∨ repcnt < p.repMin) then recurse p rest strptr totchar repcnt charlen l
          else .ok (mtch, l))
        fun l => lenLoop rest strptr totchar repcnt a n (charlen + 1) l

/-- The least length that is tried: a piece of nothing only where nothing is left. -/
def leastLen (totchar : Nat) (a : CompiledPat π) : Nat := if totchar ≠ 0 ∧ a.totMin = 0 then 1 else a.totMin

/-- The loop over the patterns. -/
def altLoop (rest : Option (Nat → Nat → Option CshLevel → PatOut ε)) (strptr totchar repcnt : Nat) :
    List (CompiledPat π) → Option CshLevel → PatOut ε
  | [], l => .ok (false, l)
  | a :: as, l =>
    PatOut.orNext
      (if a.totMin ≤ totchar then
          lenLoop env text p rest strptr totchar repcnt a (min a.totMax totchar + 1 - leastLen totchar a) (leastLen totchar a) l
        else .ok (false, l))
      fun l => altLoop rest strptr totchar repcnt as l

/-- One call of `do_patalt`. -/
def pataltStep (rest : Option (Nat → Nat → Option CshLevel → PatOut ε)) (repcnt strptr totchar : Nat) (l : Option CshLevel) : PatOut ε :=
  if pteMaxEntries ≤ repcnt then .error .patalter2large
  else
    match lookup p.firstalt strptr totchar repcnt l with
    | (some mtch, l) => .ok (mtch, l)
    | (none, l) =>
      match altLoop env text p rest strptr totchar repcnt p.alts l with
      | .error e => .error e
      | .ok (mtch, l) => .ok (mtch, l.map fun c => c.insert p.firstalt strptr totchar repcnt mtch)

/-- `do_patalt`, where `left` more pieces are allowed: `repcnt` is `repmax` less that. -/
def doPatalt : (left : Nat) → (strptr totchar : Nat) → Option CshLevel → PatOut ε
  | 0, strptr, totchar, l => pataltStep env text p none p.repMax strptr totchar l
  | left + 1, strptr, totchar, l => pataltStep env text p (some (doPatalt left)) (p.repMax - (left + 1)) strptr totchar l

/-- The alternation in `do_pattern`, for `rept` characters of the string. -/
def patternAlt (strptr rept : Nat) (l : Option CshLevel) : PatOut ε :=
  if rept = 0 then .ok (true, l) else doPatalt env text p (p.repMax - 1) strptr rept l

end Search

end Pattern

end Gtm
