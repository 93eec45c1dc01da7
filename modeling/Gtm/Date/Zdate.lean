import Gtm.Numeric.EbMuldiv

/-!
# Dates as text

`$ZDATE` splits a day number into year, month, day and day of the week and writes them as a format says. An operation on values of type `int`
that overflows has no result, nor has a read past the end of the month table.
-/

namespace Gtm

namespace Zdate

/-! ## The calendar -/

def DAYS_MOST_YEARS : Int := 365
def COMMON_LEAP_CYCLE : Int := 4
def DAYS_IN_FOUR_YEARS : Int := DAYS_MOST_YEARS * COMMON_LEAP_CYCLE + 1
def DAYS_IN_CENTURY : Int := DAYS_IN_FOUR_YEARS * 25
def DAYS_BEFORE_LEAP : Int := 31 + 28
def BASE_YEAR : Int := 1840
def DAYS_BASE_TO_1900 : Int := (1900 - BASE_YEAR) / COMMON_LEAP_CYCLE * DAYS_IN_FOUR_YEARS - 1 + DAYS_BEFORE_LEAP
def MIN_DATE : Int := -DAYS_MOST_YEARS
def MAX_DATE : Int := 364570088
def ZDATE_MAX_LEN : Nat := 64

/-- The month table. -/
def montab : List Int := [31, 28, 31, 30, 31, 30, 31, 31, 30, 31, 30, 31]

/-- The loop over the centuries, in which the skipped days are put in. -/
def centLoop : Nat → (cent day : Int) → (n : Nat) → Option Int
  | 0, _, _, _ => none
  | fuel + 1, cent, day, n =>
    if cent < day then do
      let day ← int4 (day + if 0 < n % 4 then 1 else 0)
      let cent ← int4 (cent + DAYS_IN_CENTURY)
      centLoop fuel cent day ((n + 1) % 2 ^ 32)
    else some day

/-- The loop over the months: what is left of the day, and the index of the month. -/
def montabLoop : List Int → Int → Nat → Option (Int × Nat)
  | [], _, _ => none
  | len :: months, day, i => if len ≤ day then montabLoop months (day - len) (i + 1) else some (day, i)

/-- The year, the month, the day of the month and the day of the week of a day number. -/
def zdateCalendar (day : Int) : Option (Int × Int × Int × Int) := do
  let day ← int4 (day + DAYS_MOST_YEARS)
  let shifted ← int4 (day + (COMMON_LEAP_CYCLE - 1))
  let dow := shifted.tmod 7 + 1
  let day ← centLoop (day.toNat + 1) DAYS_BASE_TO_1900 day 3
  let year := day.tdiv DAYS_IN_FOUR_YEARS
  let day ← int4 (day - year * DAYS_IN_FOUR_YEARS)
  let year ← int4 (year * COMMON_LEAP_CYCLE + BASE_YEAR)
  if day = DAYS_BEFORE_LEAP then return (year, 2, 29, dow)
  else
    let day := if DAYS_BEFORE_LEAP < day then day - 1 else day
    let month := day.tdiv DAYS_MOST_YEARS
    let year ← int4 (year + month)
    let (day, i) ← montabLoop montab (day - month * DAYS_MOST_YEARS) 0
    return (year, (i : Int) + 1, day + 1, dow)

/-! ## The format -/

/-- `ERR_ZDATEBADTIME` and `ERR_ZDATEBADDATE` tell the text. -/
inductive ZdateError where
  | zdatebadtime (text : List UInt8)
  | zdatebaddate (text : List UInt8)
  | zdatefmt

/-- What the function uses: `zdate_form`, the piece of a list between commas, the time in a text, and what is in memory behind a format. -/
structure ZdateEnv where
  zdateForm : Int
  fnp1 : List UInt8 → Int → List UInt8
  timeOf : List UInt8 → Int
  behind : List UInt8 → Nat → UInt8

/-- The source: its value as a number, its string before and after it has been forced to be one, and its type. -/
structure ZdateSrc where
  day : Int
  str : List UInt8
  forced : List UInt8
  isStr : Bool
  numApprox : Bool

def chr (c : Char) : UInt8 := UInt8.ofNat c.toNat

def text (s : String) : List UInt8 := s.toList.map chr

/-- The text up to the first comma, and what is after it. -/
def splitComma : List UInt8 → Option (List UInt8 × List UInt8)
  | [] => none
  | c :: s => if c = chr ',' then some ([], s) else (splitComma s).map fun (l, r) => (c :: l, r)

/-- The time, and the length of the date in the text. -/
def zdateTime (env : ZdateEnv) (src : ZdateSrc) : Except ZdateError (Int × Nat) :=
  if src.isStr && src.numApprox then
    match splitComma src.str with
    | none => .ok (0, src.str.length)
    | some (l, r) => if env.timeOf r < 0 ∨ 86399 < env.timeOf r then .error (.zdatebadtime r) else .ok (env.timeOf r, l.length)
  else .ok (0, src.str.length)

/-- The format, or the one that a number of it or its absence stand for. -/
def zdateFmt (env : ZdateEnv) (fmt : List UInt8) (year : Int) : List UInt8 :=
  if fmt = [] ∨ fmt = text "1" then
    if env.zdateForm = 0 ∨ (env.zdateForm = 1 ∧ year < 2000) then text "MM/DD/YY" else text "MM/DD/YEAR"
  else if fmt = text "2" then text "DD-MON-YY"
  else fmt

/-- The character at a place of the format or behind it. -/
def fmtAt (env : ZdateEnv) (fmt : List UInt8) (p : Nat) : UInt8 :=
  match fmt[p]? with
  | some c => c
  | none => env.behind fmt (p - fmt.length)

/-- The last digits of a number. -/
def digits : Nat → Nat → List UInt8
  | 0, _ => []
  | k + 1, n => digits k (n / 10) ++ [UInt8.ofNat (48 + n % 10)]

/-- The loop over the letters Y after the second one: how many digits, and the place after them. -/
def yearDigits (env : ZdateEnv) (fmt : List UInt8) : Nat → (nlen p : Nat) → Nat × Nat
  | 0, nlen, p => (nlen, p)
  | fuel + 1, nlen, p =>
    if nlen ≤ 6 ∧ p < fmt.length then
      if fmtAt env fmt p ≠ chr 'Y' then (nlen, p) else yearDigits env fmt fuel (nlen + 1) (p + 1)
    else (nlen, p)

/-- The values that a format can ask for. -/
structure ZdateVals where
  time : Int
  year : Int
  month : Int
  day : Int
  dow : Int

/-- The place in the format, the length that is expected, and what has been written. -/
structure ZdateOut where
  p : Nat
  outlen : Int
  out : List UInt8

/-- Digits, for `k` characters of the format. -/
def putDigits (s : ZdateOut) (k : Nat) (n : Int) : Except ZdateError ZdateOut := .ok { s with p := s.p + k, out := s.out ++ digits k n.toNat }

/-- A name from a list, or from the default one, for three characters of the format. -/
def putName (env : ZdateEnv) (names default : List UInt8) (i : Int) (s : ZdateOut) : Except ZdateError ZdateOut :=
  if names = [] then .ok { s with p := s.p + 3, out := s.out ++ (default.drop ((i - 1).toNat * 3)).take 3 }
  else
    let name := env.fnp1 names i
    let outlen := s.outlen + (name.length - 3)
    if 64 ≤ outlen then .error .zdatefmt else .ok ⟨s.p + 3, outlen, s.out ++ name⟩

/-- One turn of the loop over the format. -/
def zdateStep (env : ZdateEnv) (fmt moStr dayStr : List UInt8) (v : ZdateVals) (s : ZdateOut) : Except ZdateError ZdateOut :=
  let c := fmtAt env fmt s.p
  let c₁ := fmtAt env fmt (s.p + 1)
  let c₂ := fmtAt env fmt (s.p + 2)
  let c₃ := fmtAt env fmt (s.p + 3)
  if c ∈ text "/:.,- *+;" then .ok { s with p := s.p + 1, out := s.out ++ [c] }
  else if c = chr 'M' then
    if c₁ = chr 'M' then putDigits s 2 v.month
    else if c₁ ≠ chr 'O' ∨ c₂ ≠ chr 'N' then .error .zdatefmt
    else putName env moStr (text "JANFEBMARAPRMAYJUNJULAUGSEPOCTNOVDEC") v.month s
  else if c = chr 'D' then
    if c₁ = chr 'D' then putDigits s 2 v.day
    else if c₁ ≠ chr 'A' ∨ c₂ ≠ chr 'Y' then .error .zdatefmt
    else putName env dayStr (text "SUNMONTUEWEDTHUFRISAT") v.dow s
  else if c = chr 'Y' then
    if c₁ = chr 'Y' then
      let (nlen, p) := yearDigits env fmt fmt.length 2 (s.p + 2)
      .ok { s with p := p, out := s.out ++ digits nlen v.year.toNat }
    else if c₁ ≠ chr 'E' ∨ c₂ ≠ chr 'A' ∨ c₃ ≠ chr 'R' then .error .zdatefmt
    else putDigits s 4 v.year
  else if c = chr '1' then
    if c₁ ≠ chr '2' then .error .zdatefmt else putDigits s 2 ((v.time / 3600 + 11) % 12 + 1)
  else if c = chr '2' then
    if c₁ ≠ chr '4' then .error .zdatefmt else putDigits s 2 (v.time / 3600)
  else if c = chr '6' then
    if c₁ ≠ chr '0' then .error .zdatefmt else putDigits s 2 (v.time / 60 % 60)
  else if c = chr 'S' then
    if c₁ ≠ chr 'S' then .error .zdatefmt else putDigits s 2 (v.time % 60)
  else if c = chr 'A' then
    if c₁ ≠ chr 'M' then .error .zdatefmt
    else .ok { s with p := s.p + 2, out := s.out ++ [if v.time < 12 * 3600 then chr 'A' else chr 'P', chr 'M'] }
  else .error .zdatefmt

/-- The loop over the format. -/
def zdateLoop (env : ZdateEnv) (fmt moStr dayStr : List UInt8) (v : ZdateVals) : Nat → ZdateOut → Option (Except ZdateError (List UInt8))
  | 0, _ => none
  | fuel + 1, s =>
    if s.p < fmt.length then
      match zdateStep env fmt moStr dayStr v s with
      | .error e => some (.error e)
      | .ok s => zdateLoop env fmt moStr dayStr v fuel s
    else if fmt.length < s.p then some (.error .zdatefmt)
    else some (.ok s.out)

/-- `op_fnzdate`: what is written at `stringpool.free`. -/
def opFnzdate (env : ZdateEnv) (src : ZdateSrc) (fmt moStr dayStr : List UInt8) : Option (Except ZdateError (List UInt8)) :=
  match zdateTime env src with
  | .error e => some (.error e)
  | .ok (time, outlen) =>
    if MAX_DATE < src.day ∨ src.day < MIN_DATE then some (.error (.zdatebaddate (src.forced.take outlen)))
    else do
      let (year, month, day, dow) ← zdateCalendar src.day
      let fmt := zdateFmt env fmt year
      if ZDATE_MAX_LEN ≤ fmt.length then return .error .zdatefmt
      else zdateLoop env fmt moStr dayStr ⟨time, year, month, day, dow⟩ (fmt.length + 1) ⟨0, fmt.length, []⟩

end Zdate

end Gtm
