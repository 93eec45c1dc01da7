import Gtm.Pat.Patalt
import Gtm.Lib.CutList

/-!
# What the search for pieces finds

With a cache and without one the search comes to the same result, as long as the cache holds results of searches. Without one it tries
the pieces one after the other, so that it finds any row of pieces of which the bounds allow each.
-/

namespace Gtm

namespace Pattern

open CutList

variable {α π ε : Type} {env : PatEnv α π ε} {text : List α} {p : PatAlt π}

/-! ## The cache -/

/-- Every entry holds the result of the search it stands for, made without a cache. `alts` are the alternations of the pattern by their
addresses. -/
def CshLevel.Right (env : PatEnv α π ε) (text : List α) (alts : Nat → PatAlt π) (c : CshLevel) : Prop :=
  ∀ i, (c.arr i).strptr ≠ 0 → ∃ left, left + (c.arr i).repcnt = (alts (c.arr i).patptr).repMax ∧
    doPatalt env text (alts (c.arr i).patptr) left (c.arr i).strptr (c.arr i).charlen none = .ok ((c.arr i).mtch, none)

/-- A level without a cache, or with a right one. -/
def Right (env : PatEnv α π ε) (text : List α) (alts : Nat → PatAlt π) (l : Option CshLevel) : Prop :=
  ∀ c, l = some c → c.Right env text alts

/-- The two outcomes agree, and the cache of the first is right. -/
inductive Agrees (env : PatEnv α π ε) (text : List α) (alts : Nat → PatAlt π) : PatOut ε → PatOut ε → Prop
  | error (e : PatErr ε) : Agrees env text alts (.error e) (.error e)
  | ok (mtch : Bool) {l : Option CshLevel} (h : Right env text alts l) : Agrees env text alts (.ok (mtch, l)) (.ok (mtch, none))

section Cache

variable {alts : Nat → PatAlt π} {c : CshLevel}

theorem right_null {allocSize maxedOut : Nat} : (pteCshIncr allocSize maxedOut).Right env text alts := fun _ h => absurd rfl h

theorem CshLevel.Right.setEntry {i : Nat} {e : PteCsh} (h : c.Right env text alts)
    (he : e.strptr ≠ 0 → ∃ left, left + e.repcnt = (alts e.patptr).repMax ∧
      doPatalt env text (alts e.patptr) left e.strptr e.charlen none = .ok (e.mtch, none)) : (c.setEntry i e).Right env text alts := by
  intro j hj
  simp only [CshLevel.setEntry] at hj ⊢
  by_cases hij : j = i
  · simp only [if_pos hij] at hj ⊢
    exact he hj
  · simp only [if_neg hij] at hj ⊢
    exact h j hj

/-- Only the counts of entries differ. -/
theorem CshLevel.Right.of_counts {c' : CshLevel} (h : c.Right env text alts) (hc : ∀ i, ∃ n, c'.arr i = { c.arr i with count := n }) :
    c'.Right env text alts := by
  intro i hi
  obtain ⟨n, hn⟩ := hc i
  rw [hn] at hi ⊢
  exact h i hi

theorem CshLevel.Right.grow (h : c.Right env text alts) : c.grow.Right env text alts := by
  rw [CshLevel.grow]
  split
  · dsimp only
    split
    · exact fun _ hnull => absurd rfl hnull
    · split
      · exact fun _ hnull => absurd rfl hnull
      · exact h
  · exact h

variable {strptr : Nat}

theorem CshLevel.Right.insert {patptr charlen repcnt : Nat} {mtch : Bool} (h : c.Right env text alts)
    (he : ∃ left, left + repcnt = (alts patptr).repMax ∧ doPatalt env text (alts patptr) left strptr charlen none = .ok (mtch, none)) :
    (c.insert patptr strptr charlen repcnt mtch).Right env text alts := by
  refine CshLevel.Right.setEntry ?_ fun _ => he
  split
  · exact h
  · refine h.of_counts fun i => ?_
    dsimp only
    split
    · exact ⟨1, rfl⟩
    · exact ⟨_, rfl⟩

theorem presentLoop_some {patptr charlen repcnt n i j : Nat} (h : c.presentLoop patptr strptr charlen repcnt n i = some j) :
    (c.arr j).strptr = strptr ∧ (c.arr j).patptr = patptr ∧ (c.arr j).charlen = charlen ∧ (c.arr j).repcnt = repcnt := by
  induction n generalizing i with
  | zero => cases h
  | succ n ih =>
    rw [CshLevel.presentLoop] at h
    split at h
    · split at h
      · exact ih h
      · cases h
    · next hsame =>
      obtain rfl := Option.some.inj h
      simpa [not_or] using hsame

/-- A result that is there is that of the search. -/
theorem lookup_spec (patptr charlen repcnt : Nat) {l : Option CshLevel} (h : Right env text alts l) (hs : strptr ≠ 0) :
    Right env text alts (lookup patptr strptr charlen repcnt l).2 ∧ ∀ mtch, (lookup patptr strptr charlen repcnt l).1 = some mtch →
        ∃ left, left + repcnt = (alts patptr).repMax ∧ doPatalt env text (alts patptr) left strptr charlen none = .ok (mtch, none) := by
  cases l with
  | none => exact ⟨nofun, nofun⟩
  | some c =>
    have hc : ({ c with calls := c.calls + 1 } : CshLevel).Right env text alts := h c rfl
    simp only [lookup]
    cases hp : ({ c with calls := c.calls + 1 } : CshLevel).present patptr strptr charlen repcnt with
    | none =>
      refine ⟨fun c' hc' => ?_, nofun⟩
      obtain rfl := Option.some.inj hc'
      exact hc.grow
    | some found =>
      obtain ⟨i, hi, rfl⟩ := Option.map_eq_some_iff.1 hp
      obtain ⟨hstr, hpat, hlen, hcnt⟩ := presentLoop_some hi
      refine ⟨fun c' hc' => ?_, fun mtch hm => ?_⟩
      · obtain rfl := Option.some.inj hc'
        exact CshLevel.Right.setEntry hc (hc i)
      · obtain rfl := Option.some.inj hm
        have hright := hc i (by rw [hstr]; exact hs)
        rwa [hstr, hpat, hlen, hcnt] at hright

theorem Agrees.orNext {r r₀ : PatOut ε} {next : Option CshLevel → PatOut ε} (h : Agrees env text alts r r₀)
    (hnext : ∀ l, Right env text alts l → Agrees env text alts (next l) (next none)) :
    Agrees env text alts (r.orNext next) (r₀.orNext next) := by
  cases h with
  | error e => exact .error e
  | ok mtch hl =>
    cases mtch with
    | true => exact .ok true hl
    | false => exact hnext _ hl

/-- The search for the rest agrees with one without a cache. -/
def RestAgrees (env : PatEnv α π ε) (text : List α) (alts : Nat → PatAlt π)
    (rest : Option (Nat → Nat → Option CshLevel → PatOut ε)) : Prop :=
  ∀ doPatalt, rest = some doPatalt → ∀ strptr totchar l, strptr ≠ 0 → Right env text alts l →
    Agrees env text alts (doPatalt strptr totchar l) (doPatalt strptr totchar none)

section Loops

variable {rest : Option (Nat → Nat → Option CshLevel → PatOut ε)} {strptr totchar repcnt : Nat} {l : Option CshLevel}

section
variable (hrest : RestAgrees env text alts rest)
include hrest

theorem recurse_agrees (hs : strptr ≠ 0) (charlen : Nat) (hl : Right env text alts l) :
    Agrees env text alts (recurse p rest strptr totchar repcnt charlen l) (recurse p rest strptr totchar repcnt charlen none) := by
  cases rest with
  | none => exact .ok false hl
  | some f =>
    simp only [recurse]
    split
    · exact hrest f rfl _ _ l (by omega) hl
    · exact .ok false hl

theorem lenLoop_agrees (hs : strptr ≠ 0) (a : CompiledPat π) (n charlen : Nat) (hl : Right env text alts l) :
    Agrees env text alts (lenLoop env text p rest strptr totchar repcnt a n charlen l)
      (lenLoop env text p rest strptr totchar repcnt a n charlen none) := by
  induction n generalizing charlen l with
  | zero => exact .ok false hl
  | succ n ih =>
    rw [lenLoop, lenLoop]
    cases hm : if charlen = 0 then .ok true else evalPat env a (piece text strptr charlen) with
    | error e => exact .error _
    | ok mtch =>
      refine Agrees.orNext ?_ fun l hl => ih (charlen + 1) hl
      split
      · exact recurse_agrees hrest hs charlen hl
      · exact .ok mtch hl

theorem altLoop_agrees (hs : strptr ≠ 0) (as : List (CompiledPat π)) (hl : Right env text alts l) :
    Agrees env text alts (altLoop env text p rest strptr totchar repcnt as l) (altLoop env text p rest strptr totchar repcnt as none) := by
  induction as generalizing l with
  | nil => exact .ok false hl
  | cons a as ih =>
    refine Agrees.orNext ?_ fun l hl => ih hl
    split
    · exact lenLoop_agrees hrest hs a _ _ hl
    · exact .ok false hl

theorem pataltStep_agrees (hp : alts p.firstalt = p) (hs : strptr ≠ 0) (left : Nat) (hleft : left + repcnt = p.repMax)
    (hdef : doPatalt env text p left strptr totchar none = pataltStep env text p rest repcnt strptr totchar none)
    (hl : Right env text alts l) :
    Agrees env text alts (pataltStep env text p rest repcnt strptr totchar l) (pataltStep env text p rest repcnt strptr totchar none) := by
  obtain ⟨hl', hfound⟩ := lookup_spec p.firstalt totchar repcnt hl hs
  rw [pataltStep]
  by_cases hlarge : pteMaxEntries ≤ repcnt
  · rw [pataltStep, if_pos hlarge, if_pos hlarge]
    exact .error _
  rw [if_neg hlarge]
  revert hl' hfound
  rcases lookup p.firstalt strptr totchar repcnt l with ⟨_ | mtch, l'⟩
  · intro hl' _
    have hloop : Agrees env text alts (altLoop env text p rest strptr totchar repcnt p.alts l')
        (altLoop env text p rest strptr totchar repcnt p.alts none) := altLoop_agrees hrest hs p.alts hl'
    revert hdef
    rw [pataltStep, if_neg hlarge, lookup]
    dsimp only
    revert hloop
    generalize altLoop env text p rest strptr totchar repcnt p.alts l' = r
    generalize altLoop env text p rest strptr totchar repcnt p.alts none = r₀
    intro hloop hdef
    cases hloop with
    | error e => exact .error e
    | ok mtch h =>
      refine .ok mtch fun c' hc' => ?_
      obtain ⟨c, rfl, rfl⟩ := Option.map_eq_some_iff.1 hc'
      exact (h c rfl).insert ⟨left, by rw [hp, hleft], by rw [hp, hdef]; rfl⟩
  · intro hl' hfound
    obtain ⟨left', hleft', hres⟩ := hfound mtch rfl
    rw [hp] at hleft' hres
    obtain rfl : left = left' := by omega
    rw [← hdef, hres]
    exact .ok mtch hl'

end

end Loops

/-- With a right cache the search comes to the result it comes to without one, and leaves a right cache. -/
theorem doPatalt_agrees (hp : alts p.firstalt = p) {left : Nat} (hleft : left ≤ p.repMax) {strptr : Nat} (hs : strptr ≠ 0) (totchar : Nat)
    {l : Option CshLevel} (hl : Right env text alts l) :
    Agrees env text alts (doPatalt env text p left strptr totchar l) (doPatalt env text p left strptr totchar none) := by
  induction left generalizing strptr totchar l with
  | zero => exact pataltStep_agrees nofun hp hs 0 (Nat.zero_add _) rfl hl
  | succ left ih =>
    refine pataltStep_agrees (fun f hf sp tot l hs hl => ?_) hp hs (left + 1) (by omega) rfl hl
    obtain rfl := Option.some.inj hf
    exact ih (by omega) hs tot hl

end Cache

/-! ## What is found without a cache -/

/-- The outcome says whether `Q` holds, unless an error has been raised. -/
def Tells (r : PatOut ε) (Q : Prop) : Prop :=
  match r with
  | .error _ => True
  | .ok (mtch, l) => l = none ∧ (mtch = true ↔ Q)

theorem Tells.mono {r : PatOut ε} {Q Q' : Prop} (h : Tells r Q) (hQ : Q ↔ Q') : Tells r Q' := by
  cases r with
  | error e => trivial
  | ok o => exact ⟨h.1, h.2.trans hQ⟩

theorem tells_false (Q : Prop) (h : ¬Q) : Tells (.ok (false, none) : PatOut ε) Q := ⟨rfl, by simpa using h⟩

theorem Tells.orNext {r : PatOut ε} {next : Option CshLevel → PatOut ε} {Q Q' : Prop} (h : Tells r Q) (hnext : Tells (next none) Q') :
    Tells (r.orNext next) (Q ∨ Q') := by
  match r with
  | .error e => trivial
  | .ok (true, l) => exact ⟨h.1, by simpa using .inl (h.2.1 rfl)⟩
  | .ok (false, l) =>
    obtain ⟨rfl, hQ⟩ := h
    exact hnext.mono (by simp only [Bool.false_eq_true, false_iff] at hQ; simp [hQ])

/-- A pattern and a length that are tried, and match. -/
structure Tried (env : PatEnv α π ε) (text : List α) (strptr totchar : Nat) (a : CompiledPat π) (charlen : Nat) : Prop where
  min_le : a.totMin ≤ totchar
  least : leastLen totchar a ≤ charlen
  most : charlen ≤ min a.totMax totchar
  mtch : charlen = 0 ∨ evalPat env a (piece text strptr charlen) = .ok true

/-- The rest is found, within the bounds. -/
def Goes (p : PatAlt π) (rest : Option (Nat → Nat → Prop)) (strptr totchar repcnt charlen : Nat) : Prop :=
  match rest with
  | none => False
  | some found =>
    (totchar - charlen ≤ (p.repMax - repcnt) * p.maxIncr ∧ (p.repMin - repcnt) * p.minIncr ≤ totchar - charlen) ∧
      found (strptr + charlen) (totchar - charlen)

/-- A first piece, and the rest unless nothing is left and there are pieces enough. -/
def Found (env : PatEnv α π ε) (text : List α) (p : PatAlt π) (rest : Option (Nat → Nat → Prop)) (repcnt strptr totchar : Nat) : Prop :=
  ∃ a ∈ p.alts, ∃ charlen, Tried env text strptr totchar a charlen ∧
    (charlen < totchar ∨ repcnt < p.repMin → Goes p rest strptr totchar repcnt charlen)

/-- The search finds pieces when `left` more are allowed behind the first. -/
def Chain (env : PatEnv α π ε) (text : List α) (p : PatAlt π) : (left : Nat) → (strptr totchar : Nat) → Prop
  | 0 => Found env text p none p.repMax
  | left + 1 => Found env text p (some (Chain env text p left)) (p.repMax - (left + 1))

/-- The search for the rest tells whether it is found. -/
def RestTells (rest : Option (Nat → Nat → Option CshLevel → PatOut ε)) (found : Option (Nat → Nat → Prop)) : Prop :=
  match rest, found with
  | none, none => True
  | some doPatalt, some found => ∀ strptr totchar, Tells (doPatalt strptr totchar none) (found strptr totchar)
  | _, _ => False

section Found

variable {rest : Option (Nat → Nat → Option CshLevel → PatOut ε)} {found : Option (Nat → Nat → Prop)} {strptr totchar repcnt : Nat}

section
variable (hrest : RestTells rest found)
include hrest

theorem recurse_tells (charlen : Nat) :
    Tells (recurse p rest strptr totchar repcnt charlen none) (Goes p found strptr totchar repcnt charlen) := by
  match rest, found with
  | none, none => exact tells_false _ id
  | none, some _ => exact hrest.elim
  | some _, none => exact hrest.elim
  | some f, some Q =>
    simp only [recurse, Goes]
    split
    · next h => exact (hrest _ _).mono (by simp [h])
    · next h => exact tells_false _ fun hg => h hg.1

theorem lenLoop_tells (a : CompiledPat π) (n charlen : Nat) : Tells (lenLoop env text p rest strptr totchar repcnt a n charlen none)
      (∃ len, charlen ≤ len ∧ len < charlen + n ∧ (len = 0 ∨ evalPat env a (piece text strptr len) = .ok true) ∧
        (len < totchar ∨ repcnt < p.repMin → Goes p found strptr totchar repcnt len)) := by
  induction n generalizing charlen with
  | zero => exact tells_false _ fun ⟨_, hle, hlt, _⟩ => by omega
  | succ n ih =>
    rw [lenLoop]
    cases hm : if charlen = 0 then .ok true else evalPat env a (piece text strptr charlen) with
    | error e => trivial
    | ok mtch =>
      have hmtch : mtch = true ↔ charlen = 0 ∨ evalPat env a (piece text strptr charlen) = .ok true := by
        by_cases hzero : charlen = 0
        · rw [if_pos hzero] at hm
          cases hm
          simp [hzero]
        · rw [if_neg hzero] at hm
          simp [hzero, hm]
      have hfirst : Tells (if mtch = true ∧ (charlen < totchar ∨ repcnt < p.repMin) then
            recurse p rest strptr totchar repcnt charlen none else .ok (mtch, none))
          (mtch = true ∧ (charlen < totchar ∨ repcnt < p.repMin → Goes p found strptr totchar repcnt charlen)) := by
        split
        · next h => exact (recurse_tells hrest charlen).mono (by simp [h.1, h.2])
        · next h => exact ⟨rfl, fun hm => ⟨hm, fun hc => absurd ⟨hm, hc⟩ h⟩, fun hm => hm.1⟩
      refine (hfirst.orNext (ih (charlen + 1))).mono ?_
      rw [hmtch]
      constructor
      · rintro (⟨hm, hgoes⟩ | ⟨len, hle, hlt, h⟩)
        · exact ⟨charlen, Nat.le_refl _, by omega, hm, hgoes⟩
        · exact ⟨len, by omega, by omega, h⟩
      · rintro ⟨len, hle, hlt, h⟩
        rcases Nat.eq_or_lt_of_le hle with rfl | hlt'
        · exact .inl h
        · exact .inr ⟨len, hlt', by omega, h⟩

theorem altLoop_tells (as : List (CompiledPat π)) : Tells (altLoop env text p rest strptr totchar repcnt as none)
      (∃ a ∈ as, ∃ charlen, Tried env text strptr totchar a charlen ∧
        (charlen < totchar ∨ repcnt < p.repMin → Goes p found strptr totchar repcnt charlen)) := by
  induction as with
  | nil => exact tells_false _ (by simp)
  | cons a as ih =>
    have hfirst : Tells (if a.totMin ≤ totchar then
          lenLoop env text p rest strptr totchar repcnt a (min a.totMax totchar + 1 - leastLen totchar a) (leastLen totchar a) none
        else .ok (false, none))
        (∃ charlen, Tried env text strptr totchar a charlen ∧
          (charlen < totchar ∨ repcnt < p.repMin → Goes p found strptr totchar repcnt charlen)) := by
      split
      · next hle =>
        refine (lenLoop_tells hrest a _ _).mono ⟨?_, ?_⟩
        · rintro ⟨len, hleast, hlt, hm, hgoes⟩
          exact ⟨len, ⟨hle, hleast, by omega, hm⟩, hgoes⟩
        · rintro ⟨len, ⟨-, hleast, hmost, hm⟩, hgoes⟩
          exact ⟨len, hleast, by omega, hm, hgoes⟩
      · next hle => exact tells_false _ fun ⟨_, ht, _⟩ => hle ht.min_le
    exact (hfirst.orNext ih).mono (by simp only [List.mem_cons, exists_eq_or_imp])

theorem pataltStep_tells : Tells (pataltStep env text p rest repcnt strptr totchar none) (Found env text p found repcnt strptr totchar) := by
  rw [pataltStep]
  split
  · trivial
  · rw [lookup]
    have hloop : Tells (altLoop env text p rest strptr totchar repcnt p.alts none) (Found env text p found repcnt strptr totchar) :=
      altLoop_tells hrest p.alts
    dsimp only
    revert hloop
    generalize altLoop env text p rest strptr totchar repcnt p.alts none = r
    intro hloop
    match r with
    | .error e => trivial
    | .ok (mtch, l) => exact ⟨by rw [hloop.1]; rfl, hloop.2⟩

end

end Found

theorem doPatalt_tells (left strptr totchar : Nat) :
    Tells (doPatalt env text p left strptr totchar none) (Chain env text p left strptr totchar) := by
  induction left generalizing strptr totchar with
  | zero =>
    have hrest : RestTells (none : Option (Nat → Nat → Option CshLevel → PatOut ε)) none := trivial
    exact pataltStep_tells hrest
  | succ left ih =>
    have hrest : RestTells (some (doPatalt env text p left)) (some (Chain env text p left)) := ih
    exact pataltStep_tells hrest

end Pattern

end Gtm

/-!
## Rows of pieces

What the search finds is a row of pieces that the patterns match. It leaves out pieces of nothing until the string ends, and then puts in
as many as `repmin` asks for. The bounds for the length exclude no row, as long as `max_incr` is the length of the longest piece, or the
string has no more characters than pieces are allowed.
-/

namespace Gtm

namespace Pattern

open CutList

variable {α π ε : Type} {env : PatEnv α π ε} {text : List α} {p : PatAlt π}

/-- A pattern matches a string; the empty one it matches if its total minimum is 0. -/
def Accepts (env : PatEnv α π ε) (a : CompiledPat π) (s : List α) : Prop :=
  if s = [] then a.totMin = 0 else evalPat env a s = .ok true

/-- Some pattern of the alternation matches the string. -/
def Matched (env : PatEnv α π ε) (p : PatAlt π) (s : List α) : Prop := ∃ a ∈ p.alts, Accepts env a s

/-- The string is a row of pieces that patterns match, as many as the bounds allow. -/
def Splits (env : PatEnv α π ε) (p : PatAlt π) (s : List α) : Prop :=
  ∃ ps : List (List α), ps.flatten = s ∧ p.repMin ≤ ps.length ∧ ps.length ≤ p.repMax ∧ ∀ q ∈ ps, Matched env p q

/-! ## The bounds -/

theorem foldl_min_le (as : List (CompiledPat π)) (m : Nat) :
    as.foldl (fun m a => if a.totMin < m then a.totMin else m) m ≤ m ∧
      ∀ a ∈ as, as.foldl (fun m a => if a.totMin < m then a.totMin else m) m ≤ a.totMin := by
  induction as generalizing m with
  | nil => exact ⟨Nat.le_refl _, by simp⟩
  | cons a as ih =>
    obtain ⟨hle, hall⟩ := ih (if a.totMin < m then a.totMin else m)
    have hstep : (if a.totMin < m then a.totMin else m) ≤ m ∧ (if a.totMin < m then a.totMin else m) ≤ a.totMin := by
      split <;> omega
    refine ⟨Nat.le_trans hle hstep.1, fun b hb => ?_⟩
    rcases List.mem_cons.1 hb with rfl | hb
    · exact Nat.le_trans hle hstep.2
    · exact hall b hb

theorem le_foldl_max (as : List (CompiledPat π)) (m : Nat) :
    m ≤ as.foldl (fun m a => if m < a.totMax then a.totMax else m) m ∧
      ∀ a ∈ as, a.totMax ≤ as.foldl (fun m a => if m < a.totMax then a.totMax else m) m := by
  induction as generalizing m with
  | nil => exact ⟨Nat.le_refl _, by simp⟩
  | cons a as ih =>
    obtain ⟨hle, hall⟩ := ih (if m < a.totMax then a.totMax else m)
    have hstep : m ≤ (if m < a.totMax then a.totMax else m) ∧ a.totMax ≤ (if m < a.totMax then a.totMax else m) := by
      split <;> omega
    refine ⟨Nat.le_trans hstep.1 hle, fun b hb => ?_⟩
    rcases List.mem_cons.1 hb with rfl | hb
    · exact Nat.le_trans hstep.2 hle
    · exact hall b hb

variable {a : CompiledPat π} {charlen strptr totchar : Nat}

theorem altmin_le (ha : a ∈ p.alts) : p.altmin ≤ a.totMin := by
  rcases List.mem_cons.1 ha with rfl | ha
  · exact (foldl_min_le p.others _).1
  · exact (foldl_min_le p.others _).2 a ha

theorem le_altmax (ha : a ∈ p.alts) : a.totMax ≤ p.altmax := by
  rcases List.mem_cons.1 ha with rfl | ha
  · exact (le_foldl_max p.others _).1
  · exact (le_foldl_max p.others _).2 a ha

theorem foldl_min_mem (as : List (CompiledPat π)) (a : CompiledPat π) :
    ∃ b ∈ a :: as, b.totMin = as.foldl (fun m a => if a.totMin < m then a.totMin else m) a.totMin := by
  induction as generalizing a with
  | nil => exact ⟨a, by simp, rfl⟩
  | cons c as ih =>
    rw [List.foldl_cons]
    by_cases hlt : c.totMin < a.totMin
    · rw [if_pos hlt]
      obtain ⟨b, hb, heq⟩ := ih c
      exact ⟨b, List.mem_cons_of_mem _ hb, heq⟩
    · rw [if_neg hlt]
      obtain ⟨b, hb, heq⟩ := ih a
      refine ⟨b, ?_, heq⟩
      rcases List.mem_cons.1 hb with rfl | hb
      · simp
      · simp [hb]

/-- `altmin` is the minimum of one of the patterns. -/
theorem exists_altmin : ∃ a ∈ p.alts, a.totMin = p.altmin := foldl_min_mem p.others p.first

theorem boundMultiply_le (x y : Nat) : boundMultiply x y ≤ x * y := by
  rw [boundMultiply]
  split <;> omega

theorem minIncr_le : p.minIncr ≤ p.altmin := by
  rw [PatAlt.minIncr]
  by_cases h : p.mintmp ≠ 0
  · rw [if_pos h]
    exact Nat.div_le_of_le_mul (boundMultiply_le _ _)
  · rw [if_neg h]
    exact Nat.zero_le _

/-- `max_incr` is no less than the longest piece, unless its product has been cut. -/
theorem altmax_le_maxIncr (h : p.repMax * p.altmax ≤ patMaxRepeat) (hrep : p.repMax ≠ 0) : p.altmax ≤ p.maxIncr := by
  have hprod : p.maxtmp = p.repMax * p.altmax := by
    rw [PatAlt.maxtmp, boundMultiply]
    split <;> omega
  rw [PatAlt.maxIncr, hprod]
  split
  · exact Nat.le_of_eq (Nat.mul_div_cancel_left _ (Nat.pos_of_ne_zero hrep)).symm
  · next hzero =>
    rcases Nat.mul_eq_zero.1 (Decidable.not_not.1 hzero) with h | h
    · exact absurd h hrep
    · exact Nat.le_of_eq h

theorem repMax_ne_zero (h : p.maxtmp ≠ 0) : p.repMax ≠ 0 := by
  intro hzero
  have hle := boundMultiply_le p.repMax p.altmax
  rw [hzero, Nat.zero_mul] at hle
  exact h (Nat.le_zero.1 (hzero ▸ hle))

theorem one_le_maxIncr (h : p.maxtmp ≠ 0) : 1 ≤ p.maxIncr := by
  rw [PatAlt.maxIncr, if_pos h, Nat.one_le_div_iff]
  · have hle := p.repMax_le
    have hprod : p.repMax * p.altmax ≠ 0 := fun hzero => h (Nat.le_zero.1 (hzero ▸ boundMultiply_le _ _))
    rw [PatAlt.maxtmp, boundMultiply]
    split
    · exact hle
    · exact Nat.le_mul_of_pos_right _ (Nat.pos_of_ne_zero fun hz => hprod (by rw [hz, Nat.mul_zero]))
  · exact Nat.pos_of_ne_zero (repMax_ne_zero h)

/-! ## Pieces of the string -/

theorem piece_zero (strptr : Nat) : piece text strptr 0 = [] := rfl

theorem piece_append (hs : strptr ≠ 0) (hle : charlen ≤ totchar) :
    piece text strptr totchar = piece text strptr charlen ++ piece text (strptr + charlen) (totchar - charlen) := by
  rw [piece, piece, piece, show totchar = charlen + (totchar - charlen) by omega, List.take_add, List.drop_drop,
    show strptr + charlen - 1 = strptr - 1 + charlen by omega, Nat.add_sub_cancel_left]

theorem piece_length (h : strptr - 1 + totchar ≤ text.length) : (piece text strptr totchar).length = totchar := by
  rw [piece, List.length_take, List.length_drop]
  omega

theorem Accepts.length {s : List α} (h : Accepts env a s) (hs : s ≠ []) : a.totMin ≤ s.length ∧ s.length ≤ a.totMax := by
  rw [Accepts, if_neg hs, evalPat] at h
  split at h
  · next hfix =>
    have hlen := env.doPatfixed_length h
    have heq := a.fixed_eq hfix
    omega
  · exact env.doPattern_length h

/-- A piece that the search tries is matched. -/
theorem Tried.accepts (h : Tried env text strptr totchar a charlen)
    (hin : strptr - 1 + totchar ≤ text.length) : Accepts env a (piece text strptr charlen) := by
  have hmost := h.most
  by_cases hzero : charlen = 0
  · subst hzero
    have hleast := h.least
    rw [leastLen] at hleast
    rw [piece_zero, Accepts, if_pos rfl]
    split at hleast <;> omega
  · have hne : piece text strptr charlen ≠ [] := by
      intro hnil
      have hlen : (piece text strptr charlen).length = charlen := piece_length (by omega)
      rw [hnil] at hlen
      exact hzero hlen.symm
    rw [Accepts, if_neg hne]
    exact h.mtch.resolve_left hzero

/-- A matched piece that takes something is tried. -/
theorem Accepts.tried (h : Accepts env a (piece text strptr charlen))
    (hin : strptr - 1 + totchar ≤ text.length) (hle : charlen ≤ totchar) (hpos : charlen ≠ 0) : Tried env text strptr totchar a charlen := by
  have hlen : (piece text strptr charlen).length = charlen := piece_length (by omega)
  have hne : piece text strptr charlen ≠ [] := fun hnil => hpos (by rw [← hlen, hnil]; rfl)
  obtain ⟨hmin, hmax⟩ := h.length hne
  refine ⟨by omega, ?_, by omega, .inr ?_⟩
  · rw [leastLen]
    split <;> omega
  · rwa [Accepts, if_neg hne] at h

/-- A pattern of minimum 0 is tried where nothing is left. -/
theorem tried_nil (ha : a.totMin = 0) (strptr : Nat) : Tried env text strptr 0 a 0 :=
  ⟨by omega, by simp [leastLen, ha], Nat.zero_le _, .inl rfl⟩

/-! ## What is found is a row -/

theorem Chain.cuts {left : Nat} (hleft : left < p.repMax) (hs : strptr ≠ 0) (hin : strptr - 1 + totchar ≤ text.length)
    (h : Chain env text p left strptr totchar) :
    ∃ j, j ≠ 0 ∧ Cuts (Matched env p) j (piece text strptr totchar) ∧ p.repMin < (p.repMax - left) + j ∧
      (p.repMax - left) + j ≤ p.repMax + 1 := by
  have hone : ∀ {a charlen}, a ∈ p.alts → Tried env text strptr totchar a charlen → charlen = totchar →
      Cuts (Matched env p) 1 (piece text strptr totchar) := fun ha ht heq =>
    ⟨_, [], (List.append_nil _).symm, ⟨_, ha, heq ▸ ht.accepts hin⟩, rfl⟩
  induction left generalizing strptr totchar with
  | zero =>
    obtain ⟨a, ha, charlen, ht, hgoes⟩ := h
    have hmost := ht.most
    have hstop : ¬(charlen < totchar ∨ p.repMax < p.repMin) := fun hc => hgoes hc
    exact ⟨1, by omega, hone ha ht (by omega), by omega, by omega⟩
  | succ left ih =>
    obtain ⟨a, ha, charlen, ht, hgoes⟩ := h
    have hmost := ht.most
    by_cases hc : charlen < totchar ∨ p.repMax - (left + 1) < p.repMin
    · have hrest := (hgoes hc).2
      have hin' : strptr + charlen - 1 + (totchar - charlen) ≤ text.length := by omega
      obtain ⟨j, -, hcuts, hmin, hmax⟩ := ih (by omega) (by omega) hin' hrest fun ha ht heq =>
        ⟨_, [], (List.append_nil _).symm, ⟨_, ha, heq ▸ ht.accepts hin'⟩, rfl⟩
      exact ⟨j + 1, by omega, ⟨_, _, piece_append hs (by omega), ⟨a, ha, ht.accepts hin⟩, hcuts⟩, by omega, by omega⟩
    · exact ⟨1, by omega, hone ha ht (by omega), by omega, by omega⟩

/-! ## A row is found -/

/-- The bounds for the length exclude nothing: `max_incr` is large enough for the longest piece, or the string is short. -/
def Ample (p : PatAlt π) (totchar repcnt : Nat) : Prop := p.altmax ≤ p.maxIncr ∨ 1 ≤ p.maxIncr ∧ totchar + repcnt ≤ p.repMax + 1

theorem minIncr_eq_zero (h : Matched env p []) : p.minIncr = 0 := by
  obtain ⟨a, ha, hacc⟩ := h
  rw [Accepts, if_pos rfl] at hacc
  have hle := altmin_le ha
  have hincr := minIncr_le (p := p)
  omega

theorem chain_nil (h : Matched env p []) (left : Nat) (strptr : Nat) : Chain env text p left strptr 0 := by
  have hincr := minIncr_eq_zero h
  obtain ⟨a, ha, hacc⟩ := h
  induction left generalizing strptr with
  | zero =>
    refine ⟨a, ha, 0, tried_nil hacc strptr, fun hc => ?_⟩
    have hle := p.repMin_le
    omega
  | succ left ih => exact ⟨a, ha, 0, tried_nil hacc strptr, fun _ => ⟨⟨Nat.zero_le _, by simp [hincr]⟩, ih _⟩⟩

/-- The two parts of a cut are pieces. -/
theorem piece_eq_append {q t : List α} (hs : strptr ≠ 0) (hin : strptr - 1 + totchar ≤ text.length) (h : piece text strptr totchar = q ++ t) :
    q.length ≤ totchar ∧ q = piece text strptr q.length ∧ t = piece text (strptr + q.length) (totchar - q.length) := by
  have hlen := piece_length hin
  rw [h, List.length_append] at hlen
  have hle : q.length ≤ totchar := by omega
  rw [piece_append hs hle] at h
  have hq : (piece text strptr q.length).length = q.length := piece_length (by omega)
  obtain ⟨hfirst, hrest⟩ := List.append_inj h hq
  exact ⟨hle, hfirst.symm, hrest.symm⟩

theorem Matched.length {q : List α} (h : Matched env p q) (hq : q ≠ []) : p.minIncr ≤ q.length ∧ q.length ≤ p.altmax := by
  obtain ⟨a, ha, hacc⟩ := h
  obtain ⟨hmin, hmax⟩ := hacc.length hq
  exact ⟨Nat.le_trans minIncr_le (Nat.le_trans (altmin_le ha) hmin), Nat.le_trans hmax (le_altmax ha)⟩

theorem chain_of_cuts {left j : Nat} (hleft : left < p.repMax) (hs : strptr ≠ 0) (hin : strptr - 1 + totchar ≤ text.length)
    (hample : Ample p totchar (p.repMax - left)) (hcuts : Cuts (fun q => q ≠ [] ∧ Matched env p q) j (piece text strptr totchar))
    (hj : j ≠ 0) (hmax : j ≤ left + 1) (hmin : p.repMin < p.repMax - left + j ∨ Matched env p []) : Chain env text p left strptr totchar := by
  induction left generalizing strptr totchar j with
  | zero =>
    obtain rfl : j = 1 := by omega
    obtain ⟨q, t, hqt, ⟨hq, a, ha, hacc⟩, rfl⟩ := hcuts
    obtain ⟨hle, hfirst, -⟩ := piece_eq_append hs hin hqt
    have hlen := piece_length hin
    rw [hqt, List.append_nil] at hlen
    refine ⟨a, ha, q.length, Accepts.tried (hfirst ▸ hacc) hin hle (by simpa using hq), fun hc => ?_⟩
    have hrep := p.repMin_le
    omega
  | succ left ih =>
    obtain ⟨j, rfl⟩ := Nat.exists_eq_succ_of_ne_zero hj
    obtain ⟨q, t, hqt, ⟨hq, hmatched⟩, hrest⟩ := hcuts
    obtain ⟨hle, hfirst, ht⟩ := piece_eq_append hs hin hqt
    have hpos : q.length ≠ 0 := by simpa using hq
    obtain ⟨a, ha, hacc⟩ := hmatched
    refine ⟨a, ha, q.length, Accepts.tried (hfirst ▸ hacc) hin hle hpos, fun hc => ?_⟩
    by_cases hlast : j = 0
    · subst hlast
      have htnil : t = [] := hrest
      have hlen := piece_length hin
      rw [hqt, htnil, List.append_nil] at hlen
      have hnil : Matched env p [] := hmin.resolve_left (by omega)
      rw [Goes, hlen, Nat.sub_self, minIncr_eq_zero hnil]
      exact ⟨⟨Nat.zero_le _, by simp⟩, chain_nil hnil left _⟩
    · have hin' : strptr + q.length - 1 + (totchar - q.length) ≤ text.length := by omega
      have hlen : t.length = totchar - q.length := by
        rw [ht]
        exact piece_length hin'
      have hupper : totchar - q.length ≤ (p.repMax - (p.repMax - (left + 1))) * p.maxIncr := by
        rw [show p.repMax - (p.repMax - (left + 1)) = left + 1 by omega]
        rcases hample with hlong | ⟨hone, hshort⟩
        · rw [← hlen]
          calc t.length ≤ j * p.altmax := hrest.length_le fun q hq => (hq.2.length hq.1).2
            _ ≤ (left + 1) * p.maxIncr := Nat.mul_le_mul (by omega) hlong
        · calc totchar - q.length ≤ (left + 1) * 1 := by omega
            _ ≤ (left + 1) * p.maxIncr := Nat.mul_le_mul_left _ hone
      have hlower : (p.repMin - (p.repMax - (left + 1))) * p.minIncr ≤ totchar - q.length := by
        rw [← hlen]
        rcases hmin with hmin | hnil
        · calc (p.repMin - (p.repMax - (left + 1))) * p.minIncr ≤ j * p.minIncr := Nat.mul_le_mul_right _ (by omega)
            _ ≤ t.length := hrest.le_length fun q hq => (hq.2.length hq.1).1
        · rw [minIncr_eq_zero hnil]
          exact Nat.zero_le _
      refine ⟨⟨hupper, hlower⟩, ih (by omega) (by omega) hin' ?_ (ht ▸ hrest) hlast (by omega) (hmin.imp_left (by omega))⟩
      exact hample.imp_right fun ⟨hone, hshort⟩ => ⟨hone, by omega⟩

end Pattern

end Gtm
