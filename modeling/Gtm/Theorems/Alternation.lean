import Gtm.Lemmas.Patalt

/-!
# The search for pieces is exact

With any cache that `do_pattern` can have while it checks a string, `do_patalt` finds out whether the string is a row of pieces, as long as
`max_incr` has not been cut below the longest piece or the string has no more characters than pieces are allowed. It raises PATALTER2LARGE
only for strings or minimums from `PTE_MAX_ENTRIES` on.
-/

namespace Gtm

namespace Pattern

open CutList

variable {α π ε : Type} {env : PatEnv α π ε} {text : List α} {p : PatAlt π}

/-! ## The errors -/

/-- What an error says when it comes from a call for `totchar` characters: the evaluation of a pattern raised it, or more than
`PTE_MAX_ENTRIES` pieces are allowed, and asked for or needed to reach the end of the string. -/
def Allowed (env : PatEnv α π ε) (p : PatAlt π) (repcnt totchar : Nat) : PatErr ε → Prop
  | .raised e => ∃ a ∈ p.alts, ∃ s, evalPat env a s = .error e
  | .patalter2large => pteMaxEntries ≤ p.repMax ∧
      (pteMaxEntries ≤ p.repMin ∨ totchar ≠ 0 ∧ pteMaxEntries < repcnt + totchar ∨ pteMaxEntries ≤ repcnt)

/-- An error of the next call, for what a first piece leaves, is allowed here. -/
theorem Allowed.of_next {repcnt totchar charlen : Nat} {e : PatErr ε} (h : Allowed env p (repcnt + 1) (totchar - charlen) e)
    (hle : charlen ≤ totchar) (hpos : totchar ≠ 0 → charlen ≠ 0) (hc : charlen < totchar ∨ repcnt < p.repMin) :
    Allowed env p repcnt totchar e := by
  cases e with
  | raised e => exact h
  | patalter2large =>
    obtain ⟨hmax, hmin | ⟨hleft, hlong⟩ | hlarge⟩ := h
    · exact ⟨hmax, .inl hmin⟩
    · exact ⟨hmax, .inr (.inl ⟨by omega, by omega⟩)⟩
    · by_cases hmany : pteMaxEntries ≤ p.repMin
      · exact ⟨hmax, .inl hmany⟩
      · by_cases hhere : pteMaxEntries ≤ repcnt
        · exact ⟨hmax, .inr (.inr hhere)⟩
        · exact ⟨hmax, .inr (.inl ⟨by omega, by omega⟩)⟩

theorem orNext_error {r : PatOut ε} {next : Option CshLevel → PatOut ε} {e : PatErr ε} (h : r.orNext next = .error e) :
    r = .error e ∨ ∃ l, next l = .error e := by
  match r with
  | .error e' => exact .inl h
  | .ok (true, l) => cases h
  | .ok (false, l) => exact .inr ⟨l, h⟩

section Errors

variable {rest : Option (Nat → Nat → Option CshLevel → PatOut ε)} {strptr totchar repcnt : Nat}

/-- The errors of the search for the rest are allowed. -/
def RestAllowed (env : PatEnv α π ε) (p : PatAlt π) (repcnt : Nat) (rest : Option (Nat → Nat → Option CshLevel → PatOut ε)) : Prop :=
  ∀ doPatalt, rest = some doPatalt → ∀ strptr totchar l e, doPatalt strptr totchar l = .error e → Allowed env p (repcnt + 1) totchar e

variable {e : PatErr ε} {l : Option CshLevel}

theorem lenLoop_error {a : CompiledPat π} (ha : a ∈ p.alts) (hrest : RestAllowed env p repcnt rest) {n charlen : Nat} (hmost : charlen + n ≤ totchar + 1) (hpos : totchar ≠ 0 → charlen ≠ 0)
    (h : lenLoop env text p rest strptr totchar repcnt a n charlen l = .error e) : Allowed env p repcnt totchar e := by
  induction n generalizing charlen l with
  | zero => cases h
  | succ n ih =>
    rw [lenLoop] at h
    split at h
    · next e' he =>
      obtain rfl := Except.error.inj h
      split at he
      · cases he
      · exact ⟨a, ha, _, he⟩
    · next mtch _ =>
      rcases orNext_error h with h | ⟨l', h⟩
      · split at h
        · next hc =>
          cases rest with
          | none => cases h
          | some f =>
            simp only [recurse] at h
            split at h
            · exact (hrest f rfl _ _ _ _ h).of_next (by omega) hpos hc.2
            · cases h
        · cases h
      · exact ih (by omega) (by omega) h

theorem altLoop_error (hrest : RestAllowed env p repcnt rest) {as : List (CompiledPat π)} (has : ∀ a ∈ as, a ∈ p.alts) (h : altLoop env text p rest strptr totchar repcnt as l = .error e) :
    Allowed env p repcnt totchar e := by
  induction as generalizing l with
  | nil => cases h
  | cons a as ih =>
    rcases orNext_error h with h | ⟨l', h⟩
    · split at h
      · next hle =>
        refine lenLoop_error (has a (by simp)) hrest ?_ (fun htot => ?_) h
        · rw [leastLen]
          split <;> omega
        · rw [leastLen]
          split <;> omega
      · cases h
    · exact ih (fun b hb => has b (List.mem_cons_of_mem _ hb)) h

theorem pataltStep_error (hrest : RestAllowed env p repcnt rest) (hrep : repcnt ≤ p.repMax)
    (h : pataltStep env text p rest repcnt strptr totchar l = .error e) : Allowed env p repcnt totchar e := by
  rw [pataltStep] at h
  split at h
  · next hlarge =>
    obtain rfl := Except.error.inj h
    exact ⟨Nat.le_trans hlarge hrep, .inr (.inr hlarge)⟩
  · split at h
    · cases h
    · split at h
      · next hloop =>
        obtain rfl := Except.error.inj h
        exact altLoop_error hrest (fun _ ha => ha) hloop
      · cases h

end Errors

variable {l : Option CshLevel} {left strptr totchar charlen : Nat} {alts : Nat → PatAlt π}

theorem doPatalt_error (hleft : left ≤ p.repMax) {e : PatErr ε}
    (h : doPatalt env text p left strptr totchar l = .error e) : Allowed env p (p.repMax - left) totchar e := by
  induction left generalizing strptr totchar l e with
  | zero =>
    have hrest : RestAllowed env p p.repMax none := nofun
    exact pataltStep_error hrest (Nat.le_refl _) h
  | succ left ih =>
    refine pataltStep_error (fun f hf sp tot l e h => ?_) (Nat.sub_le _ _) h
    obtain rfl := Option.some.inj hf
    rw [show p.repMax - (left + 1) + 1 = p.repMax - left by omega]
    exact ih (by omega) h

/-! ## The caches of a string -/

/-- What `do_pattern` can have for a cache while it checks a string: none on the deeper levels, or a new one; and what a call leaves. -/
inductive Reached (env : PatEnv α π ε) (text : List α) (alts : Nat → PatAlt π) : Option CshLevel → Prop
  | none : Reached env text alts none
  | incr (allocSize maxedOut : Nat) : Reached env text alts (some (pteCshIncr allocSize maxedOut))
  | call {l l' : Option CshLevel} (h : Reached env text alts l) {p : PatAlt π} (hp : alts p.firstalt = p) {strptr rept : Nat}
      (hs : strptr ≠ 0) {mtch : Bool} (hcall : patternAlt env text p strptr rept l = .ok (mtch, l')) : Reached env text alts l'

theorem patternAlt_agrees (hp : alts p.firstalt = p) (hs : strptr ≠ 0) (rept : Nat) (hl : Right env text alts l) :
    Agrees env text alts (patternAlt env text p strptr rept l) (patternAlt env text p strptr rept none) := by
  rw [patternAlt, patternAlt]
  split
  · exact .ok true hl
  · exact doPatalt_agrees hp (Nat.sub_le _ _) hs rept hl

theorem Agrees.right {r r₀ : PatOut ε} (h : Agrees env text alts r r₀) {mtch : Bool} (hr : r = .ok (mtch, l)) : Right env text alts l := by
  cases h with
  | error e => cases hr
  | ok mtch hl =>
    cases hr
    exact hl

theorem Agrees.fst {r r₀ : PatOut ε} (h : Agrees env text alts r r₀) : r.map Prod.fst = r₀.map Prod.fst := by
  cases h with
  | error e => rfl
  | ok mtch hl => rfl

theorem Reached.right (h : Reached env text alts l) : Right env text alts l := by
  induction h with
  | none => exact nofun
  | incr allocSize maxedOut =>
    intro c hc
    obtain rfl := Option.some.inj hc
    exact right_null
  | @call _ _ _ _ hp _ rept hs _ hcall ih =>
    exact (patternAlt_agrees hp hs rept ih).right hcall

/-! ## The result -/

/-- A string without characters is a row where the least length allows it. -/
theorem splits_nil (hmin : p.mintmp = 0) : Splits env p [] := by
  by_cases hrep : p.repMin = 0
  · exact ⟨[], rfl, by simp [hrep], Nat.zero_le _, by simp⟩
  · have haltmin : p.altmin = 0 := by
      rw [PatAlt.mintmp, boundMultiply] at hmin
      split at hmin
      · cases hmin
      · exact (Nat.mul_eq_zero.1 hmin).resolve_left hrep
    obtain ⟨a, ha, hzero⟩ := exists_altmin (p := p)
    have hmatched : Matched env p [] := ⟨a, ha, by rw [Accepts, if_pos rfl, hzero, haltmin]⟩
    refine ⟨List.replicate p.repMin [], by simp, by simp, by simpa using p.repMin_le, fun q hq => ?_⟩
    obtain rfl := List.eq_of_mem_replicate hq
    exact hmatched

/-- The search finds exactly the rows. -/
theorem chain_iff_splits {rept : Nat} (hs : strptr ≠ 0) (hin : strptr - 1 + rept ≤ text.length) (hrept : rept ≠ 0)
    (hmax : rept ≤ p.maxtmp) (hample : p.repMax * p.altmax ≤ patMaxRepeat ∨ rept ≤ p.repMax) :
    Chain env text p (p.repMax - 1) strptr rept ↔ Splits env p (piece text strptr rept) := by
  have hmaxtmp : p.maxtmp ≠ 0 := by omega
  have hrep := repMax_ne_zero hmaxtmp
  have hcount : p.repMax - (p.repMax - 1) = 1 := by omega
  constructor
  · intro h
    obtain ⟨j, -, hcuts, hleast, hmost⟩ := h.cuts (by omega) hs hin
    obtain ⟨ps, hlen, hflat, hall⟩ := cuts_iff.1 hcuts
    exact ⟨ps, hflat, by omega, by omega, hall⟩
  · rintro ⟨ps, hflat, hleast, hmost, hall⟩
    obtain ⟨j, hj, hcuts, hnil⟩ := (cuts_iff.2 ⟨ps, rfl, hflat, hall⟩).nonempty
    refine chain_of_cuts (by omega) hs hin ?_ hcuts ?_ (by omega) ?_
    · rcases hample with hexact | hshort
      · exact .inl (altmax_le_maxIncr hexact hrep)
      · exact .inr ⟨one_le_maxIncr hmaxtmp, by omega⟩
    · rintro rfl
      have hlen := piece_length hin
      rw [show piece text strptr rept = [] from hcuts] at hlen
      exact hrept hlen.symm
    · by_cases hfew : j < ps.length
      · exact .inr (hnil hfew)
      · exact .inl (by omega)

/-- The patterns of one atom, a letter or `N`, which raise no error. -/
def atomEnv : PatEnv Char (Option Char) Empty where
  doPattern a s := .ok (decide (a.totMin ≤ s.length ∧ s.length ≤ a.totMax) && s.all fun c => a.stream.elim c.isDigit (· == c))
  doPatfixed a s := .ok (decide (s.length = a.totMin) && s.all fun c => a.stream.elim c.isDigit (· == c))
  doPattern_length h := of_decide_eq_true (Bool.and_eq_true_iff.1 (Except.ok.inj h)).1
  doPatfixed_length h := of_decide_eq_true (Bool.and_eq_true_iff.1 (Except.ok.inj h)).1

/-- `1"c"`. -/
def litPat (c : Char) : CompiledPat (Option Char) := ⟨true, 1, 1, some c, fun _ => rfl⟩

/-- `.(1"a",1"b")`. -/
def letters : PatAlt (Option Char) := ⟨1, 0, patMaxRepeat, litPat 'a', [litPat 'b'], Nat.zero_le _, Nat.le_refl _⟩

/-- As many `a` as `PTE_MAX_ENTRIES` is. -/
def manyA : List Char := List.replicate pteMaxEntries 'a'

theorem manyA_piece (h : strptr - 1 + charlen ≤ pteMaxEntries) : piece manyA strptr charlen = List.replicate charlen 'a' := by
  rw [piece, manyA, List.drop_replicate, List.take_replicate, Nat.min_eq_left (by omega)]

theorem letters_maxIncr : letters.maxIncr = 1 := by decide

theorem letters_minIncr : letters.minIncr = 0 := by decide

/-- Each piece of the many takes one, so that the count of pieces grows to `PTE_MAX_ENTRIES`. -/
theorem doPatalt_manyA (hcount : letters.repMax - left + totchar = pteMaxEntries + 1)
    (hin : strptr - 1 + totchar ≤ pteMaxEntries) (hs : strptr ≠ 0) (hleft : left < letters.repMax) (htot : totchar ≠ 0) :
    doPatalt atomEnv manyA letters left strptr totchar none = .error .patalter2large := by
  have hmax : letters.repMax = 1048576 := rfl
  have hentries : pteMaxEntries = 16384 := rfl
  induction left generalizing strptr totchar with
  | zero => omega
  | succ left ih =>
    rw [doPatalt, pataltStep]
    by_cases hlarge : pteMaxEntries ≤ letters.repMax - (left + 1)
    · rw [if_pos hlarge]
    · have hfirst : leastLen totchar (litPat 'a') = 1 := by simp [leastLen, litPat]
      have hone : min (litPat 'a').totMax totchar + 1 - 1 = 0 + 1 := by
        simp only [litPat]
        omega
      have heval : evalPat atomEnv (litPat 'a') (piece manyA strptr 1) = .ok true := by
        rw [manyA_piece (by omega)]
        decide
      have hrest : doPatalt atomEnv manyA letters left (strptr + 1) (totchar - 1) none = .error .patalter2large :=
        ih (by omega) (by omega) (by omega) (by omega) (by omega)
      have hle : (litPat 'a').totMin ≤ totchar := Nat.one_le_iff_ne_zero.2 htot
      have hbounds : totchar - 1 ≤ (letters.repMax - (letters.repMax - (left + 1))) * letters.maxIncr ∧
          (letters.repMin - (letters.repMax - (left + 1))) * letters.minIncr ≤ totchar - 1 := by
        rw [letters_maxIncr, letters_minIncr]
        omega
      have hmore : 1 < totchar ∨ letters.repMax - (left + 1) < letters.repMin := .inl (by omega)
      rw [if_neg hlarge, lookup, show letters.alts = [litPat 'a', litPat 'b'] from rfl]
      dsimp only
      rw [altLoop, if_pos hle, hfirst, hone, lenLoop, if_neg Nat.one_ne_zero, heval]
      simp only [if_pos (show True ∧ _ from ⟨trivial, hmore⟩), recurse, if_pos hbounds, hrest]
      rfl

end Pattern

end Gtm
