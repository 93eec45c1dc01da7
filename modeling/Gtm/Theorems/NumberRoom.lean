import Gtm.Lemmas.Fnumber

/-!
# Room for formatted numbers

`op_fnj3` reserves enough, where the size can be computed. `op_fnfnumber` reserves room for two numbers, which the decimals that `op_fnj3` has put
behind a number can exceed.
-/

namespace Gtm

namespace Justify

open FixedPoint Positional ZPiece NumberRoundTripAux

variable {src : Mval}

/-- An argument: a number in valid representation, with its canonical string if it has one that is marked as such, or a string. -/
def ValidSource (src : Mval) : Prop :=
  if src.mvtype.nm then src.NumValid ∧ (src.mvtype.str = true → src.mvtype.numApprox = false → src.str = n2sStr src)
  else src.mvtype = { str := true }

/-- A call that ends, with an error or with as much written as has been reserved. -/
def FitsRoom (r : Option (Except JustErr Written)) : Prop := ∃ x, r = some x ∧ ∀ w, x = .ok w → (w.out.length : ℤ) ≤ w.reserved

theorem ValidSource.forced (hsrc : ValidSource src) {v : Mval} (hv : mvForceNum src = .ok v) :
    v.Number ∧ (v.mvtype.str = true → v.mvtype.numApprox = false → v.str = n2sStr v) := by
  unfold ValidSource at hsrc
  by_cases hnm : src.mvtype.nm = true
  · rw [if_pos hnm] at hsrc
    rw [mvForceNum_of_nm hnm] at hv
    obtain rfl := Except.ok.inj hv
    exact ⟨⟨hnm, hsrc.1⟩, hsrc.2⟩
  · rw [if_neg hnm] at hsrc
    rw [mvForceNum, if_neg hnm] at hv
    cases hrun : s2n src with
    | error err =>
      rw [hrun] at hv
      cases err
      cases hv
    | ok r =>
      rw [hrun] at hv
      obtain rfl := Except.ok.inj hv
      have hint : src.mvtype.int = false := by rw [hsrc]
      have happ : src.mvtype.numApprox = false := by rw [hsrc]
      obtain ⟨hstr, -, hnm', -⟩ := s2n_again hrun
      exact ⟨⟨hnm', s2n_numValid hrun hint⟩, fun _ hexact => hstr.trans (n2sStr_of_exact hrun hint happ hexact).symm⟩

/-! ## `op_fnj3` -/

theorem wholeDigits_length {N k : ℕ} (hN : N < 10 ^ k) (hk : 0 < k) : (wholeDigits N).length ≤ k := by
  unfold wholeDigits
  split
  · exact hk
  · rw [List.length_reverse]
    exact (Nat.digits_length_le_iff (by omega) N).2 hN

/-- The whole part of a rounded number has at most 47 digits. -/
theorem wholeDigits_rounded {v : Mval} (hv : v.Number) (fract : ℕ) :
    (wholeDigits (roundHalf (v.numVal * 10 ^ fract) / 10 ^ fract)).length ≤ 47 := by
  refine wholeDigits_length ?_ (by omega)
  by_cases hzero : roundHalf (v.numVal * 10 ^ fract) = 0
  · rw [hzero, Nat.zero_div]
    omega
  · obtain ⟨-, hhigh⟩ := roundHalf_range hv rfl hzero
    rw [div_lt_iff₀ (by positivity)] at hhigh
    rw [Nat.div_lt_iff_lt_mul (Nat.pow_pos (by omega))]
    exact_mod_cast hhigh

theorem justifyText_length {v : Mval} (hv : v.Number) (width fract : ℕ) : (justifyText v.numVal width fract).length ≤ width + 49 + fract := by
  have hwhole := wholeDigits_rounded hv fract
  have hlen := unsignedText_length (roundHalf (v.numVal * 10 ^ fract)) fract
  have hsign (c : Prop) [Decidable c] : (if c then [ascMinus] else []).length ≤ 1 := by split <;> simp
  have hone := hsign (decide (v.numVal < 0) = true ∧ roundHalf (v.numVal * 10 ^ fract) ≠ 0)
  rw [justifyText, decimalText_unsigned, List.length_append, List.length_append, List.length_replicate]
  split at hlen <;> omega

theorem opFnj3_room (hsrc : ValidSource src) {width fract : ℤ} :
    FitsRoom (opFnj3 src width fract) ↔ (width ≤ maxStrlen → 0 ≤ fract → max width 0 + fract < 2 ^ 31 - 66) := by
  rw [opFnj3_eq fun v hv => (hsrc.forced hv).1]
  constructor
  · rintro ⟨x, hrun, -⟩ hwidth hfract
    by_contra hover
    rw [if_neg (by omega), if_neg (by omega), if_pos (by omega)] at hrun
    exact nomatch hrun
  · intro hfits
    by_cases hwide : (maxStrlen : ℤ) < width
    · rw [if_pos hwide]
      exact ⟨_, rfl, fun w hw => nomatch hw⟩
    · rw [if_neg hwide]
      by_cases hneg : fract < 0
      · rw [if_pos hneg]
        exact ⟨_, rfl, fun w hw => nomatch hw⟩
      · have hsmall := hfits (by omega) (by omega)
        rw [if_neg hneg, if_neg (by omega)]
        by_cases hlong : (maxStrlen : ℤ) < max width 0 + 66 + fract
        · rw [if_pos hlong]
          exact ⟨_, rfl, fun w hw => nomatch hw⟩
        · rw [if_neg hlong]
          cases hforce : mvForceNum src with
          | error err => exact ⟨_, rfl, fun w hw => nomatch hw⟩
          | ok v =>
            refine ⟨_, rfl, fun w hw => ?_⟩
            obtain rfl := Except.ok.inj hw
            have hlen := justifyText_length (hsrc.forced hforce).1 width.toNat fract.toNat
            dsimp only
            omega

/-! ## `op_fnfnumber` -/

theorem formatSize_le (code : FnCode) (neg isZero : Bool) (k : ℕ) : formatSize code neg isZero k ≤ k / 3 + 2 := by
  unfold formatSize
  have hcomma : (if code.comma then (k - 1) / 3 else 0) ≤ k / 3 := by split <;> omega
  have haround : (if code.paren then 2 else if code.trail then 1 else if (neg ∧ ¬ code.minus) ∨ (code.plus ∧ ¬ neg ∧ ¬ isZero) then 1 else 0) ≤ 2 := by
    split
    · exact Nat.le_refl 2
    · split
      · omega
      · split <;> omega
  omega

theorem wholeLen_le (ch : List UInt8) : wholeLen ch ≤ ch.length := by
  induction ch with
  | nil => exact Nat.le_refl 0
  | cons c ch ih =>
    rw [wholeLen, List.length_cons]
    split <;> omega

/-- Whether a number is zero matters only for a plus sign. -/
theorem formatSize_congr {code : FnCode} {neg : Bool} (h : ¬ (code.plus = true ∧ ¬ neg = true)) (isZero isZero' : Bool) (k : ℕ) :
    formatSize code neg isZero k = formatSize code neg isZero' k := by
  have hno (z : Bool) : ((neg ∧ ¬ code.minus) ∨ (code.plus ∧ ¬ neg ∧ ¬ z)) ↔ (neg = true ∧ ¬ code.minus = true) :=
    or_iff_left fun hz => h ⟨hz.1, hz.2.1⟩
  simp only [formatSize, hno]

/-- What is written of a string, unless there is an error. -/
theorem fnumberFormat_length {fmt : List UInt8} {dst : Mval} {d : List UInt8} {w : Written} (h : fnumberFormat fmt dst = .ok (d, w)) :
    w = ⟨0, []⟩ ∨ ∃ code neg isZero ch, (fmt ≠ [] ∧ fnCode fmt 0 {} = .ok code ∧ ¬ (code.paren ∧ (code.plus ∨ code.minus ∨ code.trail))) ∧
      w.reserved = 128 ∧ ch.length ≤ dst.str.length ∧ w.out.length = ch.length + formatSize code neg isZero (wholeLen ch) := by
  unfold fnumberFormat at h
  by_cases hfmt : fmt = []
  · rw [if_pos hfmt] at h
    exact .inl (Prod.mk.inj (Except.ok.inj h)).2.symm
  · rw [if_neg hfmt] at h
    right
    cases hcode : fnCode fmt 0 {} with
    | error i =>
      rw [hcode] at h
      exact nomatch h
    | ok code =>
      rw [hcode] at h
      dsimp only at h
      by_cases hclash : code.paren ∧ (code.plus ∨ code.minus ∨ code.trail)
      · rw [if_pos hclash] at h
        exact nomatch h
      · rw [if_neg hclash] at h
        have hch : (if decide (dst.str.head? = some ascMinus) = true then dst.str.tail else dst.str).length ≤ dst.str.length := by
          split
          · rw [List.length_tail]
            omega
          · exact Nat.le_refl _
        by_cases hplus : code.plus = true ∧ ¬ decide (dst.str.head? = some ascMinus) = true
        · rw [if_pos hplus] at h
          cases hforce : mvForceNum dst with
          | error err =>
            rw [hforce] at h
            exact nomatch h
          | ok v =>
            rw [hforce] at h
            obtain ⟨-, rfl⟩ := Prod.mk.inj (Except.ok.inj h)
            exact ⟨code, _, _, _, ⟨hfmt, rfl, hclash⟩, rfl, hch, fnumberText_length hclash _ _ _⟩
        · rw [if_neg hplus] at h
          obtain ⟨-, rfl⟩ := Prod.mk.inj (Except.ok.inj h)
          exact ⟨code, _, _, _, ⟨hfmt, rfl, hclash⟩, rfl, hch, fnumberText_length hclash _ _ _⟩

/-- The canonical string of a number is short. -/
theorem n2sStr_length {v : Mval} (hv : v.NumValid) : (n2sStr v).length ≤ 62 := by
  by_cases hzero : v.numVal = 0
  · rw [n2sStr_of_zero hv hzero]
    exact Nat.le_of_ble_eq_true rfl
  · obtain ⟨e, ds, hstr, hnormal⟩ := n2sStr_decStr hv.mantValid hzero
    obtain ⟨-, -, -, hlen, hlo, hhi⟩ := canonic_of_numValid hv hnormal
    have hsign : (if decide (v.numVal < 0) = true then [ascMinus] else []).length ≤ 1 := by split <;> simp
    rw [expLo, mvXbias] at hlo
    rw [expHi, mvXbias] at hhi
    rw [numDecDg2l] at hlen
    have hbody : (decBody e ds).length ≤ 61 := by
      unfold decBody
      split
      · rw [List.length_cons, List.length_append, List.length_replicate, chars_length]
        omega
      · split
        · rw [List.length_append, List.length_replicate, chars_length]
          omega
        · rw [List.length_append, List.length_cons, chars_length, chars_length, List.length_take, List.length_drop]
          omega
    rw [hstr, decStr, List.length_append]
    omega

/-- A number that is not rounded is formatted from its canonical string. -/
theorem fnumberDst_none (hsrc : ValidSource src) : ∃ r, fnumberDst src none = some r ∧ ∀ dst, r = .ok dst → dst.str.length ≤ 62 := by
  unfold fnumberDst
  cases hforce : mvForceNum src with
  | error err => exact ⟨_, rfl, fun dst hdst => nomatch hdst⟩
  | ok v =>
    obtain ⟨hnum, hcanonical⟩ := hsrc.forced hforce
    have hlen := n2sStr_length hnum.valid
    refine ⟨_, rfl, fun dst hdst => ?_⟩
    obtain rfl := Except.ok.inj hdst
    rw [mvForceCanonical]
    by_cases happ : v.mvtype.numApprox = true
    · rw [if_pos happ, mvForceStr]
      exact hlen
    · rw [if_neg happ, mvForceStr]
      split
      · rw [hcanonical ‹_› (by simpa using happ)]
        exact hlen
      · exact hlen

/-- What `op_fnfnumber` writes itself. -/
def fnumberWritten (src : Mval) (fmt : Option (List UInt8)) (decimals : Option ℤ) : Option (Except JustErr Written) :=
  (opFnfnumber src fmt decimals).map fun r => r.map Prod.snd

theorem fnumberWritten_none (hsrc : ValidSource src) (fmt : Option (List UInt8)) : FitsRoom (fnumberWritten src fmt none) := by
  cases fmt with
  | none => exact ⟨_, rfl, fun w hw => nomatch hw⟩
  | some fmt =>
    obtain ⟨r, hrun, hshort⟩ := fnumberDst_none hsrc
    rw [fnumberWritten, opFnfnumber, hrun]
    refine ⟨_, rfl, fun w hw => ?_⟩
    cases r with
    | error err => exact nomatch hw
    | ok dst =>
      have hdst := hshort dst rfl
      change (fnumberFormat fmt dst).map Prod.snd = .ok w at hw
      cases hres : fnumberFormat fmt dst with
      | error err =>
        rw [hres] at hw
        exact nomatch hw
      | ok x =>
        rw [hres] at hw
        obtain rfl := Except.ok.inj hw
        obtain hnone | ⟨code, neg, isZero, ch, -, hres', hch, hlen⟩ := fnumberFormat_length hres
        · rw [hnone]
          exact Int.le_refl 0
        · have hsize := formatSize_le code neg isZero (wholeLen ch)
          have hwhole := wholeLen_le ch
          omega

/-- The length of the text that `op_fnfnumber` writes of a number rounded to `fract` decimals. -/
def formattedSize (code : FnCode) (q : ℚ) (fract : ℕ) : ℕ :=
  let R := roundHalf (q * 10 ^ fract)
  let k := (wholeDigits (R / 10 ^ fract)).length
  k + (if fract = 0 then 0 else fract + 1) + formatSize code (decide (q < 0 ∧ R ≠ 0)) (decide (R = 0)) k

/-- A rounded number with a format that is none of the errors. -/
theorem fnumberFormat_rounded {v : Mval} (hv : v.Number) {fmt : List UInt8} {code : FnCode} (fract : ℕ) (hfmt : fmt ≠ [])
    (hcode : fnCode fmt 0 {} = .ok code) (hclash : ¬ (code.paren ∧ (code.plus ∨ code.minus ∨ code.trail))) :
    ∃ out, fnumberFormat fmt (Mval.ofStr (justifyText v.numVal 0 fract)) = .ok (out, ⟨128, out⟩) ∧
      out.length = formattedSize code v.numVal fract := by
  obtain ⟨R, hR⟩ : ∃ R, roundHalf (v.numVal * 10 ^ fract) = R := ⟨_, rfl⟩
  have htext : justifyText v.numVal 0 fract = (if v.numVal < 0 ∧ R ≠ 0 then [ascMinus] else []) ++ unsignedText R fract := by
    rw [justifyText, hR, decimalText_unsigned, Nat.zero_sub, List.replicate_zero, List.nil_append]
    simp only [decide_eq_true_eq]
  have hlen (neg isZero : Bool) : (fnumberText code neg isZero (unsignedText R fract)).length =
      (wholeDigits (R / 10 ^ fract)).length + (if fract = 0 then 0 else fract + 1) +
        formatSize code neg isZero (wholeDigits (R / 10 ^ fract)).length := by
    rw [fnumberText_length hclash, unsignedText_length, wholeLen_unsigned]
  rw [formattedSize, hR, fnumberFormat, if_neg hfmt, hcode]
  dsimp only [Mval.ofStr]
  rw [if_neg hclash, htext]
  by_cases hneg : v.numVal < 0 ∧ R ≠ 0
  · rw [if_pos hneg, List.singleton_append, decide_eq_true hneg, if_neg (by simp)]
    refine ⟨_, rfl, ?_⟩
    rw [if_pos (by simp), List.tail_cons, hlen]
    exact congrArg _ (formatSize_congr (by simp) _ _ _)
  · have hhead := unsignedText_head R fract
    rw [if_neg hneg, List.nil_append]
    simp only [hhead, hneg, decide_false, Bool.false_eq_true, not_false_eq_true, and_true, if_false]
    by_cases hplus : code.plus = true
    · obtain ⟨u, hu, hzero⟩ := mvForceNum_unsigned fun hne => roundHalf_range hv hR hne
      rw [Mval.ofStr] at hu
      rw [if_pos hplus, hu]
      refine ⟨_, rfl, ?_⟩
      rw [hlen, decide_eq_decide.2 hzero]
    · rw [if_neg hplus]
      refine ⟨_, rfl, ?_⟩
      rw [hlen]
      exact congrArg _ (formatSize_congr (fun h => hplus h.1) _ _ _)

/-- When the room that `op_fnfnumber` reserves is enough: it does not round, or the number of decimals neither overflows the size nor makes the
text longer than two numbers. -/
def FormatFits (src : Mval) (fmt : Option (List UInt8)) (decimals : Option ℤ) : Prop :=
  ∀ f d, fmt = some f → decimals = some d → 0 ≤ d → d < 2 ^ 31 - 66 ∧
    ∀ v code, d + 66 ≤ maxStrlen → mvForceNum src = .ok v → f ≠ [] → fnCode f 0 {} = .ok code →
      ¬ (code.paren ∧ (code.plus ∨ code.minus ∨ code.trail)) → formattedSize code v.numVal d.toNat ≤ 128

theorem fnumberWritten_some (hsrc : ValidSource src) (fmt : List UInt8) (d : ℤ) :
    FitsRoom (fnumberWritten src (some fmt) (some d)) ↔ FormatFits src (some fmt) (some d) := by
  have hfits : FormatFits src (some fmt) (some d) ↔ (0 ≤ d → d < 2 ^ 31 - 66 ∧ ∀ v code, d + 66 ≤ maxStrlen → mvForceNum src = .ok v → fmt ≠ [] →
      fnCode fmt 0 {} = .ok code → ¬ (code.paren ∧ (code.plus ∨ code.minus ∨ code.trail)) → formattedSize code v.numVal d.toNat ≤ 128) := by
    constructor
    · exact fun h => h fmt d rfl rfl
    · rintro h f d' hf hd
      obtain rfl := Option.some.inj hf
      obtain rfl := Option.some.inj hd
      exact h
  have herror {err : JustErr} (hdst : fnumberDst src (some d) = some (.error err)) : FitsRoom (fnumberWritten src (some fmt) (some d)) := by
    rw [fnumberWritten, opFnfnumber, hdst]
    exact ⟨_, rfl, fun w hw => nomatch hw⟩
  have hdst : fnumberDst src (some d) = (opFnj3 src 0 d).map fun r => r.map fun w => Mval.ofStr w.out := rfl
  have hzero : max (0 : ℤ) 0 = 0 := max_self 0
  rw [opFnj3_eq fun v hv => (hsrc.forced hv).1, hzero, Int.zero_add] at hdst
  rw [hfits]
  by_cases hneg : d < 0
  · rw [if_pos hneg] at hdst
    exact iff_of_true (herror hdst) fun h => absurd h (by omega)
  · rw [if_neg hneg] at hdst
    by_cases hover : 2 ^ 31 ≤ 66 + d
    · rw [if_pos hover] at hdst
      refine iff_of_false ?_ fun h => absurd (h (by omega)).1 (by omega)
      rintro ⟨x, hrun, -⟩
      rw [fnumberWritten, opFnfnumber, hdst] at hrun
      exact nomatch hrun
    · rw [if_neg hover] at hdst
      by_cases hlong : (maxStrlen : ℤ) < 66 + d
      · rw [if_pos hlong] at hdst
        exact iff_of_true (herror hdst) fun _ => ⟨by omega, fun v code h => absurd h (by omega)⟩
      · rw [if_neg hlong] at hdst
        cases hforce : mvForceNum src with
        | error err =>
          rw [hforce] at hdst
          exact iff_of_true (herror hdst) fun _ => ⟨by omega, fun v code _ h => nomatch h⟩
        | ok v =>
          rw [hforce] at hdst
          have hnum := (hsrc.forced hforce).1
          have hwritten : fnumberWritten src (some fmt) (some d) =
              some ((fnumberFormat fmt (Mval.ofStr (justifyText v.numVal 0 d.toNat))).map Prod.snd) := by
            rw [fnumberWritten, opFnfnumber, hdst]
            rfl
          rw [hwritten]
          constructor
          · rintro ⟨x, hx, hroom⟩ _
            obtain rfl := Option.some.inj hx
            refine ⟨by omega, fun u code _ hu hfmt hcode hclash => ?_⟩
            obtain rfl := Except.ok.inj hu
            obtain ⟨out, hout, hlen⟩ := fnumberFormat_rounded hnum d.toNat hfmt hcode hclash
            rw [hout] at hroom
            have := hroom ⟨128, out⟩ rfl
            dsimp only at this
            omega
          · intro h
            refine ⟨_, rfl, fun w hw => ?_⟩
            cases hres : fnumberFormat fmt (Mval.ofStr (justifyText v.numVal 0 d.toNat)) with
            | error err =>
              rw [hres] at hw
              exact nomatch hw
            | ok x =>
              rw [hres] at hw
              obtain rfl := Except.ok.inj hw
              obtain hnone | ⟨code, -, -, -, ⟨hfmt, hcode, hclash⟩, -⟩ := fnumberFormat_length hres
              · rw [hnone]
                exact Int.le_refl 0
              · obtain ⟨out, hout, hlen⟩ := fnumberFormat_rounded hnum d.toNat hfmt hcode hclash
                obtain rfl := Except.ok.inj (hres.symm.trans hout)
                have := (h (by omega)).2 v code (by omega) rfl hfmt hcode hclash
                dsimp only
                omega

/-- Neither function writes more than it has reserved, with sizes that do not overflow, exactly where the number of decimals is an error or
small enough: for `op_fnj3` so that the size fits an `int`, and for `op_fnfnumber` also so that the text fits the room for two numbers. -/
theorem opFnj3_opFnfnumber_room (hsrc : ValidSource src) (width fract : ℤ) (fmt : Option (List UInt8)) (decimals : Option ℤ) :
    (FitsRoom (opFnj3 src width fract) ∧ FitsRoom (fnumberWritten src fmt decimals)) ↔
      (width ≤ maxStrlen → 0 ≤ fract → max width 0 + fract < 2 ^ 31 - 66) ∧ FormatFits src fmt decimals := by
  refine and_congr (opFnj3_room hsrc) ?_
  cases decimals with
  | none => exact iff_of_true (fnumberWritten_none hsrc fmt) fun f d _ h => nomatch h
  | some d =>
    cases fmt with
    | none => exact iff_of_true ⟨_, rfl, fun w hw => nomatch hw⟩ fun f d h => nomatch h
    | some fmt => exact fnumberWritten_some hsrc fmt d

theorem opFnj3_opFnfnumber_room_one : FitsRoom (opFnj3 literalOne 10 2) ∧ FitsRoom (fnumberWritten literalOne (some [ascComma]) none) := by
  have hone : ValidSource literalOne := ⟨by decide, fun _ _ => by decide⟩
  exact (opFnj3_opFnfnumber_room hone 10 2 (some [ascComma]) none).2 ⟨fun _ _ => by decide, fun f d _ h => nomatch h⟩

/-- With 127 decimals the room that is reserved for a formatted number is too small. -/
theorem opFnfnumber_overruns : ¬ FitsRoom (fnumberWritten literalOne (some [ascComma]) (some 127)) := by
  rintro ⟨x, hx, hroom⟩
  have hrun : ((fnumberWritten literalOne (some [ascComma]) (some 127)).map fun r => r.toOption.map fun w => (w.out.length, w.reserved)) =
      some (some (129, 128)) := by decide +kernel
  rw [hx] at hrun
  cases x with
  | error err => exact nomatch Option.some.inj hrun
  | ok w =>
    obtain ⟨hlen, hres⟩ := Prod.mk.inj (Option.some.inj (Option.some.inj hrun))
    have := hroom w rfl
    omega

end Justify

end Gtm
