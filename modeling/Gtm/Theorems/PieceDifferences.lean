import Gtm.Lemmas.PieceDiff

/-!
# The differing pieces

`strpiecediff` lists every piece of the ranges in which the two strings differ, and no other. One turn of its loop decides about the
piece `nextmin`; the numbers from there on that are asked for and differ are what it adds to the list.
-/

namespace Gtm

namespace StrPiece

open Pieces

/-- The numbers that are still asked for: those from `lo` to `hi`, and those of the ranges that follow. -/
def pending (lo hi : Nat) (ranges : List NumRange) (n : Nat) : Bool :=
  decide (lo ≤ n ∧ n ≤ hi) || ranges.any fun r => decide (r.min ≤ n ∧ n ≤ r.max)

/-- The numbers of the pieces from `lo` on that are asked for and differ. -/
def remaining (delim oldstr newstr : List UInt8) (lo hi : Nat) (ranges : List NumRange) : List Nat :=
  (List.range' lo (max (pieces delim oldstr).length (pieces delim newstr).length + 1 - lo)).filter fun n =>
    pending lo hi ranges n && pieceDiffers delim oldstr newstr n

theorem ascending_le {b : Nat} {ranges : List NumRange} (h : Ascending b ranges) : ∀ r ∈ ranges, b < r.min := by
  induction ranges generalizing b with
  | nil => nofun
  | cons r rs ih =>
    intro r' hr'
    rcases List.mem_cons.1 hr' with rfl | hr'
    · exact h.1
    · exact Nat.lt_of_lt_of_le h.1 (h.2.1.trans (ih h.2.2 r' hr').le)

/-- No number below the first of them is asked for. -/
theorem le_of_pending {lo hi n : Nat} {ranges : List NumRange} (hle : lo ≤ hi) (h : Ascending hi ranges) (hn : pending lo hi ranges n) :
    lo ≤ n := by
  rcases Bool.or_eq_true_iff.1 hn with hn | hn
  · exact (of_decide_eq_true hn).1
  · obtain ⟨r, hr, hin⟩ := List.any_eq_true.1 hn
    exact (hle.trans (ascending_le h r hr).le).trans (of_decide_eq_true hin).1

/-- A filter of a range that starts later, when nothing before passes. -/
theorem filter_range'_from {p : Nat → Bool} {lo lo' : Nat} (m : Nat) (hle : lo ≤ lo') (hp : ∀ n, p n → lo' ≤ n) :
    (List.range' lo (m - lo)).filter p = (List.range' lo' (m - lo')).filter p := by
  induction lo', hle using Nat.le_induction with
  | base => rfl
  | succ k hk ih =>
    rw [ih fun n hn => Nat.le_of_succ_le (hp n hn)]
    rcases Nat.lt_or_ge k m with hlt | hge
    · obtain ⟨j, hj⟩ : ∃ j, m - k = j + 1 := ⟨m - k - 1, by omega⟩
      have hnot : ¬p k := fun h => absurd (hp k h) (by omega)
      rw [hj, List.range'_succ, List.filter_cons_of_neg hnot, show m - (k + 1) = j by omega]
    · rw [show m - k = 0 by omega, show m - (k + 1) = 0 by omega]
      rfl

section Loop

variable {matchFn : MatchFn} {delim oldstr newstr : List UInt8} {old new : PcScan}

/-- Behind the last piece of both nothing remains. -/
theorem remaining_of_ended {lo hi : Nat} {ranges : List NumRange} (hold : (pieces delim oldstr).length < lo)
    (hnew : (pieces delim newstr).length < lo) : remaining delim oldstr newstr lo hi ranges = [] := by
  rw [remaining, show max (pieces delim oldstr).length (pieces delim newstr).length + 1 - lo = 0 by omega]
  rfl

/-- The piece `lo` first, and then what is asked for next. -/
theorem remaining_step {lo hi : Nat} {ranges : List NumRange}
    (hlo : lo ≤ max (pieces delim oldstr).length (pieces delim newstr).length) (hle : lo ≤ hi) : remaining delim oldstr newstr lo hi ranges =
      (if pieceDiffers delim oldstr newstr lo then [lo] else []) ++
        (List.range' (lo + 1) (max (pieces delim oldstr).length (pieces delim newstr).length + 1 - (lo + 1))).filter fun n =>
          pending (lo + 1) hi ranges n && pieceDiffers delim oldstr newstr n := by
  have hhere : pending lo hi ranges lo = true := by simp [pending, hle]
  have hrest : ∀ n, lo + 1 ≤ n → pending lo hi ranges n = pending (lo + 1) hi ranges n := fun n hn => by
    simp only [pending, show lo ≤ n by omega, hn, true_and]
  rw [remaining, show max (pieces delim oldstr).length (pieces delim newstr).length + 1 - lo =
      max (pieces delim oldstr).length (pieces delim newstr).length + 1 - (lo + 1) + 1 by omega, List.range'_succ]
  have hfilter : ∀ m, (List.range' (lo + 1) m).filter (fun n => pending lo hi ranges n && pieceDiffers delim oldstr newstr n) =
      (List.range' (lo + 1) m).filter fun n => pending (lo + 1) hi ranges n && pieceDiffers delim oldstr newstr n := fun m =>
    List.filter_congr fun n hn => by rw [hrest n (List.mem_range'_1.1 hn).1]
  rw [List.filter_cons, hfilter]
  simp only [hhere, Bool.true_and]
  split_ifs <;> rfl

/-- After the last number of a range the next range is asked for. -/
theorem remaining_next {hi : Nat} {r : NumRange} {ranges : List NumRange} (h : Ascending hi (r :: ranges)) :
    ((List.range' (hi + 1) (max (pieces delim oldstr).length (pieces delim newstr).length + 1 - (hi + 1))).filter fun n =>
        pending (hi + 1) hi (r :: ranges) n && pieceDiffers delim oldstr newstr n) = remaining delim oldstr newstr r.min r.max ranges := by
  have heq : ∀ n, pending (hi + 1) hi (r :: ranges) n = pending r.min r.max ranges n := fun n => by
    have hno : ¬(hi + 1 ≤ n ∧ n ≤ hi) := by omega
    simp only [pending, hno, decide_false, Bool.false_or, List.any_cons]
  simp only [heq]
  refine filter_range'_from _ h.1 fun n hn => ?_
  exact le_of_pending h.2.1 h.2.2 (Bool.and_eq_true_iff.1 hn).1

theorem remaining_last {hi m : Nat} :
    ((List.range' (hi + 1) m).filter fun n => pending (hi + 1) hi [] n && pieceDiffers delim oldstr newstr n) = [] := by
  refine List.filter_eq_nil_iff.2 fun n _ => ?_
  have hno : ¬(hi + 1 ≤ n ∧ n ≤ hi) := by omega
  simp [pending, hno]

/-- The list with one more number. -/
theorem addPiece_commaList (found : List Nat) (n : Nat) : addPiece (commaList found) n = commaList (found ++ [n]) := by
  have hdigits : ∀ n, i2a n ≠ [] := fun n h => by simp [i2a, Nat.toDigits_ne_nil] at h
  induction found with
  | nil => simp [addPiece, commaList, List.intercalate]
  | cons a found ih =>
    cases found with
    | nil => simp [addPiece, commaList, List.intercalate, hdigits]
    | cons b found =>
      have hcons : ∀ l, commaList (a :: b :: l) = i2a a ++ ([44] ++ commaList (b :: l)) := fun l => by
        simp only [commaList, List.map_cons, List.intercalate_cons_cons, List.append_assoc]
      have hne : ∀ l, commaList (b :: l) ≠ [] := fun l h => by
        cases l <;> simp [commaList, List.intercalate, hdigits] at h
      have hne' : commaList (a :: b :: found) ≠ [] := by simp [hcons]
      have hadd : commaList (a :: b :: found ++ [n]) = i2a a ++ ([44] ++ addPiece (commaList (b :: found)) n) := by
        rw [ih]
        exact hcons _
      rw [hadd, addPiece, addPiece, if_neg (hne found), if_neg hne', hcons]
      simp only [List.append_assoc]

/-- The test of the loop is whether the pieces differ. -/
theorem pieceDiffers_iff {k mo mn : Nat} {so sn : List UInt8} {eo en : Bool}
    (ho : (pieces delim oldstr)[k]? = if eo then some (so.take mo) else none)
    (hn : (pieces delim newstr)[k]? = if en then some (sn.take mn) else none)
    (hlo : eo = true → mo ≤ so.length) (hln : en = true → mn ≤ sn.length) (hboth : ¬(eo = false ∧ en = false)) :
    pieceDiffers delim oldstr newstr (k + 1) = true ↔ (eo ≠ en ∨ mo ≠ mn ∨ so.take mo ≠ sn.take mo) := by
  rw [pieceDiffers, decide_eq_true_iff, Nat.add_sub_cancel, ho, hn]
  cases eo <;> cases en
  · exact absurd ⟨rfl, rfl⟩ hboth
  · simp
  · simp
  · simp only [if_true, ne_eq, Option.some.injEq, not_true, false_or, ← not_and_or]
    refine not_congr ⟨fun h => ?_, fun ⟨h, h'⟩ => by rw [h', h]⟩
    have hlen := congrArg List.length h
    rw [List.length_take, List.length_take, min_eq_left (hlo rfl), min_eq_left (hln rfl)] at hlen
    exact ⟨hlen, h.trans (by rw [hlen])⟩

/-- The loop first skips what is before the next number. -/
theorem pieceDiffLoop_skip (hm : Matches matchFn delim) (hd : delim ≠ []) {c lo : Nat} (hc : c + 1 ≤ lo)
    (ho : ScanAt delim oldstr c old) (hn : ScanAt delim newstr c new) (hi fuel : Nat) (ranges : List NumRange) (pcdiff : List UInt8) :
    (pieceDiffLoop matchFn delim (fuel + 1) (c + 1) lo hi ranges old new pcdiff = some pcdiff ∧
        (pieces delim oldstr).length < lo ∧ (pieces delim newstr).length < lo) ∨
      ∃ old₁ new₁, ScanAt delim oldstr (lo - 1) old₁ ∧ ScanAt delim newstr (lo - 1) new₁ ∧ old₁.left delim ≤ old.left delim ∧
        new₁.left delim ≤ new.left delim ∧ ¬(old₁.endSeen = true ∧ new₁.endSeen = true) ∧
        pieceDiffLoop matchFn delim (fuel + 1) (c + 1) lo hi ranges old new pcdiff =
          pieceDiffLoop matchFn delim (fuel + 1) lo lo hi ranges old₁ new₁ pcdiff := by
  by_cases hend : old.endSeen = true ∧ new.endSeen = true
  · have hlo := (ho.ended hend.1).1
    have hln := (hn.ended hend.2).1
    exact .inl ⟨if_pos hend, by omega, by omega⟩
  · rcases Nat.eq_or_lt_of_le hc with rfl | hlt
    · exact .inr ⟨old, new, ho, hn, Nat.le_refl _, Nat.le_refl _, hend, rfl⟩
    · obtain ⟨k, rfl⟩ : ∃ k, lo = c + 1 + (k + 1) := ⟨lo - (c + 2), by omega⟩
      have hk : c + 1 + (k + 1) - (c + 1) = k + 1 := by omega
      obtain ⟨ho', hleo⟩ := skipPieces_spec hm hd ho k.succ_pos
      obtain ⟨hn', hlen⟩ := skipPieces_spec hm hd hn k.succ_pos
      have hat : c + 1 + (k + 1) - 1 = c + (k + 1) := by omega
      by_cases hend' : (skipPieces matchFn delim (k + 1) old).endSeen = true ∧ (skipPieces matchFn delim (k + 1) new).endSeen = true
      · have hlo := (ho'.ended hend'.1).1
        have hln := (hn'.ended hend'.2).1
        refine .inl ⟨?_, by omega, by omega⟩
        rw [pieceDiffLoop, if_neg hend]
        simp only [hk]
        exact if_pos ⟨k.succ_ne_zero, hend'⟩
      · refine .inr ⟨_, _, hat ▸ ho', hat ▸ hn', hleo, hlen, hend', ?_⟩
        rw [pieceDiffLoop, pieceDiffLoop, if_neg hend]
        simp only [hk, Nat.sub_self, ne_eq, Nat.succ_ne_zero, not_false_eq_true, if_true, true_and, not_true, if_false, false_and,
          if_neg hend']

/-- A string does not go back. -/
theorem updateLeft_le {s s' : PcScan} {r : CurPiece} (hno : r.pieceExists = false → s.endSeen = true ∧ s' = s)
    (hlt : r.pieceExists = true → (updatePtrLen s' r.ptrEnd).left delim < s.left delim) :
    (updatePtrLen s' r.ptrEnd).left delim ≤ s.left delim := by
  cases he : r.pieceExists with
  | true => exact (hlt he).le
  | false =>
    obtain ⟨hend, rfl⟩ := hno he
    rw [updatePtrLen, if_neg (by simp [hend])]

/-- The loop adds the numbers that remain. -/
theorem pieceDiffLoop_spec (hm : Matches matchFn delim) (hd : delim ≠ []) (fuel : Nat) {c lo hi : Nat} {ranges : List NumRange}
    (hc : c + 1 ≤ lo) (hle : lo ≤ hi) (hasc : Ascending hi ranges)
    (ho : ScanAt delim oldstr c old) (hn : ScanAt delim newstr c new) (hfuel : old.left delim + new.left delim < fuel) (found : List Nat) :
    pieceDiffLoop matchFn delim fuel (c + 1) lo hi ranges old new (commaList found) =
      some (commaList (found ++ remaining delim oldstr newstr lo hi ranges)) := by
  induction fuel generalizing c lo hi ranges old new found with
  | zero => omega
  | succ fuel ih =>
    rcases pieceDiffLoop_skip hm hd hc ho hn hi fuel ranges (commaList found) with ⟨heq, hlo, hln⟩ |
      ⟨old₁, new₁, ho₁, hn₁, hleo, hlen, hend, heq⟩
    · rw [heq, remaining_of_ended hlo hln, List.append_nil]
    · obtain ⟨k, rfl⟩ : ∃ k, lo = k + 1 := ⟨lo - 1, by omega⟩
      rw [Nat.add_sub_cancel] at ho₁ hn₁
      obtain ⟨hpo, hlo, -, hno, ho₂, hfo⟩ := matchCurpiece_spec hm hd ho₁
      obtain ⟨hpn, hln, -, hnn, hn₂, hfn⟩ := matchCurpiece_spec hm hd hn₁
      have hboth : ¬((matchCurpiece matchFn delim old₁).2.pieceExists = false ∧ (matchCurpiece matchFn delim new₁).2.pieceExists = false) :=
        fun h => hend ⟨(hno h.1).1, (hnn h.2).1⟩
      -- one of the strings has the piece, so one of them goes on
      have hleo₂ := updateLeft_le hno hfo
      have hlen₂ := updateLeft_le hnn hfn
      have hleft : (updatePtrLen (matchCurpiece matchFn delim old₁).1 (matchCurpiece matchFn delim old₁).2.ptrEnd).left delim +
          (updatePtrLen (matchCurpiece matchFn delim new₁).1 (matchCurpiece matchFn delim new₁).2.ptrEnd).left delim < fuel := by
        rcases not_and_or.1 hboth with h | h
        · have := hfo (eq_true_of_ne_false h)
          omega
        · have := hfn (eq_true_of_ne_false h)
          omega
      have hlast : k + 1 ≤ max (pieces delim oldstr).length (pieces delim newstr).length := by
        rcases not_and_or.1 hboth with h | h
        · rw [eq_true_of_ne_false h] at hpo
          have := (List.getElem?_eq_some_iff.1 hpo).1
          omega
        · rw [eq_true_of_ne_false h] at hpn
          have := (List.getElem?_eq_some_iff.1 hpn).1
          omega
      have hdiff := pieceDiffers_iff hpo hpn hlo hln hboth
      have hadd : (if pieceDiffers delim oldstr newstr (k + 1) then addPiece (commaList found) (k + 1) else commaList found) =
          commaList (found ++ if pieceDiffers delim oldstr newstr (k + 1) then [k + 1] else []) := by
        split_ifs
        · exact addPiece_commaList found (k + 1)
        · rw [List.append_nil]
      rw [heq, pieceDiffLoop, if_neg hend, remaining_step hlast hle]
      simp only [Nat.sub_self, ne_eq, not_true, if_false, false_and, if_neg hboth]
      simp only [← hdiff, hadd]
      by_cases hmax : k + 1 = hi
      · -- the range is done
        rw [if_pos hmax]
        subst hmax
        cases ranges with
        | nil => simp only [remaining_last, List.append_nil]
        | cons r rs =>
          simp only
          rw [ih hasc.1 hasc.2.1 hasc.2.2 ho₂ hn₂ (by omega), remaining_next hasc, List.append_assoc]
      · rw [if_neg hmax, ih (Nat.le_refl _) (by omega) hasc ho₂ hn₂ (by omega), List.append_assoc]
        rfl

end Loop

/-- What `strpiecediff` lists, with a match function that finds the delimiters. -/
theorem strpiecediff_eq {matchFn : MatchFn} {oldstr newstr delim : List UInt8} {piecearray : List NumRange}
    (hm : Matches matchFn delim) (hd : delim ≠ []) (hranges : Ascending 0 piecearray) (hold : oldstr.length < maxPosInt4)
    (hnew : newstr.length < maxPosInt4) :
    strpiecediff matchFn oldstr newstr delim piecearray = some (commaList (differing delim oldstr newstr piecearray)) := by
  have hpo := length_pieces_le hd oldstr
  have hpn := length_pieces_le hd newstr
  have hfuel : PcScan.left delim ⟨oldstr, false⟩ + PcScan.left delim ⟨newstr, false⟩ < oldstr.length + newstr.length + 3 := by
    simp only [PcScan.left, Bool.false_eq_true, if_false]
    omega
  cases piecearray with
  | nil =>
    have hasc : Ascending maxPosInt4 [] := trivial
    have hloop := pieceDiffLoop_spec hm hd _ (Nat.le_refl 1) (show 1 ≤ maxPosInt4 by decide) hasc
      (scanAt_start delim oldstr) (scanAt_start delim newstr) hfuel []
    refine hloop.trans ?_
    congr 2
    refine List.filter_congr fun n hn => ?_
    rw [List.mem_range'_1] at hn
    have hin : pending 1 maxPosInt4 [] n = inRanges [] n := by simp only [pending, inRanges]; simp; omega
    rw [hin]
  | cons r rs =>
    have hloop := pieceDiffLoop_spec hm hd _ (show 0 + 1 ≤ r.min from hranges.1) hranges.2.1 hranges.2.2
      (scanAt_start delim oldstr) (scanAt_start delim newstr) hfuel []
    refine hloop.trans ?_
    congr 2
    refine (filter_range'_from _ hranges.1 fun n hn => ?_).symm
    exact le_of_pending hranges.2.1 hranges.2.2 (Bool.and_eq_true_iff.1 hn).1

/-- `strpiecediff` lists the numbers of the pieces in the ranges that differ, with `matchb` and with any other function that finds the
delimiters. Strings are shorter than the largest piece number. -/
theorem strpiecediff_differing {oldstr newstr delim : List UInt8} {piecearray : List NumRange} (hd : delim ≠ [])
    (hranges : Ascending 0 piecearray) (hold : oldstr.length < maxPosInt4) (hnew : newstr.length < maxPosInt4) :
    strpiecediff matchb oldstr newstr delim piecearray = some (commaList (differing delim oldstr newstr piecearray)) ∧
      ∀ matchFn, Matches matchFn delim →
        strpiecediff matchFn oldstr newstr delim piecearray = some (commaList (differing delim oldstr newstr piecearray)) :=
  ⟨strpiecediff_eq (matchb_matches hd) hd hranges hold hnew, fun _ hm => strpiecediff_eq hm hd hranges hold hnew⟩

/-- The strings `a,b,c` and `a,x,c,` differ in the second piece, which is not asked for, and in the fourth. -/
theorem strpiecediff_differing_four :
    strpiecediff matchb [97, 44, 98, 44, 99] [97, 44, 120, 44, 99, 44] [44] [⟨1, 1⟩, ⟨3, 4⟩] = some (commaList [4]) := by
  have hdiff : differing [44] [97, 44, 98, 44, 99] [97, 44, 120, 44, 99, 44] [⟨1, 1⟩, ⟨3, 4⟩] = [4] := by decide
  rw [← hdiff]
  exact (strpiecediff_differing (by decide) (by simp [Ascending]) (by decide) (by decide)).1

end StrPiece

end Gtm
