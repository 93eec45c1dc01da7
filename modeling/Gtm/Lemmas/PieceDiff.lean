import Gtm.Str.PieceDiff

/-!
# Going through two strings

`matchb` cuts a string at its first delimiter, and at the next ones. Each of the two strings stands at the piece that is looked at, or
its end has been seen before.
-/

namespace Gtm

namespace StrPiece

open Pieces

/-! ## `matchb` -/

/-- What the comparison finds. -/
theorem compareDelim_spec {d s : List UInt8} (hd : d ≠ []) (hs : s ≠ []) :
    match compareDelim d s with
    | .found rest => s = d ++ rest
    | .ends => s.length < d.length
    | .lost => ¬d <+: s := by
  induction d generalizing s with
  | nil => exact absurd rfl hd
  | cons c d ih =>
    obtain ⟨a, s, rfl⟩ := List.exists_cons_of_ne_nil hs
    by_cases heq : a = c
    · subst heq
      cases d with
      | nil =>
        rw [show compareDelim [a] (a :: s) = .found s from if_pos rfl]
        rfl
      | cons c' d =>
        cases s with
        | nil =>
          rw [show compareDelim (a :: c' :: d) [a] = .ends from if_pos rfl]
          simp
        | cons a' s =>
          have hrest := ih (s := a' :: s) (by simp) (by simp)
          rw [show compareDelim (a :: c' :: d) (a :: a' :: s) = compareDelim (c' :: d) (a' :: s) from if_pos rfl]
          cases hcmp : compareDelim (c' :: d) (a' :: s) with
          | found rest =>
            rw [hcmp] at hrest
            rw [hrest]
            rfl
          | ends =>
            rw [hcmp] at hrest
            simp only [List.length_cons] at hrest ⊢
            omega
          | lost =>
            rw [hcmp] at hrest
            simpa [List.cons_prefix_cons] using hrest
    · have hlost : compareDelim (c :: d) (a :: s) = .lost := by cases d <;> cases s <;> exact if_neg heq
      rw [hlost]
      simp only [List.cons_prefix_cons]
      exact fun h => heq h.1.symm

/-- Nothing starts where the first byte of the delimiter is not. -/
theorem cut_dropWhile {d : List UInt8} (hd : d ≠ []) (s : List UInt8) :
    (cut d s).map Prod.snd = (cut d (s.dropWhile fun a => some a != d.head?)).map Prod.snd := by
  induction s with
  | nil => rfl
  | cons a s ih =>
    rw [List.dropWhile_cons]
    split
    · next h =>
      have hne : ¬d <+: a :: s := by
        obtain ⟨c, t, rfl⟩ := List.exists_cons_of_ne_nil hd
        rw [List.cons_prefix_cons]
        rintro ⟨rfl, -⟩
        simp at h
      rw [← ih, cut_cons hne, Option.map_map]
      rfl
    · rfl

theorem skip_succ_congr {d s s' : List UInt8} (h : (cut d s).map Prod.snd = (cut d s').map Prod.snd) (n : Nat) :
    skip d (n + 1) s = skip d (n + 1) s' := by
  have hskip : ∀ s, skip d (n + 1) s = ((cut d s).map Prod.snd).bind (skip d n) := fun s => by
    rw [skip]
    cases cut d s <;> rfl
  rw [hskip, hskip, h]

theorem matchbLoop_spec {del : List UInt8} (hdel : del ≠ []) (srcLen fuel : Nat) {src : List UInt8} (hfuel : src.length < fuel) {n : Nat}
    (hn : 0 < n) :
    match skip del n src with
    | some rest => (matchbLoop del srcLen fuel src n).ptr = rest ∧ (matchbLoop del srcLen fuel src n).res ≠ 0
    | none => (matchbLoop del srcLen fuel src n).ptr = [] ∧ (matchbLoop del srcLen fuel src n).res = 0 := by
  induction fuel generalizing src n with
  | zero => omega
  | succ fuel ih =>
    obtain ⟨n, rfl⟩ : ∃ m, n = m + 1 := ⟨n - 1, by omega⟩
    have hdrop := (List.dropWhile_sublist (fun a => some a != del.head?) (l := src)).length_le
    rw [matchbLoop, skip_succ_congr (cut_dropWhile hdel src)]
    cases hs : src.dropWhile fun a => some a != del.head? with
    | nil => simp [skip, cut, hdel]
    | cons a s =>
      rw [hs, List.length_cons] at hdrop
      have hcmp := compareDelim_spec hdel (List.cons_ne_nil a s)
      simp only
      cases hc : compareDelim del (a :: s) with
      | ends =>
        rw [hc] at hcmp
        simp [skip, cut_of_short hcmp]
      | found rest =>
        rw [hc] at hcmp
        simp only at hcmp ⊢
        rw [hcmp, skip, cut_append hdel]
        cases n with
        | zero => simp [skip]
        | succ n =>
          have hlen := congrArg List.length hcmp
          rw [List.length_append, List.length_cons] at hlen
          have hpos := List.length_pos_of_ne_nil hdel
          have hshort : rest.length < fuel := by omega
          exact ih hshort (by omega)
      | lost =>
        rw [hc] at hcmp
        have hcut : (cut del (a :: s)).map Prod.snd = (cut del s).map Prod.snd := by
          rw [cut_cons hcmp, Option.map_map]
          rfl
        rw [skip_succ_congr hcut]
        exact ih (by omega) (by omega)

/-- `matchb` finds the delimiters one after the other. -/
theorem matchb_matches {delim : List UInt8} (hdelim : delim ≠ []) : Matches matchb delim := by
  intro src n hn
  rw [matchb, if_neg hdelim]
  split_ifs with hshort
  · obtain ⟨n, rfl⟩ : ∃ m, n = m + 1 := ⟨n - 1, by omega⟩
    simp [skip, cut_of_short hshort]
  · exact matchbLoop_spec hdelim src.length _ (Nat.lt_succ_self _) hn

/-! ## One string -/

section Scan

variable {matchFn : MatchFn} {delim str : List UInt8} {s : PcScan} {k : Nat}

/-- A string stands at its piece with the number `k`, counted from zero; or its end has been seen, and there is no such piece. -/
structure ScanAt (delim str : List UInt8) (k : Nat) (s : PcScan) : Prop where
  here : s.endSeen = false → (pieces delim str).drop k = pieces delim s.rest
  ended : s.endSeen = true → (pieces delim str).length ≤ k ∧ (pieces delim s.rest).length = 1

/-- How many pieces may still come. -/
def PcScan.left (delim : List UInt8) (s : PcScan) : Nat := if s.endSeen then 0 else (pieces delim s.rest).length

theorem pieces_nil (hd : delim ≠ []) : pieces delim [] = [[]] := pieces_of_none hd (by rw [cut, if_neg hd])

theorem scanAt_start (delim str : List UInt8) : ScanAt delim str 0 ⟨str, false⟩ := ⟨fun _ => rfl, nofun⟩

section
variable (hm : Matches matchFn delim) (hd : delim ≠ []) (h : ScanAt delim str k s)
include hm hd h

/-- Pieces are skipped. -/
theorem skipPieces_spec {n : Nat} (hn : 0 < n) :
    ScanAt delim str (k + n) (skipPieces matchFn delim n s) ∧ (skipPieces matchFn delim n s).left delim ≤ s.left delim := by
  have hended : s.endSeen = true → (pieces delim str).length ≤ k + n := fun he => (h.ended he).1.trans (Nat.le_add_right _ _)
  have hlen : s.endSeen = false → (pieces delim str).length = k + (pieces delim s.rest).length := by
    intro he
    have hdrop := h.here he
    have hpos := List.length_pos_of_ne_nil (pieces_ne_nil delim s.rest)
    have := congrArg List.length hdrop
    rw [List.length_drop] at this
    omega
  have hout := hm s.rest n hn
  by_cases hnil : s.rest = []
  · -- there is nothing to skip
    have heq : skipPieces matchFn delim n s = { s with endSeen := true } := if_neg (by simp [hnil])
    rw [heq]
    refine ⟨⟨nofun, fun _ => ⟨?_, ?_⟩⟩, Nat.zero_le _⟩
    · cases he : s.endSeen with
      | true => exact hended he
      | false =>
        rw [hlen he, hnil]
        exact Nat.add_le_add_left hn k
    · rw [hnil]
      rfl
  · have hrest : s.rest.length ≠ 0 := fun h0 => hnil (List.length_eq_zero_iff.1 h0)
    cases hskip : skip delim n s.rest with
    | some rest =>
      -- enough delimiters
      rw [hskip] at hout
      have heq : skipPieces matchFn delim n s = { s with rest := rest } := by
        rw [← hout.1]
        exact (if_pos hrest).trans (if_pos hout.2)
      have hpieces := pieces_skip hd hskip
      rw [heq]
      cases he : s.endSeen with
      | true =>
        have hone := (h.ended he).2
        have hnone : skip delim n s.rest = none := (skip_eq_none_iff hd).2 (by omega)
        exact absurd (hnone.symm.trans hskip) (by simp)
      | false =>
        refine ⟨⟨fun _ => ?_, nofun⟩, ?_⟩
        · rw [← List.drop_drop, h.here he, hpieces]
        · simp only [PcScan.left]
          rw [if_neg (by simp), if_neg (by simp [he]), ← hpieces, List.length_drop]
          exact Nat.sub_le _ _
    | none =>
      -- the end is reached
      rw [hskip] at hout
      have heq : skipPieces matchFn delim n s = ⟨[], true⟩ := (if_pos hrest).trans (if_neg (not_not.2 hout.2))
      rw [heq]
      refine ⟨⟨nofun, fun _ => ⟨?_, ?_⟩⟩, Nat.zero_le _⟩
      · cases he : s.endSeen with
        | true => exact hended he
        | false =>
          rw [hlen he]
          exact Nat.add_le_add_left ((skip_eq_none_iff hd).1 hskip) k
      · rfl

/-- The piece at which a string stands is found, and the string goes to the next one. -/
theorem matchCurpiece_spec :
    let r := matchCurpiece matchFn delim s
    (pieces delim str)[k]? = (if r.2.pieceExists then some (s.rest.take r.2.matchLen) else none) ∧
      (r.2.pieceExists = true → r.2.matchLen ≤ s.rest.length) ∧ (r.2.pieceExists = false → r.2.matchLen = 0) ∧
      (r.2.pieceExists = false → s.endSeen = true ∧ r.1 = s) ∧
      ScanAt delim str (k + 1) (updatePtrLen r.1 r.2.ptrEnd) ∧
      (r.2.pieceExists = true → (updatePtrLen r.1 r.2.ptrEnd).left delim < s.left delim) := by
  intro r
  cases he : s.endSeen with
  | true =>
    obtain ⟨hlen, hone⟩ := h.ended he
    have hr : r = (s, ⟨false, 0, s.rest⟩) := if_neg (by simp [he])
    rw [hr]
    refine ⟨?_, (by intros; rename_i h; cases h), fun _ => rfl, fun _ => ⟨rfl, rfl⟩, ?_, (by intros; rename_i h; cases h)⟩
    · rw [if_neg (by simp), List.getElem?_eq_none_iff]
      exact hlen
    · rw [updatePtrLen, if_neg (by simp [he])]
      exact ⟨fun hf => by simp [he] at hf, fun _ => ⟨by omega, hone⟩⟩
  | false =>
    have hdrop := h.here he
    have hout := hm s.rest 1 Nat.one_pos
    have hfirst : (pieces delim str)[k]? = (pieces delim s.rest)[0]? := by
      rw [← hdrop, List.getElem?_drop, Nat.add_zero]
    have hr : r = _ := if_pos he
    cases hcut : cut delim s.rest with
    | none =>
      have hskip : skip delim 1 s.rest = none := by rw [skip, hcut]; rfl
      rw [hskip] at hout
      have hone := pieces_of_none hd hcut
      simp only [hout.1, hout.2, if_true] at hr
      rw [hr]
      have hlen := congrArg List.length hdrop
      rw [List.length_drop, hone, List.length_singleton] at hlen
      refine ⟨?_, fun _ => by simp, (by intros; rename_i h; cases h), (by intros; rename_i h; cases h), ?_, ?_⟩
      · rw [hfirst, hone]
        simp
      · rw [updatePtrLen, if_neg (by simp)]
        exact ⟨(by intros; rename_i h; cases h), fun _ => ⟨by omega, by rw [hone]; rfl⟩⟩
      · intro _
        rw [updatePtrLen]
        simp [PcScan.left, he, hone]
    | some c =>
      obtain ⟨u, v⟩ := c
      have hskip : skip delim 1 s.rest = some v := by rw [skip, hcut]; rfl
      rw [hskip] at hout
      have hps := pieces_of_some hd hcut
      have heq := cut_eq hcut
      have hlen := cut_length hcut
      simp only [hout.1, hout.2, if_false] at hr
      rw [hr]
      have hmatch : s.rest.length - v.length - delim.length = u.length := by omega
      refine ⟨?_, fun _ => by simp only; omega, (by intros; rename_i h; cases h), (by intros; rename_i h; cases h), ?_, ?_⟩
      · rw [hfirst, hps]
        simp only [hmatch, if_true]
        rw [heq, List.take_left]
        rfl
      · rw [updatePtrLen, if_pos he]
        refine ⟨fun _ => ?_, fun hf => by simp [he] at hf⟩
        rw [← List.drop_drop, hdrop, hps]
        rfl
      · intro _
        rw [updatePtrLen]
        simp [PcScan.left, he, hps]

end

end Scan

end StrPiece

end Gtm
