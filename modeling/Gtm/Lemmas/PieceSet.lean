import Gtm.Lemmas.PieceCache
import Gtm.Lemmas.PieceDiff

/-!
# The string with a piece replaced

The plan of `op_setzp1` comes to the source with the piece replaced, whether the piece is in the cache, behind what the cache can hold, or
past the end of the source. The new string starts with the pieces of which the cache copies the places.
-/

namespace Gtm

namespace ZPiece

open Pieces

section Plan

variable {c : UInt8} {s : List UInt8} {k ind : Nat}

/-- Where the string ends in front of the piece, or with it. -/
theorem setRange_end (hk : k ≤ (pieces [c] s).length) (hend : s.length ≤ offset [c] s k) (hind : k < ind) (e : List UInt8) :
    setRange [c] s e (ind - 1) ind = s ++ (List.replicate (ind - (pieces [c] s).length) c ++ e) := by
  have hle : (pieces [c] s).length ≤ ind := by
    have := eq_of_le_offset hk hend
    omega
  by_cases hmore : (pieces [c] s).length < ind
  · rw [setRange_of_le single_ne_nil (by omega) (by omega), List.flatten_replicate_singleton, List.append_assoc,
      Nat.sub_add_cancel (by omega)]
  · have hlt : k < (pieces [c] s).length := by omega
    obtain rfl : k = ind - 1 := by
      have := eq_of_le_offset hk hend
      omega
    rw [setRange_of_none single_ne_nil (skip_of_lt single_ne_nil hlt) hle, ← take_offset hlt, List.take_of_length_le hend,
      show ind - (pieces [c] s).length = 0 by omega]
    rfl

/-- The same, with the delimiter in front of the missing pieces. -/
theorem setRange_past (hk : k ≤ (pieces [c] s).length) (hpos : k ≠ 0) (hend : s.length ≤ offset [c] s k) (hind : k < ind) (e : List UInt8) :
    setRange [c] s e (ind - 1) ind = s.take (offset [c] s k - 1) ++ (List.replicate (ind - k) c ++ e) := by
  rw [setRange_end hk hend hind]
  obtain ⟨rfl, hoff⟩ | ⟨hlast, hoff⟩ := eq_of_le_offset hk hend
  · rw [hoff, Nat.add_sub_cancel, List.take_length]
  · have hdelim := (drop_offset_pred (show k < (pieces [c] s).length by omega) hpos).1
    rw [List.drop_eq_nil_of_le hend] at hdelim
    have hjoin := List.take_append_drop (offset [c] s k - 1) s
    rw [hdelim] at hjoin
    rw [show ind - k = ind - (pieces [c] s).length + 1 by omega]
    conv_lhs => rw [← hjoin, List.append_assoc, hjoin]
    rfl

/-- Where the piece is in the string. -/
theorem setRange_of_piece (hind : 0 < ind) (hle : ind ≤ (pieces [c] s).length) (e : List UInt8) :
    setRange [c] s e (ind - 1) ind = s.take (offset [c] s (ind - 1)) ++ (e ++ s.drop (offset [c] s ind - 1)) := by
  have hlt : ind - 1 < (pieces [c] s).length := by omega
  rw [take_offset hlt]
  rcases Nat.eq_or_lt_of_le hle with rfl | hmore
  · rw [setRange_of_none single_ne_nil (skip_of_lt single_ne_nil hlt) (Nat.le_refl _), offset_length single_ne_nil,
      List.length_singleton, Nat.add_sub_cancel, List.drop_length, List.append_nil]
  · rw [setRange_of_lt single_ne_nil (Nat.sub_le _ _) hmore, (drop_offset_pred hmore (by omega)).1]
    rfl

/-! ## The search behind the cache -/

/-- The search has passed the pieces up to `k`, and `ind - k` delimiters are missing. -/
structure SfxAt (c : UInt8) (s : List UInt8) (ind k : Nat) (sc : SfxScan) : Prop where
  pos : 0 < k
  le : k ≤ (pieces [c] s).length
  endPfx_eq : sc.endPfx = offset [c] s (k - 1)
  startSfx_eq : sc.startSfx = offset [c] s k
  delimCnt_eq : sc.delimCnt = ind - k
  lc_iff : sc.lc = c ↔ k < (pieces [c] s).length

/-- Behind the last delimiter there is none. -/
theorem not_mem_last (hlast : k + 1 = (pieces [c] s).length) : c ∉ s.drop (offset [c] s k) := by
  have hk : k < (pieces [c] s).length := by omega
  have hrest := pieces_drop_offset single_ne_nil hk
  have hjoin := join_pieces (show [c] ≠ [] from single_ne_nil) (s.drop (offset [c] s k))
  have hnone : (pieces [c] s).drop (k + 1) = [] := List.drop_eq_nil_of_le (by omega)
  rw [List.drop_eq_getElem_cons hk, hnone] at hrest
  rw [hrest, join_singleton] at hjoin
  rw [← hjoin]
  exact not_mem_piece (List.getElem_mem hk)

/-- The last byte that is read is a delimiter, unless the piece ends the string. -/
theorem getD_end {stop : Nat} (hlt : offset [c] s k < s.length) (hk : k < (pieces [c] s).length) (hstop : stop + 1 = offset [c] s (k + 1)) :
    s.getD (if stop < s.length then stop else s.length - 1) 0 = c ↔ k + 1 < (pieces [c] s).length := by
  obtain rfl : stop = offset [c] s (k + 1) - 1 := by omega
  rcases Nat.eq_or_lt_of_le (show k + 1 ≤ (pieces [c] s).length from hk) with hlast | hmore
  · have hend : ¬offset [c] s (k + 1) - 1 < s.length := by
      rw [hlast, offset_length single_ne_nil, List.length_singleton]
      omega
    have hmem : s.getD (s.length - 1) 0 ∈ s.drop (offset [c] s k) := by
      rw [List.getD_eq_getElem?_getD, List.getElem?_eq_getElem (by omega), List.mem_drop_iff_getElem]
      exact ⟨s.length - 1 - offset [c] s k, by omega, by congr 1; omega⟩
    rw [if_neg hend]
    exact ⟨fun heq => absurd (heq ▸ hmem) (not_mem_last hlast), fun hmore => by omega⟩
  · have hdrop := (drop_offset_pred hmore (Nat.succ_ne_zero k)).1
    have hin : offset [c] s (k + 1) - 1 < s.length := by
      have hle := offset_le single_ne_nil hmore
      omega
    rw [if_pos hin, List.getD_eq_getElem?_getD, ← List.head?_drop, hdrop]
    exact ⟨fun _ => hmore, fun _ => rfl⟩

/-- The loop passes pieces until no delimiter is missing, or the string ends. -/
theorem sfxLoop_spec {n : Nat} {sc : SfxScan} (hn : n = ind - k) (hlt : k < ind) (hk : k ≤ (pieces [c] s).length)
    (hstart : sc.startSfx = offset [c] s k) (hin : offset [c] s k < s.length) :
    ∃ k', k < k' ∧ k' ≤ ind ∧ SfxAt c s ind k' (sfxLoop c s n sc) ∧ (k' = ind ∨ s.length ≤ offset [c] s k') := by
  induction n generalizing k sc with
  | zero => omega
  | succ n ih =>
    have hk' := lt_of_offset_lt hk hin
    have hstop : sc.startSfx + (s.drop sc.startSfx).findIdx (· == c) + 1 = offset [c] s (k + 1) := by
      rw [hstart, findIdx_drop_offset hk', offset_succ hk']
      rfl
    have hat : SfxAt c s ind (k + 1) ⟨sc.startSfx, sc.startSfx + (s.drop sc.startSfx).findIdx (· == c) + 1,
        s.getD (if sc.startSfx + (s.drop sc.startSfx).findIdx (· == c) < s.length then
          sc.startSfx + (s.drop sc.startSfx).findIdx (· == c) else s.length - 1) 0, n⟩ :=
      ⟨Nat.succ_pos k, hk', hstart, hstop, by dsimp only; omega, getD_end hin hk' hstop⟩
    rw [sfxLoop]
    by_cases hmore : sc.startSfx + (s.drop sc.startSfx).findIdx (· == c) + 1 < s.length
    · rw [if_pos hmore]
      cases n with
      | zero => exact ⟨k + 1, by omega, by omega, hat, .inl (by omega)⟩
      | succ n =>
        obtain ⟨k', hlt', hle', hat', hend⟩ := ih (by omega) (by omega) hk' hat.startSfx_eq (hstop ▸ hmore)
        exact ⟨k', by omega, hle', hat', hend⟩
    · rw [if_neg hmore]
      exact ⟨k + 1, by omega, by omega, hat, .inr (by rw [← hstop]; omega)⟩

/-- The plan for a source that ends in front of the piece. -/
theorem build_past (hk : k ≤ (pieces [c] s).length) (hpos : k ≠ 0) (hend : s.length ≤ offset [c] s k) (hind : k < ind) (cpy : Nat)
    (e : List UInt8) : (SetPlan.mk (offset [c] s k - 1) (ind - k) 0 0 cpy).build c s e = setRange [c] s e (ind - 1) ind := by
  rw [setRange_past hk hpos hend hind, SetPlan.build]
  simp only [List.take_zero, List.append_nil]

/-- The plan for a piece of the source. -/
theorem build_piece (hind : 0 < ind) (hle : ind ≤ (pieces [c] s).length) (cpy : Nat) (e : List UInt8) :
    (SetPlan.mk (offset [c] s (ind - 1)) 0 (offset [c] s ind - 1) (s.length - (offset [c] s ind - 1)) cpy).build c s e =
      setRange [c] s e (ind - 1) ind := by
  have hall : (s.drop (offset [c] s ind - 1)).take (s.length - (offset [c] s ind - 1)) = s.drop (offset [c] s ind - 1) :=
    List.take_of_length_le (by rw [List.length_drop])
  rw [setRange_of_piece hind hle, SetPlan.build, hall]
  rfl

/-- The search behind the cache comes to a plan of the one or the other kind. -/
theorem sfxScan_build (hk : k ≤ (pieces [c] s).length) (hin : offset [c] s k < s.length) (hlt : k < ind) (cpy : Nat) (e : List UInt8) :
    let sc := sfxScan c s (offset [c] s k) (ind - k)
    (SetPlan.mk sc.endPfx sc.delimCnt sc.startSfx (s.length - sc.startSfx) cpy).build c s e = setRange [c] s e (ind - 1) ind ∧
      sc.endPfx ≤ s.length := by
  have hstart : (SfxScan.mk (offset [c] s k) (offset [c] s k) 0 (ind - k)).startSfx = offset [c] s k := rfl
  obtain ⟨k', -, hle', hat, hend⟩ := sfxLoop_spec rfl hlt hk hstart hin
  have hcnt := hat.delimCnt_eq
  have hpos := hat.pos
  have hsearch : 0 < ind - k ∧ offset [c] s k < s.length := ⟨by omega, hin⟩
  simp only [sfxScan, if_pos hsearch]
  revert hat hcnt
  generalize sfxLoop c s (ind - k) ⟨offset [c] s k, offset [c] s k, 0, ind - k⟩ = sc
  intro hat hcnt
  have hstartSfx := hat.startSfx_eq
  by_cases hall : k' = ind
  · subst hall
    have hzero : sc.delimCnt = 0 := by omega
    have hback : sc.delimCnt = 0 ∨ sc.startSfx < s.length ∨ sc.lc ≠ c := .inl hzero
    have hdone : ¬(s.length ≤ sc.startSfx - 1 ∧ 0 < sc.delimCnt) := by omega
    simp only [if_pos hback, if_neg hdone]
    rw [hat.endPfx_eq, hstartSfx, hzero]
    have hle := hat.le
    exact ⟨build_piece hpos hle cpy e, offset_le single_ne_nil (by omega)⟩
  · have hpast := hend.resolve_left hall
    rw [setRange_end hat.le hpast (by omega)]
    obtain ⟨hlast, hoff⟩ | ⟨hlast, hoff⟩ := eq_of_le_offset hat.le hpast
    · have hlc : sc.lc ≠ c := fun hlc => by
        have := hat.lc_iff.1 hlc
        omega
      have hback : sc.delimCnt = 0 ∨ sc.startSfx < s.length ∨ sc.lc ≠ c := .inr (.inr hlc)
      have hdone : s.length ≤ sc.startSfx - 1 ∧ 0 < sc.delimCnt := by omega
      simp only [if_pos hback, if_pos hdone, if_neg hlc]
      rw [hstartSfx, hoff, hcnt, hlast, SetPlan.build]
      exact ⟨by simp, Nat.le_refl _⟩
    · have hlc : sc.lc = c := hat.lc_iff.2 (by omega)
      have hback : ¬(sc.delimCnt = 0 ∨ sc.startSfx < s.length ∨ sc.lc ≠ c) := by
        simp only [hlc, ne_eq, not_true_eq_false, or_false]
        omega
      have hdone : s.length ≤ sc.startSfx ∧ 0 < sc.delimCnt := by omega
      simp only [if_neg hback, if_pos hdone, if_pos hlc]
      rw [hstartSfx, hoff, hcnt, ← hlast, SetPlan.build, show ind - k' - 1 = ind - (k' + 1) by omega]
      exact ⟨by simp, Nat.le_refl _⟩

theorem offset_pred_le (hk : k ≤ (pieces [c] s).length) : offset [c] s k - 1 ≤ s.length := by
  rcases Nat.eq_or_lt_of_le hk with rfl | hlt
  · rw [offset_length single_ne_nil]
    exact Nat.le_refl _
  · exact Nat.le_trans (Nat.sub_le _ _) (offset_le single_ne_nil hlt)

/-- The prefix and the suffix are in the source. -/
def SetPlan.Fits (p : SetPlan) (s : List UInt8) : Prop := p.pfxStrLen ≤ s.length ∧ p.sfxStrLen ≤ s.length - p.sfxStartOffset

theorem SetPlan.build_length {p : SetPlan} (h : p.Fits s) (c : UInt8) (expr : List UInt8) :
    (p.build c s expr).length = expr.length + p.pfxStrLen + p.delimCnt + p.sfxStrLen := by
  obtain ⟨hpfx, hsfx⟩ := h
  rw [SetPlan.build, List.length_append, List.length_append, List.length_append, List.length_replicate, List.length_take,
    List.length_take, List.length_drop]
  omega

/-- The plan comes to the string with the piece replaced. The cache has the places of the pieces that are copied. -/
theorem setPlan_spec {e : Fnpc} (h : Starts c s e.npcs e.pstart)
    (hstop : e.npcs < min ind fnpcElemMax → s.length ≤ offset [c] s e.npcs) (hind : 0 < ind) (expr : List UInt8) :
    (setPlan e c s ind).build c s expr = setRange [c] s expr (ind - 1) ind ∧ (setPlan e c s ind).Fits s ∧
      (setPlan e c s ind).cpyCacheLines ≤ e.npcs ∧ (setPlan e c s ind).cpyCacheLines < ind := by
  have hle := h.le
  have hmax := h.le_max
  have hpos := h.pos
  rw [setPlan]
  by_cases hin : ind ≤ fnpcElemMax ∧ ind ≤ e.npcs
  · have hlt : ind - 1 < (pieces [c] s).length := by omega
    have hoff := offset_le single_ne_nil hlt
    have hsucc := offset_succ hlt
    rw [Nat.sub_add_cancel hind, List.length_singleton] at hsucc
    rw [if_pos hin]
    dsimp only
    rw [h.eq_offset _ hin.2, h.eq_offset _ (by omega), show s.length - offset [c] s (ind - 1) -
      (offset [c] s ind - offset [c] s (ind - 1) - 1) = s.length - (offset [c] s ind - 1) by omega]
    exact ⟨build_piece hind (by omega) _ expr, ⟨hoff, Nat.le_refl _⟩, by omega, by omega⟩
  · rw [if_neg hin]
    by_cases hshort : ind ≤ fnpcElemMax ∨ e.npcs < fnpcElemMax
    · rw [if_pos hshort, h.eq_offset _ (Nat.le_refl _)]
      exact ⟨build_past hle (by omega) (hstop (by omega)) (by omega) _ expr, ⟨offset_pred_le hle, Nat.zero_le _⟩, Nat.le_refl _,
        by dsimp only; omega⟩
    · have hfull : e.npcs = fnpcElemMax := by omega
      rw [if_neg hshort, h.eq_offset _ (Nat.le_of_eq hfull.symm)]
      by_cases hmore : offset [c] s fnpcElemMax < s.length
      · rw [if_pos hmore]
        obtain ⟨hbuild, hend⟩ := sfxScan_build (hfull ▸ hle) hmore (show fnpcElemMax < ind by omega) fnpcElemMax expr
        exact ⟨hbuild, ⟨hend, Nat.le_refl _⟩, Nat.le_of_eq hfull.symm, by dsimp only; omega⟩
      · rw [if_neg hmore]
        exact ⟨build_past (hfull ▸ hle) (by decide) (Nat.le_of_not_lt hmore) (by omega) _ expr,
          ⟨offset_pred_le (hfull ▸ hle), Nat.zero_le _⟩, Nat.le_of_eq hfull.symm, by dsimp only; omega⟩

/-- The new string starts with the pieces in front of the one that is replaced. -/
theorem setRange_eq_before {n : Nat} (hn : n < ind) (hle : n ≤ (pieces [c] s).length) (e : List UInt8) :
    ∃ t, setRange [c] s e (ind - 1) ind = before [c] ((pieces [c] s).take n) ++ t := by
  have htake : (pieces [c] s).take (ind - 1) = (pieces [c] s).take n ++ ((pieces [c] s).take (ind - 1)).drop n := by
    conv_lhs => rw [← List.take_append_drop n ((pieces [c] s).take (ind - 1))]
    rw [List.take_take, Nat.min_eq_left (by omega)]
  rw [setRange, join_append _ (by simp), htake, before_append, before_append, List.append_assoc, List.append_assoc]
  exact ⟨_, rfl⟩

/-- The places that are copied are those of the new string. -/
theorem starts_setRange {npcs n : Nat} {pstart pstart' : Nat → Nat} (h : Starts c s npcs pstart) (hpos : 0 < n) (hn : n ≤ npcs)
    (hind : n < ind) (hsame : ∀ j ≤ n, pstart' j = pstart j) (e : List UInt8) : Starts c (setRange [c] s e (ind - 1) ind) n pstart' := by
  have hle : n ≤ (pieces [c] s).length := Nat.le_trans hn h.le
  obtain ⟨t, ht⟩ := setRange_eq_before hind hle e
  have hmem : ∀ p ∈ (pieces [c] s).take n, c ∉ p := fun p hp => not_mem_piece (List.mem_of_mem_take hp)
  rw [ht]
  refine ⟨hpos, Nat.le_trans hn h.le_max, ?_, fun j hj => ?_⟩
  · rw [pieces_before hmem, List.length_append, List.length_take]
    omega
  · rw [hsame j hj, h.eq_offset j (by omega), offset_before hj hle]

end Plan

/-! ## `op_setzp1` -/

section Setzp1

variable {st : PieceSt} {g : Option Gcol} {delim : UInt32}

/-- A string is kept where room is made for another. -/
def Kept (st : PieceSt) (g : Option Gcol) (m : Mstr) : Prop := (st.ensureStpFreeSpace g).str (m.moved g) = st.str m

theorem Cached.ensure (h : Cached st) (g : Option Gcol) : Cached (st.ensureStpFreeSpace g) := by
  cases g with
  | none => exact h
  | some g => exact fun i hlen => absurd rfl hlen

theorem Cached.push (h : Cached st) (bytes : List UInt8) : Cached (st.push bytes) := by
  intro i hlen hbyte
  obtain ⟨hholds, hstarts⟩ := h i hlen hbyte
  have hstr : (st.push bytes).str (st.fnpcs i).lastStr = st.str (st.fnpcs i).lastStr := PieceSt.str_push hholds bytes
  exact ⟨hholds.push bytes, hstr ▸ hstarts⟩

theorem ensure_pstart (st : PieceSt) (g : Option Gcol) (i : Nat) : ((st.ensureStpFreeSpace g).fnpcs i).pstart = (st.fnpcs i).pstart := by
  cases g <;> rfl

theorem stealOther_eq (st : PieceSt) (pfnpc : Nat) : (st.stealOther pfnpc).2.mem = st.mem ∧ (st.stealOther pfnpc).2.fnpcs = st.fnpcs := by
  rw [PieceSt.stealOther]
  dsimp only
  split <;> exact ⟨rfl, rfl⟩

/-- The element for the new string is right where the copied places are. -/
theorem copyCache_spec (h : Cached st) (delim : UInt32) {dst : Mstr} (hdst : st.Holds dst) {pfnpc n : Nat}
    (hstarts : 0 < n → ∀ pstart, (∀ j ≤ n, pstart j = (st.fnpcs pfnpc).pstart j) → Starts delim.toUInt8 (st.str dst) n pstart) :
    Cached (copyCache st pfnpc delim n dst).1 ∧ (copyCache st pfnpc delim n dst).1.mem = st.mem ∧
      (copyCache st pfnpc delim n dst).2.str = dst := by
  rw [copyCache]
  by_cases hpos : 0 < n
  · rw [if_pos hpos]
    obtain ⟨hmem, hfnpcs⟩ := stealOther_eq st pfnpc
    rcases hsteal : st.stealOther pfnpc with ⟨i, st'⟩
    rw [hsteal] at hmem hfnpcs
    have hkeeps : ∀ c, Keeps st (st'.setFnpc i c) i := fun c => ⟨hmem, fun j hj => (if_neg hj).trans (congrFun hfnpcs j)⟩
    refine ⟨h.of_keeps (hkeeps _) ?_, hmem, rfl⟩
    rw [setFnpc_self]
    intro _ _
    refine ⟨by rwa [PieceSt.Holds, (hkeeps _).str], ?_⟩
    rw [(hkeeps _).str]
    refine hstarts hpos _ fun j hj => ?_
    have hin : j < n + 1 := Nat.lt_succ_of_le hj
    dsimp only
    rw [if_pos hin, hfnpcs]
  · rw [if_neg hpos]
    exact ⟨h, rfl, rfl⟩

/-- The outcome of a set: a string in the memory, or an error where it would be too long. -/
def SetOut.Is (out : SetOut) (bytes : List UInt8) : Prop :=
  Cached out.st ∧
    match out.dst with
    | .ok dst => out.st.str dst.str = bytes ∧ out.st.Holds dst.str
    | .error _ => maxStrlen < bytes.length

theorem setzp1Build_spec (h : Cached st) (delim : UInt32) (pfnpc : Nat) {src expr : Mstr} (hexpr : st.Holds expr) (hsrc : Kept st g src) (hexpr' : Kept st g expr)
    {p : SetPlan} (hfits : p.Fits (st.str src))
    (hstarts : 0 < p.cpyCacheLines → ∀ pstart, (∀ j ≤ p.cpyCacheLines, pstart j = (st.fnpcs pfnpc).pstart j) →
      Starts delim.toUInt8 (p.build delim.toUInt8 (st.str src) (st.str expr)) p.cpyCacheLines pstart) :
    (setzp1Build st g src expr pfnpc delim p).Is (p.build delim.toUInt8 (st.str src) (st.str expr)) := by
  have hlen := SetPlan.build_length hfits delim.toUInt8 (st.str expr)
  rw [hexpr] at hlen
  rw [setzp1Build]
  dsimp only
  by_cases hlong : maxStrlen < expr.len + p.pfxStrLen + p.delimCnt + p.sfxStrLen
  · rw [if_pos hlong]
    exact ⟨h, by rwa [hlen]⟩
  · rw [if_neg hlong, hsrc, hexpr']
    generalize p.build delim.toUInt8 (st.str src) (st.str expr) = bytes at hstarts hlen
    have hnew := @PieceSt.str_push_new (st.ensureStpFreeSpace g) bytes
    have hholds : ((st.ensureStpFreeSpace g).push bytes).Holds ⟨(st.ensureStpFreeSpace g).mem.length, bytes.length⟩ := by
      rw [PieceSt.Holds, hnew]
    obtain ⟨hcached, hmem, hstr⟩ := copyCache_spec ((h.ensure g).push bytes) delim hholds fun hpos pstart hsame => by
        rw [hnew]
        exact hstarts hpos pstart fun j hj => (hsame j hj).trans (congrFun (ensure_pstart st g pfnpc) j)
    refine ⟨hcached, ?_, ?_⟩
    · rw [hstr, PieceSt.str, hmem, ← PieceSt.str, hnew]
    · rw [hstr, PieceSt.Holds, PieceSt.str, hmem, ← PieceSt.str, hnew]

theorem Kept.of_mem {st' : PieceSt} {m : Mstr} (h : Kept st g m) (hmem : st'.mem = st.mem) : Kept st' g m := by
  cases g with
  | none => exact rfl
  | some g =>
    rw [Kept, PieceSt.str, PieceSt.str, hmem]
    exact h

theorem kept_nil (st : PieceSt) (g : Option Gcol) : Kept st g ⟨0, 0⟩ := by
  cases g with
  | none => rfl
  | some g => exact PieceSt.str_nil _

/-- The bytes of a source; an undefined one has none. -/
def PieceSt.srcBytes (st : PieceSt) (src : Option StrMval) : List UInt8 := src.elim [] fun m => st.str m.str

/-- A source is in the memory, and is kept. -/
def SrcOk (st : PieceSt) (g : Option Gcol) (src : Option StrMval) : Prop := ∀ m, src = some m → st.Holds m.str ∧ Kept st g m.str

/-- For a source without bytes. -/
theorem setzp1Build_nil (h : Cached st) {src expr : Mstr} (hexpr : st.Holds expr) (hsrc : Kept st g src) (hexpr' : Kept st g expr)
    (hnil : st.str src = []) {ind : Nat} (hind : 0 < ind) :
    (setzp1Build st g src expr 0 delim ⟨0, ind - 1, 0, 0, 0⟩).Is (setRange [delim.toUInt8] [] (st.str expr) (ind - 1) ind) := by
  have hone : (pieces [delim.toUInt8] []).length = 1 := by rw [pieces_of_none single_ne_nil rfl, List.length_singleton]
  have hbuild : (SetPlan.mk 0 (ind - 1) 0 0 0).build delim.toUInt8 (st.str src) (st.str expr) =
      setRange [delim.toUInt8] [] (st.str expr) (ind - 1) ind := by
    rw [setRange_end (Nat.zero_le _) (Nat.zero_le _) hind, hone, SetPlan.build]
    simp
  rw [← hbuild]
  exact setzp1Build_spec h delim 0 hexpr hsrc hexpr' ⟨Nat.zero_le _, Nat.zero_le _⟩ fun hpos => absurd hpos (Nat.lt_irrefl 0)

/-- `op_setzp1` replaces the piece. -/
theorem opSetzp1_spec (h : Cached st) {src : Option StrMval} (hsrc : SrcOk st g src) {expr : Mstr} (hexpr : st.Holds expr)
    (hexpr' : Kept st g expr) {ind : Int} (hind : 0 < ind) : (opSetzp1 st g src delim expr ind).Is
      (setRange [delim.toUInt8] (st.srcBytes src) (st.str expr) (ind.toNat - 1) ind.toNat) := by
  have hpos : 0 < ind.toNat := by omega
  have hpred : (ind - 1).toNat = ind.toNat - 1 := by omega
  cases src with
  | none =>
    rw [opSetzp1, hpred]
    exact setzp1Build_nil h hexpr (kept_nil st g) hexpr' (PieceSt.str_nil 0) hpos
  | some src =>
    obtain ⟨hholds, hkept⟩ := hsrc src rfl
    have hlen : (st.str src.str).length = src.str.len := hholds
    rw [opSetzp1, PieceSt.srcBytes, Option.elim_some]
    by_cases hnil : src.str.len = 0
    · have hbytes : st.str src.str = [] := List.length_eq_zero_iff.1 (hlen.trans hnil)
      rw [if_pos hnil, if_pos hind, hpred, hbytes]
      exact setzp1Build_nil h hexpr hkept hexpr' hbytes hpos
    · rw [if_neg hnil]
      dsimp only
      have hspec : FnzSpec st src delim (min ind fnpcElemMax).toNat (opFnzp1 st src delim (min ind fnpcElemMax) src) :=
        opFnzp1_spec h hholds hnil (by rw [fnpcElemMax]; omega)
      generalize opFnzp1 st src delim (min ind fnpcElemMax) src = out at hspec
      have hstr : ∀ m, out.st.str m = st.str m := fun m => by rw [PieceSt.str, hspec.mem_eq, PieceSt.str]
      have hstarts := hspec.elem.starts
      have hstop := hspec.elem.stop
      rw [hstr] at hstarts hstop
      rw [show min (min ind (fnpcElemMax : Int)).toNat fnpcElemMax = min ind.toNat fnpcElemMax by omega] at hstop
      obtain ⟨hbuild, hfits, hcpy, hcpyInd⟩ := setPlan_spec hstarts hstop hpos (st.str expr)
      generalize setPlan (out.st.fnpcs (out.src.fnpcIndx - 1)) delim.toUInt8 (st.str src.str) ind.toNat = p at hbuild hfits hcpy hcpyInd ⊢
      have hexprOut : out.st.Holds expr := by
        rw [PieceSt.Holds, hstr]
        exact hexpr
      rw [← hstr src.str] at hfits
      have hout := setzp1Build_spec hspec.cached delim (out.src.fnpcIndx - 1) hexprOut (hkept.of_mem hspec.mem_eq)
        (hexpr'.of_mem hspec.mem_eq) hfits fun hcopied pstart hsame => by
          rw [hstr, hstr, hbuild]
          exact starts_setRange hstarts hcopied hcpy hcpyInd hsame _
      rwa [hstr, hstr, hbuild] at hout

end Setzp1

end ZPiece

end Gtm

/-!
## Ranges of pieces with any delimiter

`op_fnzpiece` and `op_setzpiece` find the ends of the range with `matchb`, which says how many delimiters are missing where the string is
too short.
-/

namespace Gtm

namespace ZPiece

open StrPiece
open Pieces (pieces cut skip pieces_of_none pieces_of_some cut_cons cut_append cut_of_short pieces_ne_nil pieceRange setRange before
  pieceRange_of_le pieceRange_of_skip pieceRange_of_none setRange_of_le setRange_of_none setRange_of_lt skip_eq skip_eq_none_iff skip_add
  skip_of_lt offset join_append_delim)

/-! ## How many delimiters are missing -/

theorem length_pieces_congr {d s s' : List UInt8} (hd : d ≠ []) (h : (cut d s).map Prod.snd = (cut d s').map Prod.snd) :
    (pieces d s).length = (pieces d s').length := by
  cases hc : cut d s with
  | none =>
    cases hc' : cut d s' with
    | none => rw [pieces_of_none hd hc, pieces_of_none hd hc', List.length_singleton, List.length_singleton]
    | some r => simp [hc, hc'] at h
  | some r =>
    cases hc' : cut d s' with
    | none => simp [hc, hc'] at h
    | some r' =>
      rw [hc, hc'] at h
      have hrest : r.2 = r'.2 := Option.some.inj h
      rw [pieces_of_some hd (show cut d s = some (r.1, r.2) from hc), pieces_of_some hd (show cut d s' = some (r'.1, r'.2) from hc'),
        List.length_cons, List.length_cons, hrest]

theorem matchbLoop_numpcs {del : List UInt8} (hdel : del ≠ []) (srcLen fuel : Nat) {src : List UInt8} (hfuel : src.length < fuel)
    {n : Nat} (hn : 0 < n) : (matchbLoop del srcLen fuel src n).numpcs = n + 1 - (pieces del src).length := by
  have hone : ∀ {s}, cut del s = none → (pieces del s).length = 1 := fun hc => by rw [pieces_of_none hdel hc, List.length_singleton]
  induction fuel generalizing src n with
  | zero => omega
  | succ fuel ih =>
    have hdrop := (List.dropWhile_sublist (fun a => some a != del.head?) (l := src)).length_le
    rw [matchbLoop, length_pieces_congr hdel (cut_dropWhile hdel src)]
    cases hs : src.dropWhile fun a => some a != del.head? with
    | nil =>
      rfl
    | cons a s =>
      rw [hs, List.length_cons] at hdrop
      have hcmp := compareDelim_spec hdel (List.cons_ne_nil a s)
      simp only
      cases hc : compareDelim del (a :: s) with
      | ends =>
        rw [hc] at hcmp
        rw [hone (cut_of_short hcmp)]
        rfl
      | found rest =>
        rw [hc] at hcmp
        simp only at hcmp ⊢
        have hcut := cut_append hdel rest
        rw [hcmp, pieces_of_some hdel hcut, List.length_cons]
        by_cases hlast : n = 1
        · rw [if_pos hlast]
          have := List.length_pos_of_ne_nil (pieces_ne_nil del rest)
          dsimp only
          omega
        · have hlen := congrArg List.length hcmp
          rw [List.length_append, List.length_cons] at hlen
          have hpos := List.length_pos_of_ne_nil hdel
          have hshort : rest.length < fuel := by omega
          rw [if_neg hlast, ih hshort (by omega)]
          omega
      | lost =>
        rw [hc] at hcmp
        have hcut : (cut del (a :: s)).map Prod.snd = (cut del s).map Prod.snd := by
          rw [cut_cons hcmp, Option.map_map]
          rfl
        rw [length_pieces_congr hdel hcut]
        exact ih (by omega) hn

theorem matchb_numpcs {del : List UInt8} (hdel : del ≠ []) (src : List UInt8) {n : Nat} (hn : 0 < n) :
    (StrPiece.matchb del src n).numpcs = n + 1 - (pieces del src).length := by
  rw [StrPiece.matchb, if_neg hdel]
  split
  · next hshort =>
    rw [pieces_of_none hdel (cut_of_short hshort)]
    rfl
  · exact matchbLoop_numpcs hdel src.length _ (Nat.lt_succ_self _) hn

/-! ## The source up to the range -/

/-- What is behind the pieces in front of the range, unless they are all there is. -/
def skipFirst (d s : List UInt8) (first numpcs : Nat) : MatchOut := if first ≠ 0 then StrPiece.matchb d s first else ⟨s, 1, numpcs⟩

theorem skipFirst_spec {d : List UInt8} (hd : d ≠ []) (s : List UInt8) (first numpcs : Nat) :
    match skip d first s with
    | some rest => (skipFirst d s first numpcs).ptr = rest ∧ (skipFirst d s first numpcs).res ≠ 0
    | none => (skipFirst d s first numpcs).ptr = [] ∧ (skipFirst d s first numpcs).res = 0 := by
  rw [skipFirst]
  by_cases hfirst : first = 0
  · subst hfirst
    exact ⟨rfl, Nat.one_ne_zero⟩
  · rw [if_pos hfirst]
    exact matchb_matches hd s first (Nat.pos_of_ne_zero hfirst)

theorem skipFirst_numpcs {d : List UInt8} (hd : d ≠ []) (s : List UInt8) (first : Nat) :
    (skipFirst d s first first).numpcs = first + 1 - (pieces d s).length := by
  rw [skipFirst]
  by_cases hfirst : first = 0
  · subst hfirst
    have := List.length_pos_of_ne_nil (pieces_ne_nil d s)
    rw [if_neg (by simp)]
    dsimp only
    omega
  · rw [if_pos hfirst]
    exact matchb_numpcs hd s (Nat.pos_of_ne_zero hfirst)

/-- The place behind some delimiters, by its distance from the end. -/
theorem drop_of_skip {d s r : List UInt8} {n : Nat} (hd : d ≠ []) (h : skip d n s = some r) :
    r.length ≤ s.length ∧ s.drop (s.length - r.length) = r ∧ s.take (s.length - r.length) = before d ((pieces d s).take n) := by
  have heq := skip_eq hd h
  have hlen := congrArg List.length heq
  rw [List.length_append] at hlen
  have hsub : s.length - r.length = (before d ((pieces d s).take n)).length := by omega
  have hdrop := congrArg (List.drop (s.length - r.length)) heq
  have htake := congrArg (List.take (s.length - r.length)) heq
  rw [hsub, List.drop_left] at hdrop
  rw [hsub, List.take_left] at htake
  exact ⟨by omega, hsub ▸ hdrop, hsub ▸ htake⟩

/-- From the delimiter in front of that place on. -/
theorem drop_delim_of_skip {d s r : List UInt8} {n : Nat} (hd : d ≠ []) (h : skip d n s = some r) (hn : n ≠ 0) :
    s.drop (s.length - r.length - d.length) = d ++ r := by
  have hne : (pieces d s).take n ≠ [] := by
    intro hnil
    have hlen := congrArg List.length hnil
    have hpos := List.length_pos_of_ne_nil (pieces_ne_nil d s)
    rw [List.length_take, List.length_nil] at hlen
    omega
  have heq := skip_eq hd h
  rw [← join_append_delim hne, List.append_assoc] at heq
  have hlen := congrArg List.length heq
  rw [List.length_append, List.length_append] at hlen
  have hsub : s.length - r.length - d.length = (d.intercalate ((pieces d s).take n)).length := by omega
  have hdrop := congrArg (List.drop (s.length - r.length - d.length)) heq
  rw [hsub, List.drop_left] at hdrop
  exact hsub ▸ hdrop

/-! ## `op_fnzpiece` -/

/-- What a retrieval leaves: the state, and a string in the memory. -/
structure FnzOut.Is (out : FnzOut) (st : PieceSt) (bytes : List UInt8) : Prop where
  cached : Cached out.st
  mem_eq : out.st.mem = st.mem
  str_eq : out.st.str out.dst.str = bytes
  holds : out.st.Holds out.dst.str

section Fnzpiece

variable {st : PieceSt} {src dst : StrMval}

theorem FnzSpec.is {delim : UInt32} {trg : Nat} {out : FnzOut} (h : FnzSpec st src delim trg out) :
    out.Is st (pieceRange [delim.toUInt8] (st.str src.str) (trg - 1) 1) := by
  have hstr : out.st.str out.dst.str = st.str out.dst.str := by rw [PieceSt.str, h.mem_eq, PieceSt.str]
  exact ⟨h.cached, h.mem_eq, hstr.trans h.piece, by rw [PieceSt.Holds, hstr]; exact h.holds⟩

theorem pieceRange_nil_src (d : List UInt8) (first cnt : Nat) (hd : d ≠ []) : pieceRange d [] first cnt = [] := by
  rw [pieceRange, pieces_of_none hd (by rw [cut, if_neg hd])]
  cases first with
  | zero => cases cnt <;> simp [List.intercalate]
  | succ first => simp [List.intercalate]

/-- The piece that `op_fnzp1` is asked for; there is none with a number below 1. -/
def pieceOf (c : UInt8) (s : List UInt8) (trgpcidx : Int) : List UInt8 :=
  if trgpcidx ≤ 0 then [] else pieceRange [c] s (trgpcidx.toNat - 1) 1

theorem opFnzp1_is (h : Cached st) (hsrc : st.Holds src.str) (delim : UInt32) (trgpcidx : Int) (ldst : StrMval) :
    (opFnzp1 st src delim trgpcidx ldst).Is st (pieceOf delim.toUInt8 (st.str src.str) trgpcidx) := by
  by_cases hnone : trgpcidx ≤ 0 ∨ src.str.len = 0
  · have hbytes : pieceOf delim.toUInt8 (st.str src.str) trgpcidx = [] := by
      rw [pieceOf]
      split
      · rfl
      · have hnil : st.str src.str = [] := List.length_eq_zero_iff.1 (hsrc.trans (hnone.resolve_left (by omega)))
        rw [hnil, pieceRange_nil_src _ _ _ single_ne_nil]
    simp only [opFnzp1]
    rw [if_pos hnone, hbytes]
    exact ⟨h, rfl, PieceSt.str_nil _, PieceSt.holds_nil _⟩
  · have hspec : FnzSpec st src delim trgpcidx.toNat (opFnzp1 st src delim trgpcidx ldst) := opFnzp1_spec h hsrc (by omega) (by omega)
    rw [pieceOf, if_neg (by omega)]
    exact hspec.is

/-- The range that `op_fnzpiece` is asked for. An empty delimiter has no pieces. -/
def rangeOf (d s : List UInt8) (first last : Int) : List UInt8 :=
  if d = [] then [] else pieceRange d s (first - 1).toNat (last - (first - 1).toNat).toNat

/-- The part of `op_fnzpiece` without the cache. -/
theorem fnzRange_spec (h : Cached st) (hsrc : st.Holds src.str) {d : List UInt8} (hd : d ≠ []) (first : Nat) {cnt : Nat} (hcnt : 0 < cnt) :
    let s := st.str src.str
    let skipped := skipFirst d s first 0
    (if skipped.res = 0 then (⟨st, src, { dst with str := { dst.str with len := 0 } }⟩ : FnzOut)
      else
        let found := StrPiece.matchb d skipped.ptr cnt
        let len := skipped.ptr.length - found.ptr.length - (if found.res ≠ 0 then d.length else 0)
        ⟨st, src, { dst with str := ⟨src.str.addr + (s.length - skipped.ptr.length), len⟩ }⟩).Is st
      (pieceRange d s first cnt) := by
  have hskip := skipFirst_spec hd (st.str src.str) first 0
  have hlen : (st.str src.str).length = src.str.len := hsrc
  dsimp only
  cases hs : skip d first (st.str src.str) with
  | none =>
    rw [hs] at hskip
    rw [if_pos hskip.2, pieceRange_of_le ((skip_eq_none_iff hd).1 hs)]
    exact ⟨h, rfl, PieceSt.str_nil _, PieceSt.holds_nil _⟩
  | some r =>
    rw [hs] at hskip
    obtain ⟨hle, hdrop, -⟩ := drop_of_skip hd hs
    rw [if_neg hskip.2, hskip.1]
    have hmatch := matchb_matches hd r cnt hcnt
    have hrange : ∀ len, len = (pieceRange d (st.str src.str) first cnt).length → (∃ t, pieceRange d (st.str src.str) first cnt ++ t = r) →
        FnzOut.Is ⟨st, src, { dst with str := ⟨src.str.addr + ((st.str src.str).length - r.length), len⟩ }⟩ st
          (pieceRange d (st.str src.str) first cnt) := by
      rintro len rfl ⟨t, ht⟩
      have hin := congrArg List.length ht
      rw [List.length_append] at hin
      refine ⟨h, rfl, ?_, hsrc.part (by omega)⟩
      rw [PieceSt.str_part (by omega), hdrop]
      have htake := congrArg (List.take (pieceRange d (st.str src.str) first cnt).length) ht
      rw [List.take_left] at htake
      exact htake.symm
    cases hn : skip d cnt r with
    | none =>
      rw [hn] at hmatch
      have heq := pieceRange_of_none hd hs hn
      refine hrange _ ?_ ⟨[], by rw [heq, List.append_nil]⟩
      rw [hmatch.1, if_neg (by simp [hmatch.2]), heq]
      rfl
    | some r' =>
      rw [hn] at hmatch
      have heq := pieceRange_of_skip hd hs (Nat.pos_iff_ne_zero.1 hcnt) hn
      have hin := congrArg List.length heq
      rw [List.length_append, List.length_append] at hin
      refine hrange _ ?_ ⟨d ++ r', by rw [← List.append_assoc, heq]⟩
      rw [hmatch.1, if_pos hmatch.2]
      omega

theorem matchb_nil (s : List UInt8) (n : Nat) : StrPiece.matchb [] s n = ⟨s, 1, 0⟩ := if_pos rfl

/-- `op_fnzpiece` finds the range. -/
theorem opFnzpiece_is (h : Cached st) (hsrc : st.Holds src.str) (del : Mstr) (first last : Int) :
    (opFnzpiece st src del first last dst).Is st (rangeOf (st.str del) (st.str src.str) first last) := by
  simp only [opFnzpiece]
  by_cases hcnt : last - ((first - 1).toNat : Int) < 1
  · have hbytes : rangeOf (st.str del) (st.str src.str) first last = [] := by
      rw [rangeOf, show (last - ((first - 1).toNat : Int)).toNat = 0 by omega, pieceRange]
      split <;> rfl
    rw [if_pos hcnt, hbytes]
    exact ⟨h, rfl, PieceSt.str_nil _, PieceSt.holds_nil _⟩
  · rw [if_neg hcnt]
    split
    · next b hb hone =>
      have hlast : last - ((first - 1).toNat : Int) = 1 := of_decide_eq_true hone
      have hbyte : (unicharVal b).toUInt8 = b := by simp [unicharVal]
      have hbytes : rangeOf [b] (st.str src.str) first last = pieceOf (unicharVal b).toUInt8 (st.str src.str) last := by
        rw [rangeOf, if_neg single_ne_nil, pieceOf, if_neg (by omega), hbyte, hlast, show (first - 1).toNat = last.toNat - 1 by omega]
        rfl
      rw [hb, hbytes]
      exact opFnzp1_is h hsrc _ _ _
    · by_cases hd : st.str del = []
      · have hskipped : ∀ f, (if f ≠ 0 then StrPiece.matchb [] (st.str src.str) f else ⟨st.str src.str, 1, 0⟩) = ⟨st.str src.str, 1, 0⟩ := fun f => by
          split
          · exact matchb_nil _ f
          · rfl
        rw [rangeOf, hd, hskipped, matchb_nil]
        rw [Nat.sub_self, Nat.zero_sub]
        exact ⟨h, rfl, PieceSt.str_nil _, PieceSt.holds_nil _⟩
      · rw [rangeOf, if_neg hd]
        exact fnzRange_spec h hsrc hd _ (by omega)

end Fnzpiece

/-! ## `op_setzpiece` -/

section Setzpiece

variable {st : PieceSt} {g : Option Gcol} {dst : StrMval}

theorem rangePlan_eq (d s : List UInt8) (first cnt : Nat) :
    rangePlan d s first cnt = let skipped := skipFirst d s first first
      if skipped.res = 0 then ⟨s.length - skipped.ptr.length, skipped.numpcs, none⟩
      else
        let found := StrPiece.matchb d skipped.ptr cnt
        ⟨s.length - skipped.ptr.length, skipped.numpcs, if found.res = 0 then none else some (s.length - found.ptr.length - d.length)⟩ :=
  rfl

/-- The places are in the source. -/
def RangePlan.Fits (p : RangePlan) (s : List UInt8) : Prop := p.firstSrcInd ≤ s.length

theorem RangePlan.build_length {p : RangePlan} {s : List UInt8} (h : p.Fits s) (d expr : List UInt8) :
    (p.build d s expr).length = expr.length + (p.firstSrcInd + d.length * p.delimCnt) + p.secondSrcInd.elim 0 (s.length - ·) := by
  have hsuffix : (p.secondSrcInd.elim [] s.drop).length = p.secondSrcInd.elim 0 (s.length - ·) := by
    cases p.secondSrcInd with
    | none => rfl
    | some i => exact List.length_drop
  have hfits : p.firstSrcInd ≤ s.length := h
  rw [RangePlan.build, List.length_append, List.length_append, List.length_append, hsuffix, List.length_take, List.length_flatten,
    List.map_replicate, List.sum_replicate_nat, Nat.min_eq_left hfits, Nat.mul_comm]
  omega

/-- The plan comes to the string with the range replaced. -/
theorem rangePlan_spec {d : List UInt8} (hd : d ≠ []) (s : List UInt8) (first : Nat) {cnt : Nat} (hcnt : 0 < cnt) (expr : List UInt8) :
    (rangePlan d s first cnt).build d s expr = setRange d s expr first (first + cnt) ∧ (rangePlan d s first cnt).Fits s := by
  have hskip := skipFirst_spec hd s first first
  have hnumpcs := skipFirst_numpcs hd s first
  rw [rangePlan_eq]
  dsimp only
  cases hs : skip d first s with
  | none =>
    rw [hs] at hskip
    have hle := (skip_eq_none_iff hd).1 hs
    rw [if_pos hskip.2, hskip.1, hnumpcs, setRange_of_le hd hle (Nat.le_add_right _ _), RangePlan.build]
    refine ⟨?_, Nat.sub_le _ _⟩
    simp
  | some r =>
    rw [hs] at hskip
    obtain ⟨hle, -, htake⟩ := drop_of_skip hd hs
    have hlt : first < (pieces d s).length := by
      refine Nat.not_le.1 fun hle => ?_
      rw [(skip_eq_none_iff hd).2 hle] at hs
      cases hs
    have hmatch := matchb_matches hd r cnt hcnt
    rw [if_neg hskip.2, hskip.1, hnumpcs, show first + 1 - (pieces d s).length = 0 by omega]
    refine ⟨?_, Nat.sub_le _ _⟩
    rw [← skip_add hs] at hmatch
    cases hn : skip d (first + cnt) s with
    | none =>
      rw [hn] at hmatch
      rw [if_pos hmatch.2, setRange_of_none hd hs ((skip_eq_none_iff hd).1 hn), RangePlan.build, htake]
      simp
    | some r' =>
      rw [hn] at hmatch
      have hlast : first + cnt < (pieces d s).length := by
        refine Nat.not_le.1 fun hle => ?_
        rw [(skip_eq_none_iff hd).2 hle] at hn
        cases hn
      have hrest : s.drop (offset d s (first + cnt)) = r' := Option.some.inj ((skip_of_lt hd hlast).symm.trans hn)
      rw [if_neg hmatch.2, hmatch.1, setRange_of_lt hd (Nat.le_add_right _ _) hlast, RangePlan.build, htake, hrest, Option.elim_some,
        drop_delim_of_skip hd hn (by omega)]
      rfl

theorem setzpieceBuild_is (h : Cached st) {src del expr : Mstr} (hdel : st.Holds del) (hexpr : st.Holds expr) (hsrc : st.Holds src)
    (hdel' : Kept st g del) (hexpr' : Kept st g expr) (hsrc' : Kept st g src) {p : RangePlan} (hfits : p.Fits (st.str src)) :
    (setzpieceBuild st g src del expr p dst).Is (p.build (st.str del) (st.str src) (st.str expr)) := by
  have hlen := RangePlan.build_length hfits (st.str del) (st.str expr)
  rw [hdel, hexpr, hsrc] at hlen
  rw [setzpieceBuild]
  dsimp only
  by_cases hlong : maxStrlen < expr.len + (p.firstSrcInd + del.len * p.delimCnt) + p.secondSrcInd.elim 0 (src.len - ·)
  · rw [if_pos hlong]
    exact ⟨h, by rwa [hlen]⟩
  · rw [if_neg hlong, hdel', hsrc', hexpr']
    have hnew := @PieceSt.str_push_new (st.ensureStpFreeSpace g) (p.build (st.str del) (st.str src) (st.str expr))
    exact ⟨(h.ensure g).push _, hnew, congrArg List.length hnew⟩

/-- A string at the end of the memory is made longer in place. -/
theorem str_push_end {m : Mstr} (hend : m.addr + m.len = st.mem.length) (bytes : List UInt8) :
    (st.push bytes).str ⟨m.addr, m.len + bytes.length⟩ = st.str m ++ bytes := by
  have hdrop : st.str m = st.mem.drop m.addr := by
    rw [PieceSt.str, List.take_of_length_le]
    rw [List.length_drop]
    omega
  rw [hdrop, PieceSt.str, PieceSt.push]
  dsimp only
  rw [List.drop_append_of_le_length (by omega), List.take_of_length_le]
  rw [List.length_append, List.length_drop]
  omega

theorem opCat_is (h : Cached st) {src expr : Mstr} (hsrc : st.Holds src) (hexpr : st.Holds expr) (hsrc' : Kept st g src)
    (hexpr' : Kept st g expr) : (opCat st g src expr dst).Is (st.str src ++ st.str expr) := by
  rw [opCat]
  dsimp only
  by_cases hlong : maxStrlen < src.len + expr.len
  · rw [if_pos hlong]
    exact ⟨h, by rwa [List.length_append, hsrc, hexpr]⟩
  · rw [if_neg hlong, hsrc', hexpr']
    by_cases hend : (src.moved g).addr + (src.moved g).len = (st.ensureStpFreeSpace g).mem.length
    · have hmoved : (src.moved g).len = src.len := by cases g <;> rfl
      have hnew := str_push_end hend (st.str expr)
      rw [hsrc', hmoved] at hnew
      rw [if_pos hend, hmoved]
      refine ⟨(h.ensure g).push _, hnew, ?_⟩
      rw [PieceSt.Holds, hnew, List.length_append, hsrc]
    · rw [if_neg hend]
      have hnew := @PieceSt.str_push_new (st.ensureStpFreeSpace g) (st.str src ++ st.str expr)
      exact ⟨(h.ensure g).push _, hnew, congrArg List.length hnew⟩

/-- The string with the range replaced. With an empty delimiter the source is the first piece. -/
def setOf (d s e : List UInt8) (first last : Int) : List UInt8 :=
  if d = [] then if first ≤ 1 then e else s ++ e else setRange d s e (first - 1).toNat last.toNat

theorem setRange_nil_src {d : List UInt8} (hd : d ≠ []) (e : List UInt8) {first last : Nat} (hlast : 0 < last) (hle : first ≤ last) :
    setRange d [] e first last = (List.replicate first d).flatten ++ e := by
  have hone : (pieces d []).length = 1 := by rw [pieces_of_none hd (by rw [cut, if_neg hd]), List.length_singleton]
  cases first with
  | zero => rw [setRange_of_none hd rfl (by omega)]; rfl
  | succ first => rw [setRange_of_le hd (by omega) hle, hone]; rfl

/-- `op_setzpiece` replaces the range. -/
theorem opSetzpiece_is (h : Cached st) {src : Option StrMval} (hsrc : SrcOk st g src) {del expr : Mstr} (hdel : st.Holds del)
    (hdel' : Kept st g del) (hexpr : st.Holds expr) (hexpr' : Kept st g expr) {first last : Int} (hle : first ≤ last) (hlast : 0 < last) :
    (opSetzpiece st g src del expr first last dst).Is (setOf (st.str del) (st.srcBytes src) (st.str expr) first last) := by
  have hcnt : 0 < (last - ((first - 1).toNat : Int)).toNat := by omega
  have hsum : (first - 1).toNat + (last - ((first - 1).toNat : Int)).toNat = last.toNat := by omega
  simp only [opSetzpiece]
  by_cases hd : st.str del = []
  · rw [setOf, hd]
    by_cases hfirst : first ≤ 1
    · have hzero : decide ((first - 1).toNat ≠ 0) = false := by simp; omega
      rw [if_pos hfirst, hzero]
      exact ⟨h, rfl, hexpr⟩
    · have hzero : decide ((first - 1).toNat ≠ 0) = true := by simp; omega
      rw [if_neg hfirst, hzero]
      cases src with
      | none => exact ⟨h, rfl, hexpr⟩
      | some src =>
        obtain ⟨hholds, hkept⟩ := hsrc src rfl
        exact opCat_is h hholds hexpr hkept hexpr'
  · rw [setOf, if_neg hd]
    obtain ⟨b, t, hbt⟩ := List.exists_cons_of_ne_nil hd
    cases src with
    | none =>
      have hbuild : (RangePlan.mk 0 (first - 1).toNat none).build (st.str del) (st.str ⟨0, 0⟩) (st.str expr) =
          setRange (st.str del) [] (st.str expr) (first - 1).toNat last.toNat := by
        rw [setRange_nil_src hd _ (by omega) (by omega), RangePlan.build]
        simp
      rw [PieceSt.srcBytes, Option.elim_none, ← hbuild]
      rw [hbt]
      dsimp only
      rw [← hbt]
      exact setzpieceBuild_is h hdel hexpr (PieceSt.holds_nil 0) hdel' hexpr' (kept_nil st g) (Nat.zero_le _)
    | some src =>
      obtain ⟨hholds, hkept⟩ := hsrc src rfl
      have hrange : (setzpieceBuild st g src.str del expr
          (rangePlan (st.str del) (st.str src.str) (first - 1).toNat (last - ((first - 1).toNat : Int)).toNat) dst).Is
          (setRange (st.str del) (st.str src.str) (st.str expr) (first - 1).toNat last.toNat) := by
        obtain ⟨hbuild, hfits⟩ := rangePlan_spec hd (st.str src.str) (first - 1).toNat hcnt (st.str expr)
        rw [hsum] at hbuild
        rw [← hbuild]
        exact setzpieceBuild_is h hdel hexpr hholds hdel' hexpr' hkept hfits
      rw [hbt] at hrange ⊢
      dsimp only
      split
      · next b' hb hone =>
        obtain ⟨rfl, rfl⟩ := List.cons.inj hb
        have hbyte : (unicharVal b).toUInt8 = b := by simp [unicharVal]
        have hone' : last - ((first - 1).toNat : Int) = 1 := of_decide_eq_true hone
        have hset : (opSetzp1 st g (some src) (unicharVal b) expr last).Is (setRange [(unicharVal b).toUInt8] (st.srcBytes (some src))
            (st.str expr) (last.toNat - 1) last.toNat) := opSetzp1_spec h hsrc hexpr hexpr' hlast
        rw [hbyte] at hset
        rwa [show (first - 1).toNat = last.toNat - 1 by omega]
      · exact hrange

end Setzpiece

end ZPiece

end Gtm
